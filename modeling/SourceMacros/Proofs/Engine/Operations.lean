import Mathlib.Data.List.Nodup
import SourceMacros.Proofs.Engine.InPlace
import SourceMacros.Proofs.Engine.SideBySide
import SourceMacros.Proofs.Rule.Stalling

/-!
# Engines in use

An engine is made empty and then worked on: macros, compiler passes and expanders come and go,
sources are expanded, garbage is collected. Every operation works in place and may fail, also in the
middle of nested expansions. `Engine.Reachable` are the engines that such a life can lead to, and
`Engine.Sound` is what holds of them all: the step lemma `Sound.perform` says that one operation
keeps it, however it ends.

A sound engine knows every expander that its macros name. So an expansion on it fails only where a
source cannot be split into tokens or the nesting is too deep. It can also go on forever, in a
pattern with a list that stands still.
-/

namespace SourceMacros

open TokenStream

/-! ## Operations -/

/-- Adds a macro behind the others, after all checks. -/
def InPlace.addMacro (m : Macro) : InPlace Unit := do
  let e ← get
  if e.macros.any (·.name == m.name) then throw (.duplicateMacro m.name)
  else
    match m.unknownLabel?, e.unknownExpander? m with
    | some label, _ => throw (.unknownCapture m.name label)
    | none, some name => throw (.unknownExpander m.name name)
    | none, none => modify fun e => { e with macros := e.macros ++ [m] }

/-- Expands the text of some tokens; the unit is not kept. -/
def InPlace.resubmit (rounds : Nat) (tokens : List Token) (context : Text) : InPlace TokenStream :=
  carryOut (expand rounds) (.expand ⟨Token.text tokens, context, .disabled⟩)

/-- What can be done with an engine. Only standard expanders are given names. -/
inductive Operation where
  | addMacro (m : Macro)
  | removeMacro (name : Text)
  | addCompiler (name : Text) (pass : Compiler)
  | removeCompiler (name : Text)
  | registerExpander (name : Text) (x : Expander) (standard : x.IsStandard)
  | expand (r : Request)
  | resubmit (tokens : List Token) (context : Text)
  | collectGarbage

namespace Engine

/-- The engine that an operation leaves, whether it succeeds or fails. -/
def perform (e : Engine) : Operation → Engine
  | .addMacro m => (InPlace.addMacro m e).2
  | .removeMacro name => (e.removeMacro name).2
  | .addCompiler name pass => e.addCompiler name pass
  | .removeCompiler name => (e.removeCompiler name).2
  | .registerExpander name x _ => e.registerExpander name x
  | .expand r => (InPlace.expand (e.maxDepth + 1) r e).2
  | .resubmit tokens context => (InPlace.resubmit (e.maxDepth + 1) tokens context e).2
  | .collectGarbage => e.collectGarbage.2

/-- The engines that operations lead to. -/
inductive Reachable : Engine → Prop
  | new (maxDepth : Nat) (retainIntermediate : Bool) : Reachable (new maxDepth retainIntermediate)
  | perform {e : Engine} (h : Reachable e) (operation : Operation) : Reachable (e.perform operation)

/-- What holds of an engine between two operations. -/
structure Sound (e : Engine) : Prop where
  depth_eq : e.depth = 0
  macros_distinct : (e.macros.map Macro.name).Nodup
  compilers_distinct : (e.compilers.map Prod.fst).Nodup
  expanders_known : ∀ m ∈ e.macros, ∀ name ∈ m.template.expanders, (e.expander? name).isSome
  labels_known : ∀ m ∈ e.macros, ∀ name ∈ m.template.labels,
    ∃ label ∈ m.pattern.labels, label.name = name
  standard : e.Standard

/-! ## Adding a macro -/

/-- A macro is added exactly if its name is new and its template names captures of its pattern and
known expanders only. -/
theorem addMacro_eq_ok_iff {e e' : Engine} {m : Macro} :
    e.addMacro m = .ok e' ↔
      m.name ∉ e.macros.map Macro.name ∧
      (∀ name ∈ m.template.labels, ∃ label ∈ m.pattern.labels, label.name = name) ∧
      (∀ name ∈ m.template.expanders, (e.expander? name).isSome) ∧
      { e with macros := e.macros ++ [m] } = e' := by
  have hnew : e.macros.any (·.name == m.name) = false ↔ m.name ∉ e.macros.map Macro.name := by
    simp
  have hlabels : m.unknownLabel? = none ↔
      ∀ name ∈ m.template.labels, ∃ label ∈ m.pattern.labels, label.name = name := by
    simp [Macro.unknownLabel?, Macro.captureNames]
  have hexpanders : e.unknownExpander? m = none ↔
      ∀ name ∈ m.template.expanders, (e.expander? name).isSome := by
    simp [unknownExpander?, Option.isSome_iff_ne_none]
  rw [← hnew, ← hlabels, ← hexpanders]
  unfold addMacro
  cases e.macros.any (·.name == m.name) with
  | true => simp
  | false =>
    cases m.unknownLabel? with
    | some label => simp
    | none =>
      cases e.unknownExpander? m with
      | some name => simp
      | none => simp

end Engine

/-- The checks in place come to the same end, and an engine that refuses a macro is left as it
was. -/
theorem InPlace.addMacro_eq (e : Engine) (m : Macro) :
    InPlace.addMacro m e = match e.addMacro m with
      | .ok e' => (.ok (), e')
      | .error err => (.error err, e) := by
  simp only [InPlace.addMacro, bind_apply, get_apply, Engine.addMacro]
  cases e.macros.any (·.name == m.name) with
  | true => rfl
  | false =>
    cases m.unknownLabel? with
    | some label => rfl
    | none =>
      cases e.unknownExpander? m with
      | some name => rfl
      | none => rfl

/-! ## Every operation keeps an engine sound -/

namespace Engine

theorem sound_new (maxDepth : Nat) (retainIntermediate : Bool) :
    (new maxDepth retainIntermediate).Sound where
  depth_eq := rfl
  macros_distinct := List.nodup_nil
  compilers_distinct := List.nodup_nil
  expanders_known _ hm := by cases hm
  labels_known _ hm := by cases hm
  standard := standard_of_expanders_eq rfl

namespace Sound

variable {e : Engine} (h : e.Sound)

include h

/-- Fewer macros, in the same order, do no harm. -/
theorem of_macros_sublist {ms : List Macro} (hms : ms.Sublist e.macros) :
    { e with macros := ms }.Sound where
  depth_eq := h.depth_eq
  macros_distinct := h.macros_distinct.sublist (hms.map Macro.name)
  compilers_distinct := h.compilers_distinct
  expanders_known m hm := h.expanders_known m (hms.subset hm)
  labels_known m hm := h.labels_known m (hms.subset hm)
  standard := h.standard

/-- What an engine knows of compilers matters only in that their names differ. -/
theorem of_compilers {passes : List (Text × Compiler)} (hdistinct : (passes.map Prod.fst).Nodup) :
    { e with compilers := passes }.Sound where
  depth_eq := h.depth_eq
  macros_distinct := h.macros_distinct
  compilers_distinct := hdistinct
  expanders_known := h.expanders_known
  labels_known := h.labels_known
  standard := h.standard

theorem of_retained (units : List Expansion) : { e with retained := units }.Sound :=
  ⟨h.depth_eq, h.macros_distinct, h.compilers_distinct, h.expanders_known, h.labels_known,
    h.standard⟩

theorem addMacro {e' : Engine} {m : Macro} (hadd : e.addMacro m = .ok e') : e'.Sound := by
  obtain ⟨hnew, hlabels, hexpanders, rfl⟩ := addMacro_eq_ok_iff.1 hadd
  refine ⟨h.depth_eq, ?_, h.compilers_distinct, ?_, ?_, h.standard⟩
  · rw [List.map_append, List.map_singleton, ← List.concat_eq_append]
    exact List.Nodup.concat hnew h.macros_distinct
  · intro k hk
    rcases List.mem_append.1 hk with hold | hlast
    · exact h.expanders_known k hold
    · rw [List.mem_singleton.1 hlast]
      exact hexpanders
  · intro k hk
    rcases List.mem_append.1 hk with hold | hlast
    · exact h.labels_known k hold
    · rw [List.mem_singleton.1 hlast]
      exact hlabels

/-- A further standard expander keeps an engine sound, also in place of one of the same name. -/
theorem registerExpander (name : Text) {x : Expander} (hx : x.IsStandard) :
    (e.registerExpander name x).Sound := by
  refine ⟨h.depth_eq, h.macros_distinct, h.compilers_distinct, ?_, h.labels_known, ?_⟩
  · intro m hm other hother
    by_cases heq : other = name
    · rw [expander?, Engine.registerExpander, heq, lookup_setNamed_self]
      rfl
    · rw [expander?, Engine.registerExpander, lookup_setNamed_of_ne _ _ heq]
      exact h.expanders_known m hm other hother
  · intro other y hy
    by_cases heq : other = name
    · rw [expander?, Engine.registerExpander, heq, lookup_setNamed_self] at hy
      rw [← Option.some.inj hy]
      exact hx
    · rw [expander?, Engine.registerExpander, lookup_setNamed_of_ne _ _ heq] at hy
      exact h.standard other y hy

/-- One operation, however it ends, keeps the engine sound. -/
theorem perform (operation : Operation) : (e.perform operation).Sound := by
  cases operation with
  | addMacro m =>
    rw [Engine.perform, InPlace.addMacro_eq]
    cases hadd : e.addMacro m with
    | error err => exact h
    | ok e' => exact h.addMacro hadd
  | removeMacro name => exact h.of_macros_sublist List.filter_sublist
  | addCompiler name pass =>
    refine h.of_compilers ?_
    rw [map_fst_setNamed]
    split
    · exact h.compilers_distinct
    · next hnew =>
      rw [← List.concat_eq_append]
      exact List.Nodup.concat hnew h.compilers_distinct
  | removeCompiler name =>
    exact h.of_compilers (h.compilers_distinct.sublist (List.filter_sublist.map _))
  | registerExpander name x hx => exact h.registerExpander name hx
  | expand r =>
    rw [Engine.perform, InPlace.expand_eq e (by omega)]
    exact h.of_retained _
  | resubmit tokens context =>
    rw [Engine.perform, InPlace.resubmit, InPlace.carryOut_eq e (by omega)]
    exact h.of_retained _
  | collectGarbage => exact h.of_retained []

end Sound

theorem Reachable.sound {e : Engine} (h : e.Reachable) : e.Sound := by
  induction h with
  | new maxDepth retainIntermediate => exact sound_new maxDepth retainIntermediate
  | perform _ operation ih => exact ih.perform operation

/-! ## How an expansion can fail -/

/-- The failures that an expansion on a sound engine can end in. -/
inductive FailsWith (e : Engine) : ExpandError → Prop
  | lex (why : LexError) : FailsWith e (.lex why)
  | recursionLimit (context : Text) : FailsWith e (.recursionLimit e.maxDepth context)
  /-- A pattern goes on forever, for it has a list that stands still. -/
  | endless {m : Macro} (hm : m ∈ e.macros) (h : m.pattern.rule.Stalls) : FailsWith e .endless

end Engine

/-- A failure on the first side is one of the engine. -/
def Expanded.FailsAs (e : Engine) (α : Type) (x _y : Expanded α) : Prop :=
  ∀ err, x.result = .error err → e.FailsWith err

/-- A sequence fails as one of its parts fails. -/
theorem Expanded.failsAs_lasting (e : Engine) : Lasting (FailsAs e) where
  pure _ _ herr := by cases herr
  bind {α β x y f g} hx hf := by
    intro err herr
    unfold bind at herr
    cases hresult : x.result with
    | error why =>
      rw [hresult] at herr
      cases herr
      exact hx _ hresult
    | ok a =>
      rw [hresult] at herr
      exact hf a hresult err herr

/-- A source that cannot be read fails for a fault that the lexer reports. -/
theorem TokenStream.expandable_failsAs (e : Engine) (source : Text) :
    Expanded.FailsAs e TokenStream (expandable source) (expandable source) := by
  intro err herr
  unfold expandable at herr
  cases hsource : ofSource source with
  | error why =>
    rw [hsource] at herr
    cases herr
    exact .lex why
  | ok s =>
    rw [hsource] at herr
    cases herr

namespace Engine

open Expanded

variable {e : Engine}

/-- On a sound engine, rendering fails only as the answers to its requests do. -/
theorem Sound.parallel_failsAs (h : e.Sound) {answer : Request → Expanded Text}
    (hanswer : ∀ r, FailsAs e Text (answer r) (answer r)) :
    e.Parallel (FailsAs e) answer answer where
  toLasting := failsAs_lasting e
  plan s hx := (failsAs_lasting e).plan (h.standard _ _ hx) s (fun _ => hanswer _)
    (expandable_failsAs e)
  unknown {m name} hm hname hnone := by
    -- The engine has checked this name when it took the macro.
    have hknown := h.expanders_known m hm name hname
    rw [hnone] at hknown
    cases hknown
  endless {m s} hm hs hparse := by
    rintro err ⟨⟩
    refine .endless hm ?_
    by_contra hstalls
    exact Rule.parse_ends m.pattern.rule hstalls hs hparse

/-- On a sound engine, a request fails only for one of the stated reasons, at any depth. -/
theorem Sound.expandWithin_fails (h : e.Sound) (levels : Nat) (r : Request) :
    FailsAs e Text (e.expandWithin levels r) (e.expandWithin levels r) := by
  induction levels generalizing r with
  | zero =>
    rintro err ⟨⟩
    exact .recursionLimit r.context
  | succ levels ih =>
    refine (h.parallel_failsAs ih).source r.gc r.gc (fun _ _ => ih _) r.source
      (expandable_failsAs e r.source) fun output => ?_
    intro err herr
    split at herr <;> cases herr

/-- Whatever was done with an engine before, it is sound. A macro that it does not take leaves it as
it is. An expansion in place gives what `expand` says, and changes nothing but the units that are
kept. It fails only on a source that cannot be split into tokens or at the depth limit, unless it
goes on forever in a pattern that stalls. -/
theorem reachable_sound {e : Engine} (h : e.Reachable) :
    e.Sound ∧
    (∀ m err, e.addMacro m = .error err → InPlace.addMacro m e = (.error err, e)) ∧
    (∀ m e', e.addMacro m = .ok e' → InPlace.addMacro m e = (.ok (), e')) ∧
    (∀ rounds, e.maxDepth < rounds →
      (∀ r, InPlace.expand rounds r e = e.expand r) ∧
      (∀ tokens context, InPlace.resubmit rounds tokens context e = e.resubmit tokens context)) ∧
    (∀ r, (e.expand r).2 = { e with retained := (e.expand r).2.retained } ∧
      ∀ err, (e.expand r).1 = .error err → e.FailsWith err) := by
  have hsound := h.sound
  refine ⟨hsound, ?_, ?_, ?_, ?_⟩
  · intro m err herr
    rw [InPlace.addMacro_eq, herr]
  · intro m e' hok
    rw [InPlace.addMacro_eq, hok]
  · intro rounds hrounds
    have henough : e.maxDepth - e.depth < rounds := by omega
    exact ⟨InPlace.expand_eq e henough, fun _ _ => InPlace.carryOut_eq e henough _⟩
  · intro r
    exact ⟨rfl, hsound.expandWithin_fails _ r⟩

/-- A macro that writes itself is taken once and not twice, and its expansion runs into the limit.
-/
theorem reachable_sound_again :
    ∃ (e : Engine) (m : Macro), e.Reachable ∧ e.maxDepth = 4 ∧ m.name = "again".toList ∧
      e.addMacro m = .error (.duplicateMacro m.name) ∧
      (e.expand ⟨"again".toList, [], .enabled⟩).1 = .error (.recursionLimit 4 m.name) ∧
      e.Sound ∧ InPlace.addMacro m e = (.error (.duplicateMacro m.name), e) ∧
      InPlace.expand 5 ⟨"again".toList, [], .enabled⟩ e
        = e.expand ⟨"again".toList, [], .enabled⟩ ∧
      e.FailsWith (.recursionLimit 4 m.name) := by
  obtain ⟨e, m, hreachable, hdepth, hname, htwice, hlimit⟩ : ∃ (e : Engine) (m : Macro),
      e.Reachable ∧ e.maxDepth = 4 ∧ m.name = "again".toList ∧
      e.addMacro m = .error (.duplicateMacro m.name) ∧
      (e.expand ⟨"again".toList, [], .enabled⟩).1 = .error (.recursionLimit 4 m.name) := by
    refine ⟨(new 4 true).perform (.addMacro ⟨"again".toList, ⟨.lexeme "again".toList, by decide⟩,
        ⟨[.text "again".toList]⟩⟩),
      ⟨"again".toList, ⟨.lexeme "again".toList, by decide⟩, ⟨[.text "again".toList]⟩⟩,
      .perform (.new 4 true) _, rfl, rfl, rfl, ?_⟩
    decide +kernel
  obtain ⟨hsound, hrefused, -, hinPlace, hexpand⟩ := reachable_sound hreachable
  exact ⟨e, m, hreachable, hdepth, hname, htwice, hlimit, hsound, hrefused m _ htwice,
    (hinPlace 5 (by omega)).1 _, (hexpand _).2 _ hlimit⟩

end Engine

end SourceMacros
