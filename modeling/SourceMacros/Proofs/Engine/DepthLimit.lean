import SourceMacros.Proofs.Engine.SideBySide

/-!
# The depth limit

The limit on nested expansions only ever cuts an expansion off. A request that ends in any other
way, well or badly, ends the same under every higher limit and keeps the same units. What counts is
the number of levels that are left: an expansion that is entered in the middle of others goes like
one that starts with this number as its limit, but for the number that a failure shows
(`depth_limit_only_cuts_off`).

Both are statements about two expansions side by side. A cut-off deep inside reaches the outermost
request as it is, because nothing between them, neither a walk nor an expander, goes on after a
failure.
-/

namespace SourceMacros

open TokenStream

/-- The failure with another number for the limit. -/
def ExpandError.withLimit (limit : Nat) : ExpandError → ExpandError
  | recursionLimit _ context => recursionLimit limit context
  | err => err

namespace Expanded

variable {α : Type}

/-- The expansion ended at the depth limit. -/
def CutOff (x : Expanded α) : Prop :=
  ∃ limit context, x.result = .error (.recursionLimit limit context)

/-- The second outcome is the first one, unless the first was cut off. -/
def SameUnlessCutOff (α : Type) (x y : Expanded α) : Prop :=
  x.CutOff ∨ x = y

/-- Work whose first part is cut off is cut off, and otherwise it goes on from the same place. -/
theorem sameUnlessCutOff_lasting : Lasting SameUnlessCutOff where
  pure a := .inr rfl
  bind {α β x y f g} hxy hfg := by
    rcases hxy with ⟨limit, context, hcut⟩ | rfl
    · refine .inl ⟨limit, context, ?_⟩
      rw [bind, hcut]
    · unfold bind
      cases hx : x.result with
      | error err => exact .inr rfl
      | ok a =>
        rcases hfg a hx with ⟨limit, context, hcut⟩ | heq
        · exact .inl ⟨limit, context, hcut⟩
        · simp only [heq]
          exact .inr rfl

/-- The outcome with another number for the limit. -/
def withLimit (limit : Nat) (x : Expanded α) : Expanded α :=
  ⟨x.result.mapError (·.withLimit limit), x.units⟩

/-- The outcomes differ at most in the number that they show for the limit. -/
def SameButLimit (α : Type) (x y : Expanded α) : Prop :=
  ∀ limit, x.withLimit limit = y.withLimit limit

theorem withLimit_bind {β : Type} (limit : Nat) (x : Expanded α) (f : α → Expanded β) :
    (x.bind f).withLimit limit = (x.withLimit limit).bind fun a => (f a).withLimit limit := by
  unfold bind withLimit
  cases x.result <;> rfl

theorem sameButLimit_lasting : Lasting SameButLimit where
  pure a := fun limit => rfl
  bind {α β x y f g} hxy hfg := by
    intro limit
    rw [withLimit_bind, withLimit_bind, ← hxy limit]
    cases hx : x.result with
    | error err =>
      have hfailed : (x.withLimit limit).result = .error (err.withLimit limit) := by
        rw [withLimit, hx]
        rfl
      simp only [bind, hfailed]
    | ok a =>
      have hok : (x.withLimit limit).result = .ok a := by
        rw [withLimit, hx]
        rfl
      simp only [bind, hok, hfg a hx limit]

end Expanded

namespace Engine

open Expanded

/-- With more levels left, and under any limit, the outcome is the same unless it was cut off. -/
theorem expandWithin_of_le (e : Engine) (limit : Nat) {levels levels' : Nat}
    (hle : levels ≤ levels') (r : Request) :
    SameUnlessCutOff Text (e.expandWithin levels r)
      ({ e with maxDepth := limit }.expandWithin levels' r) := by
  induction levels generalizing levels' r with
  | zero =>
    -- The only place where a limit acts, and there the first side is cut off.
    exact .inl ⟨e.maxDepth, r.context, rfl⟩
  | succ levels ih =>
    obtain ⟨more, rfl⟩ : ∃ more, levels' = more + 1 := ⟨levels' - 1, by omega⟩
    have hmore : levels ≤ more := Nat.le_of_succ_le_succ hle
    have hparallel := e.parallel_of_refl sameUnlessCutOff_lasting (fun _ => .inr rfl) (ih hmore)
    simp only [expandWithin, @expandStream_congr { e with maxDepth := limit } e rfl rfl]
    exact hparallel.source r.gc r.gc (fun _ _ => ih hmore _) r.source (.inr rfl) fun _ => .inr rfl

/-- With as many levels left, the outcome differs in the number of the limit only. -/
theorem expandWithin_sameButLimit (e : Engine) (depth limit levels : Nat) (r : Request) :
    SameButLimit Text (e.expandWithin levels r)
      ({ e with depth := depth, maxDepth := limit }.expandWithin levels r) := by
  induction levels generalizing r with
  | zero => exact fun _ => rfl
  | succ levels ih =>
    have hparallel := e.parallel_of_refl sameButLimit_lasting (fun _ _ => rfl) ih
    simp only [expandWithin,
      @expandStream_congr { e with depth := depth, maxDepth := limit } e rfl rfl]
    exact hparallel.source r.gc r.gc (fun _ _ => ih _) r.source (fun _ => rfl) fun _ _ => rfl

/-- The engine with nothing under way and as many levels left. -/
def unnested (e : Engine) : Engine :=
  { e with depth := 0, maxDepth := e.maxDepth - e.depth }

/-- A request that is not cut off by the limit ends the same under every higher limit: with the same
result, and with the same units kept. And a request in the middle of others goes like one that
starts with the levels left as its limit, apart from the number that a cut-off shows. -/
theorem depth_limit_only_cuts_off (e : Engine) (r : Request) :
    (∀ higher, e.maxDepth ≤ higher →
      (∀ limit context, (e.expand r).1 ≠ .error (.recursionLimit limit context)) →
      { e with maxDepth := higher }.expand r
        = ((e.expand r).1, { (e.expand r).2 with maxDepth := higher })) ∧
    (∀ limit, (e.expand r).1.mapError (·.withLimit limit)
        = (e.unnested.expand r).1.mapError (·.withLimit limit)) ∧
    (e.expand r).2
      = { (e.unnested.expand r).2 with depth := e.depth, maxDepth := e.maxDepth } := by
  refine ⟨?_, ?_, ?_⟩
  · intro higher hle hnot
    have hlevels : e.maxDepth - e.depth ≤ higher - e.depth := Nat.sub_le_sub_right hle _
    rcases expandWithin_of_le e higher hlevels r with ⟨limit, context, hcut⟩ | hsame
    · exact absurd hcut (hnot limit context)
    · simp only [expand, retain, answer, hsame]
  · intro limit
    have hsame :=
      expandWithin_sameButLimit e 0 (e.maxDepth - e.depth) (e.maxDepth - e.depth) r limit
    exact congrArg Expanded.result hsame
  · have hsame := expandWithin_sameButLimit e 0 (e.maxDepth - e.depth) (e.maxDepth - e.depth) r 0
    have hunits := congrArg Expanded.units hsame
    simp only [withLimit] at hunits
    simp only [expand, retain, answer, unnested, Nat.sub_zero, hunits]

/-- A macro whose expander and whose template need a second level. Two levels are enough, so that
sixty-four change nothing; with one level the expander is cut off. -/
theorem depth_limit_only_cuts_off_twice :
    ∃ (e : Engine) (r : Request), e.maxDepth = 2 ∧
      (e.expand r).1 = .ok "A a".toList ∧ (e.expand r).2.retained.length = 2 ∧
      { e with maxDepth := 64 }.expand r
        = ((e.expand r).1, { (e.expand r).2 with maxDepth := 64 }) ∧
      ({ e with maxDepth := 1 }.expand r).1 = .error (.recursionLimit 1 []) := by
  obtain ⟨e, r, hlimit, hok, hunits, hcut⟩ : ∃ (e : Engine) (r : Request), e.maxDepth = 2 ∧
      (e.expand r).1 = .ok "A a".toList ∧ (e.expand r).2.retained.length = 2 ∧
      ({ e with maxDepth := 1 }.expand r).1 = .error (.recursionLimit 1 []) := by
    refine ⟨{ new 2 true with macros := [⟨"twice".toList, ⟨.chain [.lexeme "twice".toList,
        .labelled (.ofText ['x']) (.token .identifier)], by decide⟩,
        ⟨[.capture ['x'] ["studly".toList], .text [' '], .capture ['x'] []]⟩⟩] },
      ⟨"twice a".toList, [], .enabled⟩, rfl, ?_⟩
    decide +kernel
  have hnot : ∀ limit context, (e.expand r).1 ≠ .error (.recursionLimit limit context) := by
    intro limit context h
    rw [hok] at h
    cases h
  exact ⟨e, r, hlimit, hok, hunits, (depth_limit_only_cuts_off e r).1 64 (by omega) hnot, hcut⟩

end Engine

end SourceMacros
