import SourceMacros.Engine
import SourceMacros.Proofs.Rule.Backtracking

/-!
# What an expansion does

The steps of an expansion, each said once: what the standard expanders ask for, which macro is taken
at a place (`firstMatch`), what a successful request has gone through, and what of an engine a
nested request can see. An engine with one more expansion under way answers like the engine itself
with one level less (`deeper`), so a nested request is an ordinary call of `expand`.
-/

namespace SourceMacros

open TokenStream

/-! ## Results -/

namespace Expanded

variable {α β : Type}

theorem result_bind_eq_ok {x : Expanded α} {f : α → Expanded β} {b : β} :
    (x.bind f).result = .ok b ↔ ∃ a, x.result = .ok a ∧ (f a).result = .ok b := by
  unfold bind
  cases hx : x.result with
  | error e => simp
  | ok a => simp

theorem result_map_eq_ok {f : α → β} {x : Expanded α} {b : β} :
    (x.map f).result = .ok b ↔ ∃ a, x.result = .ok a ∧ f a = b := by
  unfold map
  cases hx : x.result with
  | error e => simp [Except.map]
  | ok a => simp [Except.map]

theorem map_eq_bind (f : α → β) (x : Expanded α) : x.map f = x.bind fun a => pure (f a) := by
  unfold map bind
  cases x.result with
  | error e => rfl
  | ok a => simp [Except.map, pure]

theorem units_map (f : α → β) (x : Expanded α) : (x.map f).units = x.units := rfl

theorem units_bind_of_ok {x : Expanded α} {a : α} (hx : x.result = .ok a) (f : α → Expanded β) :
    (x.bind f).units = x.units ++ (f a).units := by
  rw [bind, hx]

theorem result_pure_eq_ok {a b : α} : (pure a).result = .ok b ↔ a = b := by
  simp [pure]

theorem result_fail_ne_ok {e : ExpandError} {a : α} : (fail e : Expanded α).result ≠ .ok a := by
  simp [fail]

end Expanded

theorem TokenStream.result_expandable_eq_ok {source : Text} {s : TokenStream} :
    (expandable source).result = .ok s ↔
      ∃ tokens, lex source = .ok tokens ∧ ofTokens tokens = s := by
  unfold expandable ofSource
  cases hlex : lex source with
  | error e => simp [Except.map, Expanded.fail]
  | ok tokens => simp [Except.map, Expanded.pure]

/-! ## The standard expanders -/

/-- One of the expanders that every engine starts with. -/
def Expander.IsStandard (x : Expander) : Prop :=
  x ∈ standard.map Prod.snd

/-- A standard expander asks for one expansion, and that nothing of it be kept. -/
theorem Expander.IsStandard.eq_reexpand {x : Expander} (hx : x.IsStandard) (s : TokenStream) :
    ∃ source, x s = .reexpand source := by
  simp only [IsStandard, standard, List.map_cons, List.map_nil, List.mem_cons, List.not_mem_nil,
    or_false] at hx
  rcases hx with rfl | rfl | rfl | rfl | rfl | rfl
  · exact ⟨_, rfl⟩
  · exact ⟨_, rfl⟩
  · exact ⟨_, rfl⟩
  · exact ⟨_, rfl⟩
  · exact ⟨_, rfl⟩
  · unfold returnType
    cases s.remaining with
    | nil => exact ⟨_, rfl⟩
    | cons t ts => exact ⟨_, rfl⟩

/-- Every name of an expander means a standard one. -/
def Engine.Standard (e : Engine) : Prop :=
  ∀ name x, e.expander? name = some x → x.IsStandard

theorem Engine.standard_of_expanders_eq {e : Engine} (h : e.expanders = Expander.standard) :
    e.Standard := by
  intro name x hx
  rw [expander?, h, List.lookup_eq_some_iff] at hx
  obtain ⟨before, after, hsplit, -⟩ := hx
  refine List.mem_map.2 ⟨(name, x), ?_, rfl⟩
  rw [hsplit]
  exact List.mem_append_right _ List.mem_cons_self

/-! ## Which macro is taken -/

namespace Macro

/-- The macro matches at the cursor and moves it, with this capture. -/
def Applies (m : Macro) (s : TokenStream) (c : Capture) : Prop :=
  ∃ t, m.pattern.parse s = .matched c t ∧ s.cursor < t.cursor

/-- The macro fails at the cursor or matches without moving it. -/
def Declines (m : Macro) (s : TokenStream) : Prop :=
  (∃ why t, m.pattern.parse s = .mismatched why t) ∨
    ∃ c t, m.pattern.parse s = .matched c t ∧ t.cursor = s.cursor

theorem Applies.not_declines {m : Macro} {s : TokenStream} {c : Capture} (h : m.Applies s c) :
    ¬ m.Declines s := by
  obtain ⟨t, hmatch, hlt⟩ := h
  rintro (⟨why, u, hmiss⟩ | ⟨d, u, hzero, heq⟩)
  · rw [hmatch] at hmiss
    cases hmiss
  · rw [hmatch] at hzero
    cases hzero
    exact Nat.ne_of_gt hlt heq

/-- The macro is the first of the list that applies at the cursor; every earlier one declines. -/
def IsFirst (m : Macro) (ms : List Macro) (s : TokenStream) (c : Capture) : Prop :=
  ∃ before after, ms = before ++ m :: after ∧ (∀ b ∈ before, b.Declines s) ∧ m.Applies s c

theorem IsFirst.mem {m : Macro} {ms : List Macro} {s : TokenStream} {c : Capture}
    (h : m.IsFirst ms s c) : m ∈ ms := by
  obtain ⟨before, after, rfl, -, -⟩ := h
  exact List.mem_append_right _ List.mem_cons_self

theorem IsFirst.applies {m : Macro} {ms : List Macro} {s : TokenStream} {c : Capture}
    (h : m.IsFirst ms s c) : m.Applies s c := by
  obtain ⟨before, after, -, -, happlies⟩ := h
  exact happlies

end Macro

namespace Engine

/-- A pattern on a settled stream declines, applies or goes on forever. -/
theorem firstMatch_cons (m : Macro) (ms : List Macro) {s : TokenStream} (hs : s.Settled) :
    (m.Declines s ∧ firstMatch (m :: ms) s = firstMatch ms s) ∨
    (∃ c t, m.pattern.parse s = .matched c t ∧ s.cursor < t.cursor ∧
      firstMatch (m :: ms) s = .macroAt m c t) ∨
    (m.pattern.parse s = .endless ∧ firstMatch (m :: ms) s = .endless) := by
  cases hparse : m.pattern.parse s with
  | matched c t =>
    have hst : s.Reaches t := Rule.reaches_of_matched hs hparse
    by_cases heq : t.cursor = s.cursor
    · refine .inl ⟨.inr ⟨c, t, hparse, heq⟩, ?_⟩
      simp only [firstMatch, hparse, hst.eq_of_cursor_eq heq, if_true]
    · refine .inr (.inl ⟨c, t, rfl, hst.cursor_lt_of_ne heq, ?_⟩)
      simp only [firstMatch, hparse, heq, if_false]
  | mismatched why t =>
    refine .inl ⟨.inl ⟨why, t, hparse⟩, ?_⟩
    simp only [firstMatch, hparse, Rule.eq_of_mismatched hs hparse, restore_checkpoint hs rfl]
  | endless =>
    refine .inr (.inr ⟨rfl, ?_⟩)
    simp only [firstMatch, hparse]

/-- No macro is found exactly where all decline. -/
theorem firstMatch_eq_nothing_iff {ms : List Macro} {s : TokenStream} (hs : s.Settled) :
    firstMatch ms s = .nothing ↔ ∀ m ∈ ms, m.Declines s := by
  induction ms with
  | nil => simp [firstMatch]
  | cons m ms ih =>
    rcases firstMatch_cons m ms hs with
      ⟨hdeclines, h⟩ | ⟨c, t, hmatch, hlt, h⟩ | ⟨hendless, h⟩
    · rw [h, ih, List.forall_mem_cons]
      exact ⟨fun hrest => ⟨hdeclines, hrest⟩, fun hall => hall.2⟩
    · rw [h]
      refine ⟨nofun, fun hall => ?_⟩
      exact absurd (hall m List.mem_cons_self) (Macro.Applies.not_declines ⟨t, hmatch, hlt⟩)
    · rw [h]
      refine ⟨nofun, fun hall => ?_⟩
      rcases hall m List.mem_cons_self with ⟨why, t, hmiss⟩ | ⟨c, t, hzero, -⟩
      · rw [hendless] at hmiss
        cases hmiss
      · rw [hendless] at hzero
        cases hzero

/-- The macro that is found is the first that applies, and its match moves the cursor. -/
theorem firstMatch_eq_macroAt {ms : List Macro} {s t : TokenStream} {m : Macro} {c : Capture}
    (hs : s.Settled) (h : firstMatch ms s = .macroAt m c t) :
    m.IsFirst ms s c ∧ m.pattern.parse s = .matched c t ∧ s.cursor < t.cursor := by
  induction ms with
  | nil => cases h
  | cons first ms ih =>
    rcases firstMatch_cons first ms hs with
      ⟨hdeclines, heq⟩ | ⟨d, u, hmatch, hlt, heq⟩ | ⟨_, heq⟩
    · rw [heq] at h
      obtain ⟨⟨before, after, hms, hbefore, happlies⟩, hparse⟩ := ih h
      refine ⟨⟨first :: before, after, by rw [hms]; rfl, ?_, happlies⟩, hparse⟩
      exact List.forall_mem_cons.2 ⟨hdeclines, hbefore⟩
    · rw [heq] at h
      cases h
      refine ⟨⟨[], ms, rfl, fun _ hb => (by cases hb), t, hmatch, hlt⟩, hmatch, hlt⟩
    · rw [heq] at h
      cases h

/-- Where the search for a macro never ends, a pattern never ends. -/
theorem firstMatch_eq_endless {ms : List Macro} {s : TokenStream} (hs : s.Settled)
    (h : firstMatch ms s = .endless) : ∃ m ∈ ms, m.pattern.parse s = .endless := by
  induction ms with
  | nil => cases h
  | cons first ms ih =>
    rcases firstMatch_cons first ms hs with ⟨-, heq⟩ | ⟨c, t, -, -, heq⟩ | ⟨hendless, -⟩
    · rw [heq] at h
      obtain ⟨m, hm, hparse⟩ := ih h
      exact ⟨m, List.mem_cons_of_mem _ hm, hparse⟩
    · rw [heq] at h
      cases h
    · exact ⟨first, List.mem_cons_self, hendless⟩

/-! ## What a nested request sees of an engine -/

theorem applyExpanders_congr {e e' : Engine} (h : e.expanders = e'.expanders)
    (answer : Request → Expanded Text) (owner : Text) (names : List Text) (s : TokenStream) :
    e.applyExpanders answer owner names s = e'.applyExpanders answer owner names s := by
  induction names generalizing s with
  | nil => rfl
  | cons name names ih =>
    have hrec : e.applyExpanders answer owner names = e'.applyExpanders answer owner names :=
      funext ih
    unfold applyExpanders expander?
    rw [h, hrec]

theorem renderSegments_congr {e e' : Engine} (h : e.expanders = e'.expanders)
    (answer : Request → Expanded Text) (owner : Text) (c : Capture) (segments : List Segment) :
    e.renderSegments answer owner c segments = e'.renderSegments answer owner c segments := by
  induction segments with
  | nil => rfl
  | cons segment segments ih =>
    cases segment with
    | text t => simp only [renderSegments, ih]
    | capture label names => simp only [renderSegments, ih, applyExpanders_congr h]

theorem render_congr {e e' : Engine} (h : e.expanders = e'.expanders)
    (answer : Request → Expanded Text) (m : Macro) (c : Capture) :
    e.render answer m c = e'.render answer m c :=
  renderSegments_congr h answer m.name c m.template.segments

theorem expandStream_congr {e e' : Engine} (hmacros : e.macros = e'.macros)
    (hexpanders : e.expanders = e'.expanders) (answer : Request → Expanded Text) (gc : GcMode)
    (fuel : Nat) (s : TokenStream) :
    e.expandStream answer gc fuel s = e'.expandStream answer gc fuel s := by
  induction fuel generalizing s with
  | zero => rfl
  | succ fuel ih =>
    simp only [expandStream, hmacros, ih, render_congr hexpanders]

/-- A request has the same outcome in engines that differ in what they have retained alone. -/
theorem expandWithin_congr {e e' : Engine} (hmacros : e.macros = e'.macros)
    (hexpanders : e.expanders = e'.expanders) (hdepth : e.maxDepth = e'.maxDepth)
    (hretain : e.retainIntermediate = e'.retainIntermediate) (levels : Nat) (r : Request) :
    e.expandWithin levels r = e'.expandWithin levels r := by
  induction levels generalizing r with
  | zero => simp only [expandWithin, hdepth]
  | succ levels ih =>
    have hrec : e.expandWithin levels = e'.expandWithin levels := funext ih
    simp only [expandWithin, hrec, hretain, expandStream_congr hmacros hexpanders]

/-- The engine with one more expansion under way. -/
def deeper (e : Engine) : Engine :=
  { e with depth := e.depth + 1 }

/-- Inside an expansion, requests are answered by the engine one level deeper. -/
theorem answer_deeper (e : Engine) {levels : Nat} (h : e.maxDepth - e.depth = levels + 1) :
    e.deeper.answer = e.expandWithin levels := by
  funext r
  have hlevels : e.deeper.maxDepth - e.deeper.depth = levels := by
    simp only [deeper]
    omega
  rw [answer, hlevels, @expandWithin_congr e.deeper e rfl rfl rfl rfl]

/-- The units that a request adds to those kept before. -/
def added (e : Engine) (r : Request) : List Expansion :=
  (e.expand r).2.retained.drop e.retained.length

theorem added_eq (e : Engine) (r : Request) : e.added r = (e.answer r).units := by
  rw [added, expand, retain, List.drop_left]

/-- A request puts the units that it adds behind those that were retained. -/
theorem retained_expand (e : Engine) (r : Request) :
    (e.expand r).2.retained = e.retained ++ e.added r := by
  rw [added_eq]
  rfl

/-- A request whose source can be split into tokens is answered by the walk over them. -/
theorem answer_eq {e : Engine} {r : Request} {tokens : List Token} (hdepth : e.depth < e.maxDepth)
    (hlex : lex r.source = .ok tokens) :
    e.answer r =
      (e.expandStream e.deeper.answer r.gc ((ofTokens tokens).left + 1) (ofTokens tokens)).bind
        fun output =>
          if r.gc = .enabled ∧ e.retainIntermediate then ⟨.ok output, [⟨r.context, output⟩]⟩
          else .pure output := by
  obtain ⟨levels, hlevels⟩ : ∃ levels, e.maxDepth - e.depth = levels + 1 :=
    ⟨e.maxDepth - e.depth - 1, by omega⟩
  have hread : expandable r.source = .pure (ofTokens tokens) := by
    rw [expandable, ofSource, hlex]
    rfl
  rw [answer, hlevels, expandWithin, hread, answer_deeper e hlevels]
  simp only [Expanded.bind, Expanded.pure, List.nil_append]

/-- A request succeeds with the output of the walk over its tokens, if a level is left for it and
its source can be split into tokens. -/
theorem expand_eq_ok_iff {e : Engine} {r : Request} {output : Text} :
    (e.expand r).1 = .ok output ↔
      e.depth < e.maxDepth ∧ ∃ tokens, lex r.source = .ok tokens ∧
        (e.expandStream e.deeper.answer r.gc ((ofTokens tokens).left + 1)
          (ofTokens tokens)).result = .ok output := by
  rw [expand, retain, answer]
  cases hlevels : e.maxDepth - e.depth with
  | zero =>
    have hnot : ¬ e.depth < e.maxDepth := by omega
    simp [expandWithin, Expanded.fail, hnot]
  | succ levels =>
    have hlt : e.depth < e.maxDepth := by omega
    have hkeep : ∀ text : Text, (if r.gc = .enabled ∧ e.retainIntermediate then
        (⟨.ok text, [⟨r.context, text⟩]⟩ : Expanded Text) else .pure text).result = .ok text := by
      intro text
      split <;> rfl
    rw [answer_deeper e hlevels, expandWithin, Expanded.result_bind_eq_ok]
    simp only [Expanded.result_bind_eq_ok, result_expandable_eq_ok, hkeep, Except.ok.injEq, hlt,
      true_and]
    constructor
    · rintro ⟨s, ⟨tokens, hlex, rfl⟩, text, hwalk, rfl⟩
      exact ⟨tokens, hlex, hwalk⟩
    · rintro ⟨tokens, hlex, hwalk⟩
      exact ⟨_, ⟨tokens, hlex, rfl⟩, output, hwalk, rfl⟩

end Engine

end SourceMacros
