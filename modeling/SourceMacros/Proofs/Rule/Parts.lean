import SourceMacros.Proofs.Rule.Iteration

/-!
# Which rules take part in a match

Many rules run inside a match, and some of them are a part of it: they matched, and their match was
not taken back. `Enters` says how a rule comes to run a rule directly inside it as a part of its own
match, and `TakesPart` follows such steps down to any depth. Both speak of streams only, so they
leave open what becomes of the captures.

A step is understood once from above and once from below. From above, the rule inside matches within
the match of the rule around it, and its capture is put where the step says (`Enters.matched`). From
below, every entry and every item of a capture got there by a step (`enters_of_matched`).
-/

namespace SourceMacros

open TokenStream

namespace Rule

/-! ## Taking part in a match -/

/-- How a rule has a rule directly inside it as a part of its match. -/
inductive Step where
  /-- A part of a chain. -/
  | part
  /-- The alternative that is taken, or an optional rule that is there. -/
  | choice
  /-- An item of a list. -/
  | item
  /-- The last round of a repetition, if it matches without moving the cursor. -/
  | idle
  /-- A separator with an item behind it. -/
  | separator
  /-- What stands under a label. -/
  | content
  deriving DecidableEq

/-- The alternative is ruled out or fails. -/
def PassedOver (rule : Rule) (s : TokenStream) : Prop :=
  rule.quickCheck s.current = some false ∨ ∃ why t, rule.parse s = .mismatched why t

/-- Rounds of a repetition lead from `s` to `u`, and each of them moves the cursor. -/
def Rounds (item : Rule) (s u : TokenStream) : Prop :=
  ∃ items, Iterates item.parse s items u

/-- Items of a list with a separator behind each of them lead from `s` to `u`. These are the turns
that a list takes behind its first item, with the two parts changing places. -/
def Turns (item separator : Rule) (s u : TokenStream) : Prop :=
  ∃ separators, Continues separator.parse item.parse s separators u

/-- Where `rule` matches at `s`, the rule `child` directly inside it matches at `u`, as a part of
the same match. -/
inductive Enters : Step → (rule : Rule) → (s : TokenStream) → (child : Rule) →
    (u : TokenStream) → Prop
  | part {before after : List Rule} {child : Rule} {s u : TokenStream} {es : Entries}
      (hbefore : parseChain before s = .matched es u) :
      Enters .part (chain (before ++ child :: after)) s child u
  | alternative {before after : List Rule} {child : Rule} {s t : TokenStream} {c : Capture}
      (hbefore : ∀ rule ∈ before, rule.PassedOver s)
      (hpossible : child.quickCheck s.current ≠ some false) (h : child.parse s = .matched c t) :
      Enters .choice (either (before ++ child :: after)) s child s
  | present {child : Rule} {s t : TokenStream} {c : Capture} (h : child.parse s = .matched c t) :
      Enters .choice (optional child) s child s
  | round {child : Rule} {s u v : TokenStream} {c : Capture} (hrounds : Rounds child s u)
      (h : child.parse u = .matched c v) (hmoves : v.cursor ≠ u.cursor) :
      Enters .item (many child) s child u
  | idle {child : Rule} {s u v : TokenStream} {c : Capture} (hrounds : Rounds child s u)
      (h : child.parse u = .matched c v) (hstill : v.cursor = u.cursor) :
      Enters .idle (many child) s child u
  | item {item separator : Rule} {s u v : TokenStream} {c : Capture}
      (hturns : Turns item separator s u) (h : item.parse u = .matched c v) :
      Enters .item (separated item separator) s item u
  | separator {item separator : Rule} {s u v w x : TokenStream} {c d e : Capture}
      (hturns : Turns item separator s u) (hitem : item.parse u = .matched c v)
      (h : separator.parse v = .matched d w) (hnext : item.parse w = .matched e x) :
      Enters .separator (separated item separator) s separator v
  | content {label : Label} {child : Rule} {s : TokenStream} :
      Enters .content (labelled label child) s child s

/-- Where `rule` matches at `s`, the rule `q` matches at `a` as a part of the same match, which
these steps lead to. -/
inductive TakesPart (q : Rule) (a : TokenStream) :
    List Step → (rule : Rule) → (s : TokenStream) → Prop
  | self : TakesPart q a [] q a
  | inside {step : Step} {path : List Step} {rule child : Rule} {s u : TokenStream}
      (hstep : Enters step rule s child u) (h : TakesPart q a path child u) :
      TakesPart q a (step :: path) rule s

/-! ## Loops -/

section Loops

variable {item separator : Rule} {s t u v w : TokenStream} {c d : Capture}

theorem Rounds.refl : Rounds item s s :=
  ⟨[], .refl⟩

theorem Turns.refl : Turns item separator s s :=
  ⟨[], .refl⟩

theorem Rounds.onward (h : Rounds item s u) (hs : s.InRange) : s.Onward u := by
  obtain ⟨items, hrounds⟩ := h
  exact hrounds.onward (parse_proceeds item) hs

theorem Turns.onward (h : Turns item separator s u) (hs : s.InRange) : s.Onward u := by
  obtain ⟨separators, hturns⟩ := h
  exact hturns.onward (parse_proceeds separator) (parse_proceeds item) hs

/-- Turns go on with an item and a separator. -/
theorem Turns.snoc (h : Turns item separator s u) (hitem : item.parse u = .matched c v)
    (hseparator : separator.parse v = .matched d w) : Turns item separator s w := by
  obtain ⟨separators, hturns⟩ := h
  exact ⟨_, hturns.trans (.step hitem hseparator .refl)⟩

/-- A repetition goes on from where its first rounds lead. -/
theorem Rounds.matched (h : Rounds item s u) (hmatch : (many item).parse s = .matched c t)
    (hs : s.InRange) :
    ∃ before after, c.items = before ++ after ∧ Iterates item.parse u after t ∧
      (FailsAt item.parse t ∨ StandsStillAt item.parse t) := by
  obtain ⟨before, hrounds⟩ := h
  obtain ⟨items, rfl, hall, hend⟩ := (many_eq_matched_iff hs).1 hmatch
  obtain ⟨after, hitems, hafter⟩ := hrounds.append_of_end hall hend
  exact ⟨before, after, hitems, hafter, hend⟩

/-- The item that turns lead to is an item of the list, and the list goes on behind it. -/
theorem Turns.matched (h : Turns item separator s u)
    (hmatch : (separated item separator).parse s = .matched c t)
    (hitem : item.parse u = .matched d v) (hs : s.InRange) :
    d ∈ c.items ∧ ∃ after, Continues item.parse separator.parse v after t := by
  obtain ⟨separators, hturns⟩ := h
  obtain ⟨first, r, before, hfirst, hbefore, hmem⟩ := hturns.exists_first hitem
  obtain ⟨first', r', items, hfirst', rfl, hall, hend⟩ := (separated_eq_matched_iff hs).1 hmatch
  cases hfirst.symm.trans hfirst'
  obtain ⟨after, rfl, hafter⟩ := hbefore.append_of_end hall hend
  exact ⟨List.mem_append_left after hmem, after, hafter⟩

end Loops

/-! ## Chains and alternatives -/

section Choice

variable {rules before : List Rule} {s t u : TokenStream} {es : Entries}

theorem parseChain_onward (hs : s.InRange) (h : parseChain rules s = .matched es t) :
    s.Onward t := by
  have hproceeds := @parseChain_proceeds rules (fun rule _ => parse_proceeds rule) s hs
  rw [h] at hproceeds
  cases hproceeds with
  | matched hst _ => exact hst

/-- A chain runs its first rules, and the others from where these lead. -/
theorem parseChain_append (before rest : List Rule) (s : TokenStream) :
    parseChain (before ++ rest) s =
      match parseChain before s with
      | .matched es t => (parseChain rest t).map (es ++ ·)
      | .mismatched why t => .mismatched why t
      | .endless => .endless := by
  induction before generalizing s with
  | nil =>
    simp only [List.nil_append, parseChain]
    cases parseChain rest s <;> rfl
  | cons rule before ih =>
    simp only [List.cons_append, parseChain]
    cases rule.parse s with
    | matched c t =>
      simp only [ih]
      cases parseChain before t with
      | matched es u =>
        simp only [Parsed.map]
        cases parseChain rest u <;> simp only [List.append_assoc]
      | mismatched why u => rfl
      | endless => rfl
    | mismatched why t => rfl
    | endless => rfl

/-- A chain goes on from where its first parts lead. -/
theorem parseChain_append_eq_matched {rest : List Rule} {fs : Entries}
    (hbefore : parseChain before s = .matched fs u)
    (h : parseChain (before ++ rest) s = .matched es t) :
    ∃ gs, parseChain rest u = .matched gs t ∧ es = fs ++ gs := by
  rw [parseChain_append, hbefore] at h
  obtain ⟨gs, hgs, rfl⟩ := Parsed.map_eq_matched h
  exact ⟨gs, hgs, rfl⟩

/-- Every entry of a chain comes from one of its parts, which ran behind those before it. -/
theorem exists_part {e : Label × Capture} (h : parseChain rules s = .matched es t) (he : e ∈ es) :
    ∃ before rule after fs u d v, rules = before ++ rule :: after ∧
      parseChain before s = .matched fs u ∧ rule.parse u = .matched d v ∧ e ∈ d.entries := by
  induction rules generalizing s es with
  | nil =>
    cases h
    cases he
  | cons first rules ih =>
    obtain ⟨c, v, gs, hfirst, hgs, rfl⟩ := parseChain_cons_eq_matched h
    rcases List.mem_append.1 he with hhere | hlater
    · exact ⟨[], first, rules, [], s, c, v, rfl, rfl, hfirst, hhere⟩
    · obtain ⟨before, rule, after, fs, u, d, w, rfl, hbefore, hrule, hd⟩ := ih hgs hlater
      refine ⟨first :: before, rule, after, c.entries ++ fs, u, d, w, rfl, ?_, hrule, hd⟩
      rw [parseChain, hfirst]
      simp only [hbefore, Parsed.map]

theorem parseEither_cons_of_passedOver {rule : Rule} (hs : s.InRange) (h : rule.PassedOver s)
    (expected : Text) (rules : List Rule) :
    parseEither expected (rule :: rules) s = parseEither expected rules s := by
  rw [parseEither]
  split
  · rfl
  · next hpossible =>
    obtain ⟨why, t, hmiss⟩ := h.resolve_left hpossible
    simp only [hmiss, restore_of_mismatched hs hmiss]

/-- A choice that passes over its first alternatives takes the one behind them if it matches. -/
theorem parseEither_append_of_passedOver {rule : Rule} {c : Capture} (hs : s.InRange)
    (hbefore : ∀ r ∈ before, r.PassedOver s) (hpossible : rule.quickCheck s.current ≠ some false)
    (h : rule.parse s = .matched c t) (expected : Text) (after : List Rule) :
    parseEither expected (before ++ rule :: after) s = .matched c t := by
  induction before with
  | nil => simp only [List.nil_append, parseEither, hpossible, if_false, h]
  | cons first before ih =>
    obtain ⟨hfirst, hothers⟩ := List.forall_mem_cons.1 hbefore
    rw [List.cons_append, parseEither_cons_of_passedOver hs hfirst]
    exact ih hothers

/-- A choice that matches has taken one of its alternatives and passed over all before it. -/
theorem exists_alternative {expected : Text} {c : Capture} (hs : s.InRange)
    (h : parseEither expected rules s = .matched c t) :
    ∃ before rule after, rules = before ++ rule :: after ∧ (∀ r ∈ before, r.PassedOver s) ∧
      rule.quickCheck s.current ≠ some false ∧ rule.parse s = .matched c t := by
  induction rules with
  | nil => cases h
  | cons first rules ih =>
    by_cases hfirst : first.PassedOver s
    · rw [parseEither_cons_of_passedOver hs hfirst] at h
      obtain ⟨before, rule, after, rfl, hbefore, hrule⟩ := ih h
      exact ⟨first :: before, rule, after, rfl, List.forall_mem_cons.2 ⟨hfirst, hbefore⟩, hrule⟩
    · obtain ⟨hpossible, hmiss⟩ := not_or.1 hfirst
      rw [parseEither, if_neg hpossible] at h
      split at h
      · next hmatch =>
        exact ⟨[], first, rules, rfl, List.forall_mem_nil _, hpossible, hmatch.trans h⟩
      · next why u hmismatch => exact absurd ⟨why, u, hmismatch⟩ hmiss
      · cases h

end Choice

/-! ## One step -/

/-- What a step does with the capture `d` of the rule inside, which matched from `u` to `v`, in the
capture `c` of the rule around it. -/
def Step.Records : Step → (c d : Capture) → (u v : TokenStream) → Prop
  | part, c, d, _, _ => d.entries ⊆ c.entries
  | choice, c, d, _, _ => d = c
  | item, c, d, _, _ => d ∈ c.items
  | idle, _, _, u, v => v.cursor = u.cursor
  | separator, _, _, _, _ => True
  | content, c, d, _, _ => ∃ label, c.entries = [(label, d)]

variable {step : Step} {path : List Step} {rule child q : Rule} {s t u a b : TokenStream}
  {c d : Capture}

/-- A rule is entered at the place of the rule around it or further on. -/
theorem Enters.onward (h : Enters step rule s child u) (hs : s.InRange) : s.Onward u := by
  cases h with
  | part hbefore => exact parseChain_onward hs hbefore
  | alternative | present | content => exact .refl hs
  | round hrounds | idle hrounds => exact hrounds.onward hs
  | item hturns => exact hturns.onward hs
  | separator hturns hitem =>
    have hsu := hturns.onward hs
    exact hsu.trans (onward_of_matched hsu.inRange hitem)

theorem Enters.mem_children (h : Enters step rule s child u) : child ∈ rule.children := by
  cases h with
  | part | alternative => exact List.mem_append_right _ List.mem_cons_self
  | separator => exact List.mem_cons_of_mem _ List.mem_cons_self
  | present | round | idle | item | content => exact List.mem_cons_self

/-- Where the rule matches, so does the rule that it enters, in between; and what the step does with
the capture of that rule is done. -/
theorem Enters.matched (h : Enters step rule s child u) (hs : s.InRange)
    (hmatch : rule.parse s = .matched c t) :
    ∃ d v, child.parse u = .matched d v ∧ v.cursor ≤ t.cursor ∧ step.Records c d u v := by
  have hu := (h.onward hs).inRange
  cases h with
  | part hbefore =>
    obtain ⟨es, hparts, rfl⟩ := chain_eq_matched hmatch
    obtain ⟨gs, hgs, rfl⟩ := parseChain_append_eq_matched hbefore hparts
    obtain ⟨d, v, fs, hchild, hafter, rfl⟩ := parseChain_cons_eq_matched hgs
    have hvt := parseChain_onward (onward_of_matched hu hchild).inRange hafter
    refine ⟨d, v, hchild, hvt.cursor_le, fun e he => ?_⟩
    exact List.mem_append_right _ (List.mem_append_left _ he)
  | alternative hbefore hpossible hchild =>
    rw [parse, parseEither_append_of_passedOver hs hbefore hpossible hchild] at hmatch
    cases hmatch
    exact ⟨c, t, hchild, Nat.le_refl _, rfl⟩
  | present hchild =>
    rw [parse, hchild] at hmatch
    cases hmatch
    exact ⟨c, t, hchild, Nat.le_refl _, rfl⟩
  | @round _ _ _ v d hrounds hchild hmoves =>
    obtain ⟨before, after, hitems, hafter, hend⟩ := hrounds.matched hmatch hs
    -- The round itself is the next of those that are made behind `u`.
    have hround : Iterates _ u [d] v := .step hchild hmoves .refl
    obtain ⟨others, rfl, hothers⟩ := hround.append_of_end hafter hend
    have hvt := hothers.onward (parse_proceeds child) (onward_of_matched hu hchild).inRange
    refine ⟨d, v, hchild, hvt.cursor_le, ?_⟩
    rw [Step.Records, hitems]
    exact List.mem_append_right before List.mem_cons_self
  | @idle _ _ _ v d hrounds hchild hstill =>
    obtain ⟨before, after, -, hafter, -⟩ := hrounds.matched hmatch hs
    have hut := hafter.onward (parse_proceeds child) hu
    exact ⟨d, v, hchild, hstill.trans_le hut.cursor_le, hstill⟩
  | @item _ separator _ _ v d hturns hchild =>
    obtain ⟨hmem, after, hafter⟩ := hturns.matched hmatch hchild hs
    have hv := (onward_of_matched hu hchild).inRange
    have hvt := hafter.onward (parse_proceeds child) (parse_proceeds separator) hv
    exact ⟨d, v, hchild, hvt.cursor_le, hmem⟩
  | @separator item _ _ u v w x d e d' hturns hitem hchild hnext =>
    -- The item behind the separator is an item of the list as well, and lies before its end.
    obtain ⟨-, after, hafter⟩ := (hturns.snoc hitem hchild).matched hmatch hnext hs
    have hvw := onward_of_matched hu hchild
    have hwx := onward_of_matched hvw.inRange hnext
    have hxt := hafter.onward (parse_proceeds item) (parse_proceeds child) hwx.inRange
    exact ⟨_, w, hchild, Nat.le_trans hwx.cursor_le hxt.cursor_le, trivial⟩
  | content =>
    rw [parse] at hmatch
    obtain ⟨d, hchild, rfl⟩ := Parsed.map_eq_matched hmatch
    exact ⟨d, t, hchild, Nat.le_refl _, _, rfl⟩

/-- Where the parts of a capture come from. An entry was put in by the label of the rule, or taken
over from a part or an alternative. An item is one of a list, or of the list that an alternative
gave. -/
theorem enters_of_matched (hs : s.InRange) (hmatch : rule.parse s = .matched c t) :
    (∀ e ∈ c.entries, (∃ child, rule = labelled e.1 child ∧ child.parse s = .matched e.2 t) ∨
      ∃ step child u d v, (step = .part ∨ step = .choice) ∧ Enters step rule s child u ∧
        child.parse u = .matched d v ∧ e ∈ d.entries) ∧
    ∀ x ∈ c.items, (∃ child u v, Enters .item rule s child u ∧ child.parse u = .matched x v) ∨
      ∃ child, Enters .choice rule s child s ∧ child.parse s = .matched c t := by
  cases rule with
  | any | token | lexeme =>
    obtain ⟨_, -, -, rfl, -⟩ := parseToken_eq_matched hmatch
    exact ⟨List.forall_mem_nil _, List.forall_mem_nil _⟩
  | block =>
    obtain ⟨_, rfl⟩ := parseBlock_eq_leaf hmatch
    exact ⟨List.forall_mem_nil _, List.forall_mem_nil _⟩
  | qualifiedName =>
    obtain ⟨_, rfl⟩ := parseQualifiedName_eq_leaf hmatch
    exact ⟨List.forall_mem_nil _, List.forall_mem_nil _⟩
  | expression =>
    obtain ⟨_, rfl⟩ := parseExpression_eq_leaf hmatch
    exact ⟨List.forall_mem_nil _, List.forall_mem_nil _⟩
  | chain rules =>
    obtain ⟨es, hparts, rfl⟩ := chain_eq_matched hmatch
    refine ⟨fun e he => ?_, List.forall_mem_nil _⟩
    obtain ⟨before, child, after, fs, u, d, v, rfl, hbefore, hchild, hd⟩ := exists_part hparts he
    exact .inr ⟨.part, child, u, d, v, .inl rfl, .part hbefore, hchild, hd⟩
  | either rules =>
    rw [parse] at hmatch
    obtain ⟨before, child, after, rfl, hbefore, hpossible, hchild⟩ := exists_alternative hs hmatch
    have hstep : Enters .choice (either (before ++ child :: after)) s child s :=
      .alternative hbefore hpossible hchild
    exact ⟨fun e he => .inr ⟨.choice, child, s, c, t, .inr rfl, hstep, hchild, he⟩,
      fun x _ => .inr ⟨child, hstep, hchild⟩⟩
  | optional child =>
    rcases optional_eq_matched hmatch with hchild | ⟨rfl, -⟩
    · exact ⟨fun e he => .inr ⟨.choice, child, s, c, t, .inr rfl, .present hchild, hchild, he⟩,
        fun x _ => .inr ⟨child, .present hchild, hchild⟩⟩
    · exact ⟨List.forall_mem_nil _, List.forall_mem_nil _⟩
  | many child =>
    obtain ⟨items, rfl, hitems, -⟩ := (many_eq_matched_iff hs).1 hmatch
    refine ⟨List.forall_mem_nil _, fun x hx => ?_⟩
    obtain ⟨before, u, v, hbefore, hchild, hmoves⟩ := hitems.exists_of_mem hx
    exact .inl ⟨child, u, v, .round ⟨before, hbefore⟩ hchild hmoves, hchild⟩
  | separated item separator =>
    obtain ⟨first, r, items, hfirst, rfl, hitems, -⟩ := (separated_eq_matched_iff hs).1 hmatch
    refine ⟨List.forall_mem_nil _, fun x hx => ?_⟩
    obtain ⟨separators, u, v, hturns, hitem⟩ := hitems.exists_of_mem hfirst hx
    exact .inl ⟨item, u, v, .item ⟨separators, hturns⟩ hitem, hitem⟩
  | labelled label child =>
    rw [parse] at hmatch
    obtain ⟨d, hchild, rfl⟩ := Parsed.map_eq_matched hmatch
    refine ⟨fun e he => ?_, List.forall_mem_nil _⟩
    rw [List.mem_singleton.1 he]
    exact .inl ⟨child, rfl, hchild⟩

/-! ## All steps -/

namespace TakesPart

theorem onward (h : TakesPart q a path rule s) (hs : s.InRange) : s.Onward a := by
  induction h with
  | self => exact .refl hs
  | inside hstep _ ih =>
    have hsu := hstep.onward hs
    exact hsu.trans (ih hsu.inRange)

/-- What takes part in a match matches, and within it. -/
theorem matched (h : TakesPart q a path rule s) (hs : s.InRange)
    (hmatch : rule.parse s = .matched c t) :
    ∃ d b, q.parse a = .matched d b ∧ b.cursor ≤ t.cursor := by
  induction h generalizing c t with
  | self => exact ⟨c, t, hmatch, Nat.le_refl _⟩
  | inside hstep _ ih =>
    obtain ⟨e, v, hchild, hvt, -⟩ := hstep.matched hs hmatch
    obtain ⟨d, b, hq, hbv⟩ := ih (hstep.onward hs).inRange hchild
    exact ⟨d, b, hq, Nat.le_trans hbv hvt⟩

/-- In a round that stands still, nothing can match a token. -/
theorem idle_not_mem (h : TakesPart q a path rule s) (hs : s.InRange)
    (hmatch : rule.parse s = .matched c t) (hq : q.parse a = .matched d b)
    (hmoves : a.cursor < b.cursor) : .idle ∉ path := by
  induction h generalizing c t with
  | self => exact List.not_mem_nil
  | @inside step path rule child s u hstep hrest ih =>
    have hu := (hstep.onward hs).inRange
    obtain ⟨e, v, hchild, -, hrecords⟩ := hstep.matched hs hmatch
    rw [List.mem_cons, not_or]
    refine ⟨?_, ih hu hchild⟩
    rintro rfl
    have hstill : v.cursor = u.cursor := hrecords
    obtain ⟨d', b', hq', hbv⟩ := hrest.matched hu hchild
    cases hq'.symm.trans hq
    have hua := (hrest.onward hu).cursor_le
    omega

end TakesPart

end Rule

end SourceMacros
