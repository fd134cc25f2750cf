import SourceMacros.Proofs.Rule.Backtracking

/-!
# Derivations

A derivation says how a match came about: which alternative was taken, how often an item was
repeated, whether an optional part was there. Rules that were tried in vain leave no trace in it.
Every match on a settled stream has a derivation (`derives_of_matched`), so a fact about what
matches look like is an induction over derivations, one case per way to match.

What a match of each form stands on is said once, in the lemmas named `…_eq_matched`. Those on loops
and chains hold on any stream; only where a loop stops needs a settled one.
-/

namespace SourceMacros

open TokenStream

mutual

/-- How a match of the rule from `s` to `t` with capture `c` is put together. Which alternatives
failed before and what a balanced run holds is left open. -/
inductive Derives : (rule : Rule) → (s : TokenStream) → (c : Capture) → (t : TokenStream) → Prop
  | any {s : TokenStream} {token : Token} (h : s.current = some token) :
      Derives .any s (.leaf [token]) s.next
  | token {s : TokenStream} {token : Token} {kind : TokenKind} (h : s.current = some token)
      (hkind : token.kind = kind) : Derives (.token kind) s (.leaf [token]) s.next
  | lexeme {s : TokenStream} {token : Token} {text : Text} (h : s.current = some token)
      (htext : token.lexeme = text) : Derives (.lexeme text) s (.leaf [token]) s.next
  | chain {rules : List Rule} {s t : TokenStream} {entries : Entries}
      (h : DerivesChain rules s entries t) :
      Derives (.chain rules) s (.tree (t.spanFrom s.cursor) entries) t
  | either {rules : List Rule} {rule : Rule} {s t : TokenStream} {c : Capture}
      (hmem : rule ∈ rules) (h : Derives rule s c t) : Derives (.either rules) s c t
  | present {rule : Rule} {s t : TokenStream} {c : Capture} (h : Derives rule s c t) :
      Derives (.optional rule) s c t
  | absent {rule : Rule} {s : TokenStream} : Derives (.optional rule) s .empty s
  | many {rule : Rule} {s t : TokenStream} {items : List Capture}
      (h : DerivesMany rule s items t) :
      Derives (.many rule) s (.list (t.spanFrom s.cursor) items) t
  | separated {item separator : Rule} {s t u : TokenStream} {c : Capture} {items : List Capture}
      (hfirst : Derives item s c t) (hrest : DerivesSeparated item separator t items u) :
      Derives (.separated item separator) s (.list (u.spanFrom s.cursor) (c :: items)) u
  | block {s t : TokenStream} (h : s.Reaches t) :
      Derives .block s (.leaf (t.spanFrom s.cursor)) t
  | qualifiedName {s t : TokenStream} (h : s.Reaches t) (hlt : s.cursor < t.cursor) :
      Derives .qualifiedName s (.leaf (t.spanFrom s.cursor)) t
  | expression {s t : TokenStream} (h : s.Reaches t) (hlt : s.cursor < t.cursor) :
      Derives .expression s (.leaf (t.spanFrom s.cursor)) t
  | labelled {label : Label} {rule : Rule} {s t : TokenStream} {c : Capture}
      (h : Derives rule s c t) : Derives (.labelled label rule) s (.labelled label c) t

/-- All rules match one after the other; their entries are put together. -/
inductive DerivesChain : List Rule → TokenStream → Entries → TokenStream → Prop
  | nil {s : TokenStream} : DerivesChain [] s [] s
  | cons {rule : Rule} {rules : List Rule} {s t u : TokenStream} {c : Capture} {entries : Entries}
      (hfirst : Derives rule s c t) (hrest : DerivesChain rules t entries u) :
      DerivesChain (rule :: rules) s (c.entries ++ entries) u

/-- The rule matches again and again, and each match moves the cursor. -/
inductive DerivesMany : Rule → TokenStream → List Capture → TokenStream → Prop
  | nil {rule : Rule} {s : TokenStream} : DerivesMany rule s [] s
  | cons {rule : Rule} {s t u : TokenStream} {c : Capture} {items : List Capture}
      (hfirst : Derives rule s c t) (hlt : s.cursor < t.cursor)
      (hrest : DerivesMany rule t items u) : DerivesMany rule s (c :: items) u

/-- A separator and an item match again and again; the captures of separators are dropped. -/
inductive DerivesSeparated : Rule → Rule → TokenStream → List Capture → TokenStream → Prop
  | nil {item separator : Rule} {s : TokenStream} : DerivesSeparated item separator s [] s
  | cons {item separator : Rule} {s t u v : TokenStream} {d c : Capture} {items : List Capture}
      (hseparator : Derives separator s d t) (hitem : Derives item t c u)
      (hrest : DerivesSeparated item separator u items v) :
      DerivesSeparated item separator s (c :: items) v

end

/-! ## What stands behind a match -/

/-- What is done to the capture of a match does not change whether there is one. -/
theorem Parsed.map_eq_matched {α β : Type} {f : α → β} {x : Parsed α} {b : β} {t : TokenStream}
    (h : x.map f = .matched b t) : ∃ a, x = .matched a t ∧ f a = b := by
  cases x with
  | matched a u =>
    simp only [Parsed.map, Parsed.matched.injEq] at h
    obtain ⟨hb, rfl⟩ := h
    exact ⟨a, rfl, hb⟩
  | mismatched why u => simp [Parsed.map] at h
  | endless => simp [Parsed.map] at h

namespace Rule

section Inversion

variable {rule item separator : Rule} {rules : List Rule} {s t : TokenStream} {c : Capture}
  {fuel : Nat} {items : List Capture}

/-- A chain that matches is made up of the entries of its parts. -/
theorem chain_eq_matched (h : (chain rules).parse s = .matched c t) :
    ∃ es, parseChain rules s = .matched es t ∧ c = .tree (t.spanFrom s.cursor) es := by
  unfold parse at h
  split at h
  · next es u hparts =>
    cases h
    exact ⟨es, hparts, rfl⟩
  · cases h
  · cases h

/-- The first rule of a chain matches, and the others match from where it leads. -/
theorem parseChain_cons_eq_matched {es : Entries}
    (h : parseChain (rule :: rules) s = .matched es t) :
    ∃ c u fs, rule.parse s = .matched c u ∧ parseChain rules u = .matched fs t ∧
      es = c.entries ++ fs := by
  unfold parseChain at h
  split at h
  · next c u hfirst =>
    obtain ⟨fs, hfs, rfl⟩ := Parsed.map_eq_matched h
    exact ⟨c, u, fs, hfirst, hfs, rfl⟩
  · cases h
  · cases h

/-- An optional rule is there, or nothing was read. -/
theorem optional_eq_matched (h : (optional rule).parse s = .matched c t) :
    rule.parse s = .matched c t ∨ c = .empty ∧ (s.Settled → t = s) := by
  unfold parse at h
  split at h
  · next d u hpart => exact .inl (hpart.trans h)
  · next why u hmiss =>
    cases h
    refine .inr ⟨rfl, fun hs => ?_⟩
    rw [eq_of_mismatched hs hmiss, restore_checkpoint hs rfl]
  · cases h

/-- The items of a repetition come from some number of counted rounds. -/
theorem many_eq_matched (h : (many item).parse s = .matched c t) :
    ∃ fuel items, parseMany item.parse fuel s = .matched items t ∧
      c = .list (t.spanFrom s.cursor) items := by
  unfold parse at h
  split at h
  · next items u hitems =>
    cases h
    exact ⟨_, items, hitems, rfl⟩
  · cases h
  · cases h

/-- A further round moves, or it is the last and leaves no item. -/
theorem parseMany_succ_eq_matched (h : parseMany item.parse (fuel + 1) s = .matched items t) :
    (∃ c u others, item.parse s = .matched c u ∧ u.cursor ≠ s.cursor ∧
      parseMany item.parse fuel u = .matched others t ∧ items = c :: others) ∨
    items = [] ∧ (s.Settled → t = s) := by
  unfold parseMany at h
  split at h
  · next c u hitem =>
    split at h
    · next hstill =>
      cases h
      exact .inr ⟨rfl, fun hs => (reaches_of_matched hs hitem).eq_of_cursor_eq hstill⟩
    · next hmoves =>
      obtain ⟨others, hothers, rfl⟩ := Parsed.map_eq_matched h
      exact .inl ⟨c, u, others, hitem, hmoves, hothers, rfl⟩
  · next why u hmiss =>
    cases h
    refine .inr ⟨rfl, fun hs => ?_⟩
    rw [eq_of_mismatched hs hmiss, restore_checkpoint hs rfl]
  · cases h

/-- A list that matches has a first item, and its others come from some number of counted rounds. -/
theorem separated_eq_matched (h : (separated item separator).parse s = .matched c t) :
    ∃ first u fuel items, item.parse s = .matched first u ∧
      parseSeparated item.parse separator.parse fuel u = .matched items t ∧
      c = .list (t.spanFrom s.cursor) (first :: items) := by
  unfold parse at h
  split at h
  · cases h
  · cases h
  · next first u hfirst =>
    split at h
    · next items v hitems =>
      cases h
      exact ⟨first, u, _, items, hfirst, hitems, rfl⟩
    · cases h
    · cases h

/-- A further turn is a separator and an item, or there is none and no item is left. -/
theorem parseSeparated_succ_eq_matched
    (h : parseSeparated item.parse separator.parse (fuel + 1) s = .matched items t) :
    (∃ d u c v others, separator.parse s = .matched d u ∧ item.parse u = .matched c v ∧
      parseSeparated item.parse separator.parse fuel v = .matched others t ∧
      items = c :: others) ∨
    items = [] ∧ (s.Settled → t = s) := by
  unfold parseSeparated at h
  split at h
  · next why u hmiss =>
    cases h
    exact .inr ⟨rfl, fun hs => eq_of_mismatched hs hmiss⟩
  · cases h
  · next d u hseparator =>
    split at h
    · next c v hitem =>
      obtain ⟨others, hothers, rfl⟩ := Parsed.map_eq_matched h
      exact .inl ⟨d, u, c, v, others, hseparator, hitem, hothers, rfl⟩
    · next why v hmiss =>
      cases h
      refine .inr ⟨rfl, fun hs => ?_⟩
      -- The separator is given back, so the list ends where it stood before.
      have hsu := reaches_of_matched hs hseparator
      have hback : v.tokens = s.tokens := by
        rw [eq_of_mismatched hsu.settled hmiss, hsu.tokens_eq]
      exact restore_checkpoint hs hback
    · cases h

end Inversion

theorem parseToken_eq_matched {p : Token → Bool} {expected : Text} {s t : TokenStream}
    {c : Capture} (h : parseToken p expected s = .matched c t) :
    ∃ token, s.current = some token ∧ p token = true ∧ c = .leaf [token] ∧ t = s.next := by
  unfold parseToken at h
  split at h
  · next token hcurrent =>
    split at h
    · next hp =>
      simp only [Parsed.matched.injEq] at h
      exact ⟨token, hcurrent, hp, h.1.symm, h.2.symm⟩
    · cases h
  · cases h

/-- A block is captured as the span that it goes over. It may be empty. -/
theorem parseBlock_eq_matched {s t : TokenStream} {c : Capture} (hs : s.Settled)
    (h : parseBlock s = .matched c t) : s.Reaches t ∧ c = .leaf (t.spanFrom s.cursor) := by
  have hwithin := balancedRun_within [] hs
  unfold parseBlock at h
  generalize s.balancedRun [] = x at hwithin h
  cases hwithin with
  | matched hst =>
    simp only [Parsed.matched.injEq] at h
    obtain ⟨rfl, rfl⟩ := h
    exact ⟨hst, rfl⟩
  | mismatched hst => cases h
  | endless => cases h

theorem parseExpression_eq_matched {s t : TokenStream} {c : Capture} (hs : s.Settled)
    (h : parseExpression s = .matched c t) :
    s.Reaches t ∧ s.cursor < t.cursor ∧ c = .leaf (t.spanFrom s.cursor) := by
  have hwithin := balancedRun_within expressionEnds hs
  unfold parseExpression at h
  generalize s.balancedRun expressionEnds = x at hwithin h
  cases hwithin with
  | matched hst =>
    simp only at h
    split at h
    · cases h
    · next hne =>
      simp only [Parsed.matched.injEq] at h
      obtain ⟨rfl, rfl⟩ := h
      exact ⟨hst, hst.cursor_lt_of_ne hne, rfl⟩
  | mismatched hst => cases h
  | endless => cases h

theorem parseQualifiedName_eq_matched {s t : TokenStream} {c : Capture} (hs : s.Settled)
    (h : parseQualifiedName s = .matched c t) :
    s.Reaches t ∧ s.cursor < t.cursor ∧ c = .leaf (t.spanFrom s.cursor) := by
  have hstart := reaches_nameStart hs
  unfold parseQualifiedName at h
  simp only at h
  generalize (if s.current.any Token.isNameSeparator then s.next else s) = start at hstart h
  split at h
  · next hidentifier =>
    obtain ⟨token, hcurrent, -⟩ := (Option.any_eq_true _ _).1 hidentifier
    have hnext : start.Reaches start.next := next_reaches hstart.settled
    have hparts := skipNameParts_reaches s.left hnext.settled
    have hlt : start.cursor < start.next.cursor := cursor_lt_next hcurrent
    simp only [Parsed.matched.injEq] at h
    obtain ⟨rfl, rfl⟩ := h
    refine ⟨(hstart.trans hnext).trans hparts, ?_, rfl⟩
    exact Nat.lt_of_le_of_lt hstart.cursor_le (Nat.lt_of_lt_of_le hlt hparts.cursor_le)
  · cases h

/-- A choice has the match of one of its rules, run at the same place. -/
theorem parseEither_eq_matched {expected : Text} {rules : List Rule} {s t : TokenStream}
    {c : Capture} (hs : s.Settled) (h : parseEither expected rules s = .matched c t) :
    ∃ rule ∈ rules, rule.parse s = .matched c t := by
  induction rules with
  | nil => cases h
  | cons rule rules ih =>
    have hlater : parseEither expected rules s = .matched c t →
        ∃ r ∈ rule :: rules, r.parse s = .matched c t := by
      intro hrest
      obtain ⟨r, hr, hmatch⟩ := ih hrest
      exact ⟨r, List.mem_cons_of_mem _ hr, hmatch⟩
    unfold parseEither at h
    split at h
    · exact hlater h
    · cases hparse : rule.parse s with
      | matched d u =>
        simp only [hparse] at h
        exact ⟨rule, List.mem_cons_self, hparse.trans h⟩
      | mismatched why u =>
        simp only [hparse, eq_of_mismatched hs hparse, restore_checkpoint hs rfl] at h
        exact hlater h
      | endless =>
        simp only [hparse] at h
        cases h

end Rule

/-! ## Every match has a derivation -/

/-- A rule whose matches on settled streams all have derivations. -/
def HasDerivations (rule : Rule) : Prop :=
  ∀ {s t : TokenStream} {c : Capture}, s.Settled → rule.parse s = .matched c t → Derives rule s c t

namespace Rule

theorem parseMany_derives {rule : Rule} (hrule : HasDerivations rule) (fuel : Nat)
    {s t : TokenStream} {items : List Capture} (hs : s.Settled)
    (h : parseMany rule.parse fuel s = .matched items t) : DerivesMany rule s items t := by
  induction fuel generalizing s items with
  | zero => cases h
  | succ fuel ih =>
    rcases parseMany_succ_eq_matched h with
      ⟨c, u, others, hparse, hne, hothers, rfl⟩ | ⟨rfl, hend⟩
    · have hsu := reaches_of_matched hs hparse
      exact .cons (hrule hs hparse) (hsu.cursor_lt_of_ne hne) (ih hsu.settled hothers)
    · rw [hend hs]
      exact .nil

theorem parseSeparated_derives {item separator : Rule} (hitem : HasDerivations item)
    (hseparator : HasDerivations separator) (fuel : Nat) {s t : TokenStream}
    {items : List Capture} (hs : s.Settled)
    (h : parseSeparated item.parse separator.parse fuel s = .matched items t) :
    DerivesSeparated item separator s items t := by
  induction fuel generalizing s items with
  | zero => cases h
  | succ fuel ih =>
    rcases parseSeparated_succ_eq_matched h with
      ⟨d, u, c, v, others, hsep, hparse, hothers, rfl⟩ | ⟨rfl, hend⟩
    · have hsu := reaches_of_matched hs hsep
      have huv := reaches_of_matched hsu.settled hparse
      exact .cons (hseparator hs hsep) (hitem hsu.settled hparse) (ih huv.settled hothers)
    · rw [hend hs]
      exact .nil

theorem parseChain_derives {rules : List Rule} (hrules : ∀ rule ∈ rules, HasDerivations rule)
    {s t : TokenStream} {entries : Entries} (hs : s.Settled)
    (h : parseChain rules s = .matched entries t) : DerivesChain rules s entries t := by
  induction rules generalizing s entries with
  | nil =>
    cases h
    exact .nil
  | cons rule rules ih =>
    obtain ⟨c, u, rest, hparse, hrest, rfl⟩ := parseChain_cons_eq_matched h
    have hu := (reaches_of_matched hs hparse).settled
    exact .cons (hrules rule List.mem_cons_self hs hparse)
      (ih (fun r hr => hrules r (List.mem_cons_of_mem _ hr)) hu hrest)

/-- Every match on a settled stream has a derivation. -/
theorem derives_of_matched (rule : Rule) : HasDerivations rule := by
  induction rule with
  | any =>
    intro s t c hs h
    obtain ⟨token, hcurrent, -, rfl, rfl⟩ := parseToken_eq_matched h
    exact .any hcurrent
  | token kind =>
    intro s t c hs h
    obtain ⟨token, hcurrent, hkind, rfl, rfl⟩ := parseToken_eq_matched h
    exact .token hcurrent (eq_of_beq hkind)
  | lexeme text =>
    intro s t c hs h
    obtain ⟨token, hcurrent, htext, rfl, rfl⟩ := parseToken_eq_matched h
    exact .lexeme hcurrent (eq_of_beq htext)
  | chain rules ih =>
    intro s t c hs h
    obtain ⟨entries, hparts, rfl⟩ := chain_eq_matched h
    exact .chain (parseChain_derives ih hs hparts)
  | either rules ih =>
    intro s t c hs h
    unfold parse at h
    obtain ⟨rule, hmem, hmatch⟩ := parseEither_eq_matched hs h
    exact .either hmem (ih rule hmem hs hmatch)
  | optional rule ih =>
    intro s t c hs h
    rcases optional_eq_matched h with hpart | ⟨rfl, hend⟩
    · exact .present (ih hs hpart)
    · rw [hend hs]
      exact .absent
  | many rule ih =>
    intro s t c hs h
    obtain ⟨fuel, items, hitems, rfl⟩ := many_eq_matched h
    exact .many (parseMany_derives ih fuel hs hitems)
  | separated item separator ihItem ihSeparator =>
    intro s t c hs h
    obtain ⟨first, u, fuel, items, hfirst, hitems, rfl⟩ := separated_eq_matched h
    have hu := (reaches_of_matched hs hfirst).settled
    exact .separated (ihItem hs hfirst) (parseSeparated_derives ihItem ihSeparator fuel hu hitems)
  | block =>
    intro s t c hs h
    obtain ⟨hst, rfl⟩ := parseBlock_eq_matched hs h
    exact .block hst
  | qualifiedName =>
    intro s t c hs h
    obtain ⟨hst, hlt, rfl⟩ := parseQualifiedName_eq_matched hs h
    exact .qualifiedName hst hlt
  | expression =>
    intro s t c hs h
    obtain ⟨hst, hlt, rfl⟩ := parseExpression_eq_matched hs h
    exact .expression hst hlt
  | labelled label rule ih =>
    intro s t c hs h
    unfold parse at h
    obtain ⟨d, hparse, rfl⟩ := Parsed.map_eq_matched h
    exact .labelled (ih hs hparse)

end Rule

/-! ## Derivations move ahead -/

mutual

theorem Derives.reaches {rule : Rule} {s t : TokenStream} {c : Capture} :
    Derives rule s c t → s.Settled → s.Reaches t
  | .any _, hs => next_reaches hs
  | .token _ _, hs => next_reaches hs
  | .lexeme _ _, hs => next_reaches hs
  | .chain h, hs => h.reaches hs
  | .either _ h, hs => h.reaches hs
  | .present h, hs => h.reaches hs
  | .absent, hs => .refl hs
  | .many h, hs => h.reaches hs
  | .separated hfirst hrest, hs =>
    (hfirst.reaches hs).trans (hrest.reaches (hfirst.reaches hs).settled)
  | .block h, _ => h
  | .qualifiedName h _, _ => h
  | .expression h _, _ => h
  | .labelled h, hs => h.reaches hs

theorem DerivesChain.reaches {rules : List Rule} {s t : TokenStream} {entries : Entries} :
    DerivesChain rules s entries t → s.Settled → s.Reaches t
  | .nil, hs => .refl hs
  | .cons hfirst hrest, hs =>
    (hfirst.reaches hs).trans (hrest.reaches (hfirst.reaches hs).settled)

theorem DerivesMany.reaches {rule : Rule} {s t : TokenStream} {items : List Capture} :
    DerivesMany rule s items t → s.Settled → s.Reaches t
  | .nil, hs => .refl hs
  | .cons hfirst _ hrest, hs =>
    (hfirst.reaches hs).trans (hrest.reaches (hfirst.reaches hs).settled)

theorem DerivesSeparated.reaches {item separator : Rule} {s t : TokenStream}
    {items : List Capture} : DerivesSeparated item separator s items t → s.Settled → s.Reaches t
  | .nil, hs => .refl hs
  | .cons hseparator hitem hrest, hs =>
    have hsu := hseparator.reaches hs
    have huv := hitem.reaches hsu.settled
    (hsu.trans huv).trans (hrest.reaches huv.settled)

end

end SourceMacros
