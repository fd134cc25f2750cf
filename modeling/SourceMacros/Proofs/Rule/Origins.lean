import SourceMacros.Proofs.Rule.Derivation

/-!
# Where the parts of a capture come from

`Gives rule c` says that `c` is put together the way the rule puts its captures together. It leaves
out the stream altogether, so it holds of every match, wherever the cursor stood
(`Rule.gives_of_matched`); a derivation, which says where each part lies, needs a settled stream.

Every entry of a capture was recorded by a labelled rule inside the rule, and every item was given
by a rule inside it (`Gives.entry_origin`, `Gives.item_origin`). So what holds of the captures of
every rule inside a rule holds at every depth of its captures.
-/

namespace SourceMacros

/-- The rule `r` is `rule` or stands inside it, at any depth. -/
inductive Rule.Inside (r : Rule) : Rule → Prop
  | refl : Inside r r
  | child {q rule : Rule} (h : Inside r q) (hq : q ∈ rule.children) : Inside r rule

theorem Rule.Inside.trans {p q rule : Rule} (hpq : p.Inside q) (h : q.Inside rule) :
    p.Inside rule := by
  induction h with
  | refl => exact hpq
  | child _ hq ih => exact .child ih hq

/-- Inside a rule there is the rule itself, and what is inside the rules directly inside it. -/
theorem Rule.inside_iff {r rule : Rule} :
    r.Inside rule ↔ r = rule ∨ ∃ q ∈ rule.children, r.Inside q := by
  constructor
  · rintro (_ | ⟨hr, hq⟩)
    · exact .inl rfl
    · exact .inr ⟨_, hq, hr⟩
  · rintro (rfl | ⟨q, hq, hr⟩)
    · exact .refl
    · exact .child hr hq

/-- Induction over a rule that does not tell the forms apart: what holds of a rule if it holds of
the rules directly inside it holds of all rules. -/
theorem Rule.induct_children {P : Rule → Prop}
    (step : ∀ rule : Rule, (∀ q ∈ rule.children, P q) → P rule) (rule : Rule) : P rule := by
  induction rule with
  | chain rules ih | either rules ih => exact step _ ih
  | optional rule ih | many rule ih | labelled label rule ih =>
    exact step _ (List.forall_mem_singleton.2 ih)
  | separated item separator ihItem ihSeparator =>
    exact step _ (List.forall_mem_cons.2 ⟨ihItem, List.forall_mem_singleton.2 ihSeparator⟩)
  | any | token | lexeme | block | qualifiedName | expression =>
    exact step _ (List.forall_mem_nil _)

namespace Rule

mutual

/-- The rule and all rules inside it, as a list that can be computed. -/
def rulesWithin : Rule → List Rule
  | chain rules => chain rules :: rulesWithinAll rules
  | either rules => either rules :: rulesWithinAll rules
  | optional rule => optional rule :: rule.rulesWithin
  | many rule => many rule :: rule.rulesWithin
  | separated item separator =>
    separated item separator :: (item.rulesWithin ++ separator.rulesWithin)
  | labelled label rule => labelled label rule :: rule.rulesWithin
  | rule => [rule]

/-- The rules and all rules inside them. -/
def rulesWithinAll : List Rule → List Rule
  | [] => []
  | rule :: rules => rule.rulesWithin ++ rulesWithinAll rules

end

theorem mem_rulesWithinAll {r : Rule} {rules : List Rule} :
    r ∈ rulesWithinAll rules ↔ ∃ rule ∈ rules, r ∈ rule.rulesWithin := by
  induction rules with
  | nil => simp [rulesWithinAll]
  | cons rule rules ih => simp [rulesWithinAll, ih]

/-- The list holds the rules inside the rule, and no others. -/
theorem mem_rulesWithin_iff {r : Rule} (rule : Rule) : r ∈ rule.rulesWithin ↔ r.Inside rule := by
  induction rule with
  | chain rules ih | either rules ih =>
    rw [inside_iff, rulesWithin, List.mem_cons, mem_rulesWithinAll, children]
    exact or_congr_right (exists_congr fun q => and_congr_right fun hq => ih q hq)
  | optional rule ih | many rule ih | labelled label rule ih =>
    rw [inside_iff, rulesWithin, List.mem_cons, ih]
    simp [children]
  | separated item separator ihItem ihSeparator =>
    rw [inside_iff, rulesWithin, List.mem_cons, List.mem_append, ihItem, ihSeparator]
    simp [children]
  | any | token | lexeme | block | qualifiedName | expression =>
    rw [inside_iff]
    simp [rulesWithin, children]

end Rule

/-- The capture `d` is `c` or stands inside it, as an entry or an item at any depth. -/
inductive Capture.OccursIn (d : Capture) : Capture → Prop
  | refl : OccursIn d d
  | entry {c : Capture} {e : Label × Capture} (h : OccursIn d e.2) (he : e ∈ c.entries) :
      OccursIn d c
  | item {c x : Capture} (h : OccursIn d x) (hx : x ∈ c.items) : OccursIn d c

mutual

/-- The captures that a rule can give, on whatever stream. Which tokens they cover is left open. -/
inductive Gives : (rule : Rule) → (c : Capture) → Prop
  | any {ts : List Token} : Gives .any (.leaf ts)
  | token {kind : TokenKind} {ts : List Token} : Gives (.token kind) (.leaf ts)
  | lexeme {text : Text} {ts : List Token} : Gives (.lexeme text) (.leaf ts)
  | chain {rules : List Rule} {ts : List Token} {entries : Entries}
      (h : GivesChain rules entries) : Gives (.chain rules) (.tree ts entries)
  | either {rules : List Rule} {rule : Rule} {c : Capture} (hmem : rule ∈ rules)
      (h : Gives rule c) : Gives (.either rules) c
  | present {rule : Rule} {c : Capture} (h : Gives rule c) : Gives (.optional rule) c
  | absent {rule : Rule} : Gives (.optional rule) .empty
  | many {rule : Rule} {ts : List Token} {items : List Capture}
      (h : ∀ c ∈ items, Gives rule c) : Gives (.many rule) (.list ts items)
  | separated {item separator : Rule} {ts : List Token} {items : List Capture}
      (h : ∀ c ∈ items, Gives item c) : Gives (.separated item separator) (.list ts items)
  | block {ts : List Token} : Gives .block (.leaf ts)
  | qualifiedName {ts : List Token} : Gives .qualifiedName (.leaf ts)
  | expression {ts : List Token} : Gives .expression (.leaf ts)
  | labelled {label : Label} {rule : Rule} {c : Capture} (h : Gives rule c) :
      Gives (.labelled label rule) (.labelled label c)

/-- The entries that the rules of a chain can give together. -/
inductive GivesChain : (rules : List Rule) → (entries : Entries) → Prop
  | nil : GivesChain [] []
  | cons {rule : Rule} {rules : List Rule} {c : Capture} {entries : Entries}
      (hfirst : Gives rule c) (hrest : GivesChain rules entries) :
      GivesChain (rule :: rules) (c.entries ++ entries)

end

/-! ## Every match is given by its rule -/

/-- The parser answers with captures that have the property `P`, on any stream. -/
def Answers (P : Capture → Prop) (p : TokenStream → Parsed Capture) : Prop :=
  ∀ {s t : TokenStream} {c : Capture}, p s = .matched c t → P c

namespace Rule

theorem parseBlock_eq_leaf {s t : TokenStream} {c : Capture} (h : parseBlock s = .matched c t) :
    ∃ ts, c = .leaf ts := by
  unfold parseBlock at h
  split at h
  · simp only [Parsed.matched.injEq] at h
    exact ⟨_, h.1.symm⟩
  · cases h
  · cases h

theorem parseExpression_eq_leaf {s t : TokenStream} {c : Capture}
    (h : parseExpression s = .matched c t) : ∃ ts, c = .leaf ts := by
  unfold parseExpression at h
  split at h
  · split at h
    · cases h
    · simp only [Parsed.matched.injEq] at h
      exact ⟨_, h.1.symm⟩
  · cases h
  · cases h

theorem parseQualifiedName_eq_leaf {s t : TokenStream} {c : Capture}
    (h : parseQualifiedName s = .matched c t) : ∃ ts, c = .leaf ts := by
  unfold parseQualifiedName at h
  simp only at h
  generalize (if s.current.any Token.isNameSeparator then s.next else s) = start at h
  split at h
  · simp only [Parsed.matched.injEq] at h
    exact ⟨_, h.1.symm⟩
  · cases h

theorem parseMany_answers {P : Capture → Prop} {item : Rule} (hitem : Answers P item.parse)
    (fuel : Nat) {s t : TokenStream} {items : List Capture}
    (h : parseMany item.parse fuel s = .matched items t) : ∀ c ∈ items, P c := by
  induction fuel generalizing s items with
  | zero => cases h
  | succ fuel ih =>
    rcases parseMany_succ_eq_matched h with ⟨c, u, others, hround, -, hothers, rfl⟩ | ⟨rfl, -⟩
    · exact List.forall_mem_cons.2 ⟨hitem hround, ih hothers⟩
    · exact List.forall_mem_nil _

theorem parseSeparated_answers {P : Capture → Prop} {item separator : Rule}
    (hitem : Answers P item.parse) (fuel : Nat) {s t : TokenStream} {items : List Capture}
    (h : parseSeparated item.parse separator.parse fuel s = .matched items t) :
    ∀ c ∈ items, P c := by
  induction fuel generalizing s items with
  | zero => cases h
  | succ fuel ih =>
    rcases parseSeparated_succ_eq_matched h with
      ⟨d, u, c, v, others, -, hround, hothers, rfl⟩ | ⟨rfl, -⟩
    · exact List.forall_mem_cons.2 ⟨hitem hround, ih hothers⟩
    · exact List.forall_mem_nil _

/-- The entries of a chain are put together from captures that its rules give. -/
theorem parseChain_gives {rules : List Rule}
    (hrules : ∀ rule ∈ rules, Answers (Gives rule) rule.parse) {s t : TokenStream}
    {entries : Entries} (h : parseChain rules s = .matched entries t) :
    GivesChain rules entries := by
  induction rules generalizing s entries with
  | nil =>
    cases h
    exact .nil
  | cons rule rules ih =>
    obtain ⟨c, u, rest, hfirst, hrest, rfl⟩ := parseChain_cons_eq_matched h
    have hgives := ih (fun r hr => hrules r (List.mem_cons_of_mem _ hr)) hrest
    exact .cons (hrules rule List.mem_cons_self hfirst) hgives

/-- The capture of a choice is one that an alternative gives. -/
theorem parseEither_gives {expected : Text} {rules : List Rule}
    (hrules : ∀ rule ∈ rules, Answers (Gives rule) rule.parse) {s t : TokenStream} {c : Capture}
    (h : parseEither expected rules s = .matched c t) : ∃ rule ∈ rules, Gives rule c := by
  induction rules generalizing s with
  | nil => cases h
  | cons rule rules ih =>
    have hlater : ∀ {u : TokenStream}, parseEither expected rules u = .matched c t →
        ∃ r ∈ rule :: rules, Gives r c := by
      intro u hu
      obtain ⟨r, hr, hgives⟩ := ih (fun r hr => hrules r (List.mem_cons_of_mem _ hr)) hu
      exact ⟨r, List.mem_cons_of_mem _ hr, hgives⟩
    unfold parseEither at h
    split at h
    · exact hlater h
    · split at h
      · next d u hfirst =>
        exact ⟨rule, List.mem_cons_self, hrules rule List.mem_cons_self (hfirst.trans h)⟩
      · exact hlater h
      · cases h

/-- A match has a capture that its rule gives, whatever the stream. The induction is over the rule;
nothing is said about cursors. -/
theorem gives_of_matched (rule : Rule) : Answers (Gives rule) rule.parse := by
  induction rule with
  | any =>
    intro s t c h
    obtain ⟨token, -, -, rfl, -⟩ := parseToken_eq_matched h
    exact .any
  | token kind =>
    intro s t c h
    obtain ⟨token, -, -, rfl, -⟩ := parseToken_eq_matched h
    exact .token
  | lexeme text =>
    intro s t c h
    obtain ⟨token, -, -, rfl, -⟩ := parseToken_eq_matched h
    exact .lexeme
  | chain rules ih =>
    intro s t c h
    obtain ⟨entries, hparts, rfl⟩ := chain_eq_matched h
    exact .chain (parseChain_gives ih hparts)
  | either rules ih =>
    intro s t c h
    unfold parse at h
    obtain ⟨rule, hmem, hgives⟩ := parseEither_gives ih h
    exact .either hmem hgives
  | optional rule ih =>
    intro s t c h
    rcases optional_eq_matched h with hpart | ⟨rfl, -⟩
    · exact .present (ih hpart)
    · exact .absent
  | many rule ih =>
    intro s t c h
    obtain ⟨fuel, items, hrounds, rfl⟩ := many_eq_matched h
    exact .many (parseMany_answers ih fuel hrounds)
  | separated item separator ih _ =>
    intro s t c h
    obtain ⟨first, u, fuel, items, hfirst, hrounds, rfl⟩ := separated_eq_matched h
    have hitems := parseSeparated_answers ih fuel hrounds
    exact .separated (List.forall_mem_cons.2 ⟨ih hfirst, hitems⟩)
  | block =>
    intro s t c h
    obtain ⟨ts, rfl⟩ := parseBlock_eq_leaf h
    exact .block
  | qualifiedName =>
    intro s t c h
    obtain ⟨ts, rfl⟩ := parseQualifiedName_eq_leaf h
    exact .qualifiedName
  | expression =>
    intro s t c h
    obtain ⟨ts, rfl⟩ := parseExpression_eq_leaf h
    exact .expression
  | labelled label rule ih =>
    intro s t c h
    unfold parse at h
    obtain ⟨d, hpart, rfl⟩ := Parsed.map_eq_matched h
    exact .labelled (ih hpart)

end Rule

/-! ## Entries and items come from rules inside the rule -/

mutual

/-- An entry was recorded by a labelled rule inside the rule, and its capture is one of that rule.
-/
theorem Gives.entry_origin {rule : Rule} {c : Capture} :
    Gives rule c → ∀ e ∈ c.entries, ∃ r, (Rule.labelled e.1 r).Inside rule ∧ Gives r e.2
  | .chain h, e, he => by
    obtain ⟨q, hq, r, hr, hgives⟩ := h.entry_origin e he
    exact ⟨r, .child hr hq, hgives⟩
  | .either hmem h, e, he => by
    obtain ⟨r, hr, hgives⟩ := h.entry_origin e he
    exact ⟨r, .child hr hmem, hgives⟩
  | .present h, e, he => by
    obtain ⟨r, hr, hgives⟩ := h.entry_origin e he
    exact ⟨r, .child hr (List.mem_singleton.2 rfl), hgives⟩
  | .labelled h, e, he => by
    rw [List.mem_singleton.1 he]
    exact ⟨_, .refl, h⟩

theorem GivesChain.entry_origin {rules : List Rule} {entries : Entries} :
    GivesChain rules entries → ∀ e ∈ entries,
      ∃ q ∈ rules, ∃ r, (Rule.labelled e.1 r).Inside q ∧ Gives r e.2
  | .cons hfirst hrest, e, he => by
    rcases List.mem_append.1 he with hmem | hmem
    · obtain ⟨r, hr, hgives⟩ := hfirst.entry_origin e hmem
      exact ⟨_, List.mem_cons_self, r, hr, hgives⟩
    · obtain ⟨q, hq, r, hr, hgives⟩ := hrest.entry_origin e hmem
      exact ⟨q, List.mem_cons_of_mem _ hq, r, hr, hgives⟩

end

/-- Every item of a capture was given by a rule inside the rule. -/
theorem Gives.item_origin {rule : Rule} {c : Capture} :
    Gives rule c → ∀ x ∈ c.items, ∃ r, r.Inside rule ∧ Gives r x
  | .either hmem h, x, hx => by
    obtain ⟨r, hr, hgives⟩ := h.item_origin x hx
    exact ⟨r, .child hr hmem, hgives⟩
  | .present h, x, hx => by
    obtain ⟨r, hr, hgives⟩ := h.item_origin x hx
    exact ⟨r, .child hr (List.mem_singleton.2 rfl), hgives⟩
  | .many h, x, hx => ⟨_, .child .refl (List.mem_singleton.2 rfl), h x hx⟩
  | .separated h, x, hx => ⟨_, .child .refl List.mem_cons_self, h x hx⟩

/-- Whatever stands inside a capture was given by a rule inside the rule. -/
theorem Gives.occurrence_origin {rule : Rule} {c d : Capture} (h : Gives rule c)
    (hd : d.OccursIn c) : ∃ r, r.Inside rule ∧ Gives r d := by
  induction hd generalizing rule with
  | refl => exact ⟨rule, .refl, h⟩
  | @entry _ e _ he ih =>
    obtain ⟨q, hq, hgives⟩ := h.entry_origin _ he
    obtain ⟨r, hr, hpart⟩ := ih hgives
    have hlabelled : q.Inside (.labelled e.1 q) :=
      .child .refl (List.mem_singleton.2 rfl)
    exact ⟨r, (hr.trans hlabelled).trans hq, hpart⟩
  | item _ hx ih =>
    obtain ⟨q, hq, hgives⟩ := h.item_origin _ hx
    obtain ⟨r, hr, hpart⟩ := ih hgives
    exact ⟨r, hr.trans hq, hpart⟩

end SourceMacros
