import SourceMacros.Proofs.Rule.Origins

/-!
# When a rule never ends

Rounds are counted, and a parser that uses up its rounds is said never to end. This is no matter of
how many rounds there are. A scan that moves in every round ends before its rounds do, and a
repetition stops where its item stands still. Only a separated list can go round in place: where its
separator and its item match one after the other without moving, the next round finds what this one
found. A rule with no such list inside it ends on every settled stream (`Rule.parse_ends`).
-/

namespace SourceMacros

open TokenStream

/-- A separated list inside the rule stands still at some place: its separator and its item match
there without moving. -/
def Rule.Stalls (rule : Rule) : Prop :=
  ∃ item separator, (separated item separator).Inside rule ∧
    ∃ s d t c u, s.Settled ∧ separator.parse s = .matched d t ∧ item.parse t = .matched c u ∧
      u.cursor = s.cursor

theorem Rule.Stalls.of_child {child rule : Rule} (h : child.Stalls)
    (hchild : child ∈ rule.children) : rule.Stalls := by
  obtain ⟨item, separator, hinside, hplace⟩ := h
  exact ⟨item, separator, .child hinside hchild, hplace⟩

/-- The parser comes to an end on settled streams. -/
def EndingParser {α : Type} (p : TokenStream → Parsed α) : Prop :=
  ∀ {s : TokenStream}, s.Settled → p s ≠ .endless

theorem Parsed.map_ne_endless {α β : Type} {x : Parsed α} (f : α → β) (h : x ≠ .endless) :
    x.map f ≠ .endless := by
  cases x with
  | matched a s => rintro ⟨⟩
  | mismatched why s => rintro ⟨⟩
  | endless => exact absurd rfl h

namespace Rule

/-! ## Tokens and scans -/

theorem parseToken_ends (p : Token → Bool) (expected : Text) :
    EndingParser (parseToken p expected) := by
  intro s _
  unfold parseToken
  cases s.current with
  | none => rintro ⟨⟩
  | some token =>
    simp only
    split <;> rintro ⟨⟩

/-- The scan for balanced brackets ends, since each step of it uses up a token. -/
theorem skipBalanced_ends (terminators : List Text) {fuel : Nat} (waiting : List Text)
    {s : TokenStream} (hs : s.Settled) (hfuel : s.left < fuel) :
    skipBalanced terminators fuel waiting s ≠ .endless := by
  induction fuel generalizing waiting s with
  | zero => exact absurd hfuel (Nat.not_lt_zero _)
  | succ fuel ih =>
    unfold skipBalanced
    cases hcurrent : s.current with
    | none => cases waiting <;> rintro ⟨⟩
    | some token =>
      have hnext := next_reaches hs
      have hleft := hnext.left_lt (cursor_lt_next hcurrent)
      have hstep : ∀ waiting, skipBalanced terminators fuel waiting s.next ≠ .endless :=
        fun waiting => ih waiting hnext.settled (by omega)
      simp only
      split
      · rintro ⟨⟩
      · split
        · exact hstep _
        · rintro ⟨⟩
        · split
          · exact hstep _
          · rintro ⟨⟩
        · exact hstep _

theorem balancedRun_ends (terminators : List Text) : EndingParser (balancedRun terminators) :=
  fun hs => skipBalanced_ends terminators [] hs (Nat.lt_succ_self _)

theorem parseBlock_ends : EndingParser parseBlock := by
  intro s hs
  have h := balancedRun_ends [] hs
  unfold parseBlock
  cases hrun : s.balancedRun [] with
  | matched a t => rintro ⟨⟩
  | mismatched why t => rintro ⟨⟩
  | endless => exact absurd hrun h

theorem parseExpression_ends : EndingParser parseExpression := by
  intro s hs
  have h := balancedRun_ends expressionEnds hs
  unfold parseExpression
  cases hrun : s.balancedRun expressionEnds with
  | matched a t =>
    simp only
    split <;> rintro ⟨⟩
  | mismatched why t => rintro ⟨⟩
  | endless => exact absurd hrun h

theorem parseQualifiedName_ends : EndingParser parseQualifiedName := by
  intro s _
  unfold parseQualifiedName
  generalize (if s.current.any Token.isNameSeparator then s.next else s) = start
  simp only
  split <;> rintro ⟨⟩

/-! ## Repetition -/

section Repetition

variable {item separator : TokenStream → Parsed Capture}

/-- A repetition of an item that ends comes to an end, since every round of it moves. -/
theorem parseMany_ends (hatomic : AtomicParser item) (hitem : EndingParser item) {fuel : Nat}
    {s : TokenStream} (hs : s.Settled) (hfuel : s.left < fuel) :
    parseMany item fuel s ≠ .endless := by
  induction fuel generalizing s with
  | zero => exact absurd hfuel (Nat.not_lt_zero _)
  | succ fuel ih =>
    have h := hatomic hs
    have hne := hitem hs
    unfold parseMany
    generalize item s = x at h hne ⊢
    cases h with
    | @matched _ t hst =>
      simp only
      split
      · rintro ⟨⟩
      · next hmoved =>
        have hleft := hst.left_lt (hst.cursor_lt_of_ne hmoved)
        exact Parsed.map_ne_endless _ (ih hst.settled (by omega))
    | mismatched => rintro ⟨⟩
    | endless => exact absurd rfl hne

/-- A separated list ends if no round of it stands still. -/
theorem parseSeparated_ends (hitem : AtomicParser item) (hseparator : AtomicParser separator)
    (hitemEnds : EndingParser item) (hseparatorEnds : EndingParser separator)
    (hmoves : ∀ {s d t c u}, s.Settled → separator s = .matched d t → item t = .matched c u →
      u.cursor ≠ s.cursor)
    {fuel : Nat} {s : TokenStream} (hs : s.Settled) (hfuel : s.left < fuel) :
    parseSeparated item separator fuel s ≠ .endless := by
  induction fuel generalizing s with
  | zero => exact absurd hfuel (Nat.not_lt_zero _)
  | succ fuel ih =>
    have hsep := hseparator hs
    have hsepEnds := hseparatorEnds hs
    unfold parseSeparated
    cases hx : separator s with
    | matched d t =>
      rw [hx] at hsep
      cases hsep with
      | matched hst =>
        have hit := hitem hst.settled
        have hitEnds := hitemEnds hst.settled
        simp only
        cases hy : item t with
        | matched c u =>
          rw [hy] at hit
          cases hit with
          | matched htu =>
            have hsu := hst.trans htu
            have hleft := hsu.left_lt (hsu.cursor_lt_of_ne (hmoves hs hx hy))
            exact Parsed.map_ne_endless _ (ih hsu.settled (by omega))
        | mismatched why u => rintro ⟨⟩
        | endless => exact absurd hy hitEnds
    | mismatched why t => rintro ⟨⟩
    | endless => exact absurd hx hsepEnds

end Repetition

/-! ## Sequence and choice -/

theorem parseChain_ends {rules : List Rule} (hrules : ∀ rule ∈ rules, EndingParser rule.parse) :
    EndingParser (parseChain rules) := by
  intro s hs
  induction rules generalizing s with
  | nil => rintro ⟨⟩
  | cons rule rules ih =>
    have h := parse_atomic rule hs
    have hne := hrules rule List.mem_cons_self hs
    unfold parseChain
    generalize rule.parse s = x at h hne ⊢
    cases h with
    | matched hst =>
      have hrest := ih (fun r hr => hrules r (List.mem_cons_of_mem _ hr)) hst.settled
      exact Parsed.map_ne_endless _ hrest
    | mismatched => rintro ⟨⟩
    | endless => exact absurd rfl hne

theorem parseEither_ends (expected : Text) {rules : List Rule}
    (hrules : ∀ rule ∈ rules, EndingParser rule.parse) :
    EndingParser (parseEither expected rules) := by
  intro s hs
  induction rules with
  | nil => rintro ⟨⟩
  | cons rule rules ih =>
    have hrest := ih fun r hr => hrules r (List.mem_cons_of_mem _ hr)
    have h := parse_atomic rule hs
    have hne := hrules rule List.mem_cons_self hs
    unfold parseEither
    split
    · exact hrest
    · generalize rule.parse s = x at h hne ⊢
      cases h with
      | matched hst => rintro ⟨⟩
      | mismatched =>
        simp only [restore_checkpoint hs rfl]
        exact hrest
      | endless => exact absurd rfl hne

/-! ## All rules -/

/-- A rule that does not stall ends on every settled stream. -/
theorem parse_ends (rule : Rule) (h : ¬ rule.Stalls) : EndingParser rule.parse := by
  induction rule with
  | any => exact parseToken_ends _ _
  | token kind => exact parseToken_ends _ _
  | lexeme text => exact parseToken_ends _ _
  | chain rules ih =>
    intro s hs
    have hchain := parseChain_ends
      (fun rule hrule => ih rule hrule fun hstalls => h (hstalls.of_child hrule)) hs
    unfold parse
    cases hx : parseChain rules s with
    | matched entries t => rintro ⟨⟩
    | mismatched why t => rintro ⟨⟩
    | endless => exact absurd hx hchain
  | either rules ih =>
    intro s hs
    unfold parse
    exact parseEither_ends _
      (fun rule hrule => ih rule hrule fun hstalls => h (hstalls.of_child hrule)) hs
  | optional rule ih =>
    intro s hs
    have hrule := ih (fun hstalls => h (hstalls.of_child List.mem_cons_self)) hs
    unfold parse
    cases hx : rule.parse s with
    | matched c t => rintro ⟨⟩
    | mismatched why t => rintro ⟨⟩
    | endless => exact absurd hx hrule
  | many rule ih =>
    intro s hs
    have hrule : EndingParser rule.parse :=
      ih fun hstalls => h (hstalls.of_child List.mem_cons_self)
    have hmany := parseMany_ends (parse_atomic rule) hrule hs (Nat.lt_succ_self s.left)
    unfold parse
    cases hx : parseMany rule.parse (s.left + 1) s with
    | matched items t => rintro ⟨⟩
    | mismatched why t => rintro ⟨⟩
    | endless => exact absurd hx hmany
  | separated item separator ihItem ihSeparator =>
    intro s hs
    have hitem : EndingParser item.parse :=
      ihItem fun hstalls => h (hstalls.of_child List.mem_cons_self)
    have hseparator : EndingParser separator.parse := ihSeparator fun hstalls =>
      h (hstalls.of_child (List.mem_cons_of_mem _ List.mem_cons_self))
    unfold parse
    cases hx : item.parse s with
    | matched c t =>
      have hst := reaches_of_matched hs hx
      -- A round that stood still would make the rule itself stall.
      have hlist := parseSeparated_ends (parse_atomic item) (parse_atomic separator) hitem
        hseparator (fun hs hsep hit hstill =>
          h ⟨item, separator, .refl, _, _, _, _, _, hs, hsep, hit, hstill⟩)
        hst.settled (Nat.lt_succ_self t.left)
      simp only
      cases hy : parseSeparated item.parse separator.parse (t.left + 1) t with
      | matched items u => rintro ⟨⟩
      | mismatched why u => rintro ⟨⟩
      | endless => exact absurd hy hlist
    | mismatched why t => rintro ⟨⟩
    | endless => exact absurd hx (hitem hs)
  | block => exact parseBlock_ends
  | qualifiedName => exact parseQualifiedName_ends
  | expression => exact parseExpression_ends
  | labelled label rule ih =>
    intro s hs
    have hrule := ih (fun hstalls => h (hstalls.of_child List.mem_cons_self)) hs
    unfold parse
    exact Parsed.map_ne_endless _ hrule

end Rule

end SourceMacros
