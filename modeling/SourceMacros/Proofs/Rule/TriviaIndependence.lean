import SourceMacros.Proofs.Rule.Backtracking
import SourceMacros.Proofs.Token

/-!
# Trivia does not matter to rules

Two settled streams are alike when the same significant tokens remain in them, whatever white space,
comments and positions they carry. A rule run on two such streams has the same outcome up to trivia:
it matches on both, fails on both or goes on forever on both, with captures that are equal once
trivia and positions are taken away (`Capture.bare`), and with mismatches that say the same.

Rules compare cursors, which count trivia, and bound their repetitions by the number of tokens left.
Both can be said in terms of what remains: a cursor has moved if and only if less remains, and any
bound above the number of significant tokens gives the same outcome. A separated list is the one
repetition that can go round without moving; it then does so on both streams, forever.
-/

namespace SourceMacros

open TokenStream

/-! ## Captures without trivia -/

namespace Token

theorem bare_dropTrailingTrivia (ts : List Token) : bare (dropTrailingTrivia ts) = bare ts := by
  obtain ⟨trail, hsplit, htrail⟩ := exists_trailing ts
  conv => rhs; rw [hsplit, bare_append, bare_of_trivia htrail, List.append_nil]

end Token

namespace Capture

mutual

/-- The capture with nothing but significant tokens at every node, and these without positions. -/
def bare : Capture → Capture
  | leaf ts => leaf (Token.bare ts)
  | tree ts es => tree (Token.bare ts) (bareEntries es)
  | list ts cs => list (Token.bare ts) (bareItems cs)

/-- The entries with bare captures under the same labels. -/
def bareEntries : List (Label × Capture) → List (Label × Capture)
  | [] => []
  | (l, c) :: es => (l, bare c) :: bareEntries es

/-- The bare items. -/
def bareItems : List Capture → List Capture
  | [] => []
  | c :: cs => bare c :: bareItems cs

end

theorem tokens_bare (c : Capture) : c.bare.tokens = Token.bare c.tokens := by
  cases c <;> rfl

theorem entries_bare (c : Capture) : c.bare.entries = bareEntries c.entries := by
  cases c <;> rfl

theorem bareEntries_append (es fs : List (Label × Capture)) :
    bareEntries (es ++ fs) = bareEntries es ++ bareEntries fs := by
  induction es with
  | nil => rfl
  | cons e es ih =>
    obtain ⟨l, c⟩ := e
    rw [List.cons_append, bareEntries, bareEntries, ih, List.cons_append]

end Capture

/-! ## Streams that differ in trivia only -/

namespace TokenStream

/-- Two settled streams in which the same significant tokens remain. -/
structure Alike (s s' : TokenStream) : Prop where
  left : s.Settled
  right : s'.Settled
  remaining : s.remaining.map Token.unplaced = s'.remaining.map Token.unplaced

namespace Alike

variable {s s' t t' : TokenStream}

theorem length_eq (h : s.Alike s') : s.remaining.length = s'.remaining.length := by
  have hlen := congrArg List.length h.remaining
  rwa [List.length_map, List.length_map] at hlen

theorem current (h : s.Alike s') :
    s.current.map Token.unplaced = s'.current.map Token.unplaced := by
  rw [current_eq_head?_remaining h.left, current_eq_head?_remaining h.right, ← List.head?_map,
    ← List.head?_map, h.remaining]

/-- Either both streams are at the end, or their current tokens differ in position only. -/
theorem current_cases (h : s.Alike s') : (s.current = none ∧ s'.current = none) ∨
    ∃ token token', s.current = some token ∧ s'.current = some token' ∧
      token.unplaced = token'.unplaced := by
  have hcurrent := h.current
  cases hs : s.current with
  | none =>
    rw [hs, Option.map_none, eq_comm, Option.map_eq_none_iff] at hcurrent
    exact .inl ⟨rfl, hcurrent⟩
  | some token =>
    rw [hs, Option.map_some, eq_comm, Option.map_eq_some_iff] at hcurrent
    obtain ⟨token', hs', heq⟩ := hcurrent
    exact .inr ⟨token, token', rfl, hs', heq.symm⟩

theorem any_current (h : s.Alike s') {p : Token → Bool} (hp : ∀ t, p t.unplaced = p t) :
    s.current.any p = s'.current.any p := by
  rw [← Token.any_map_unplaced hp, h.current, Token.any_map_unplaced hp]

/-- Streams that are alike stay alike when both move on. -/
theorem next (h : s.Alike s') : s.next.Alike s'.next := by
  refine ⟨(next_reaches h.left).settled, (next_reaches h.right).settled, ?_⟩
  rw [remaining_next h.left, remaining_next h.right, List.map_tail, List.map_tail, h.remaining]

/-- A mismatch at the cursor says the same. -/
theorem found_eq (h : s.Alike s') (expected : Text) :
    (Mismatch.atCursor s expected).found = (Mismatch.atCursor s' expected).found := by
  rcases h.current_cases with ⟨hs, hs'⟩ | ⟨token, token', hs, hs', heq⟩
  · simp only [Mismatch.atCursor, hs, hs']
  · have hlexeme := (Token.unplaced_eq_iff.1 heq).2
    simp only [Mismatch.atCursor, hs, hs', Option.map_some, hlexeme]

/-- The cursors have both moved or both stayed. -/
theorem cursor_eq_iff (h : s.Alike s') (ht : t.Alike t') (hst : s.Reaches t)
    (hst' : s'.Reaches t') : t.cursor = s.cursor ↔ t'.cursor = s'.cursor := by
  rw [hst.cursor_eq_iff h.left, hst'.cursor_eq_iff h.right, h.length_eq, ht.length_eq]

/-- A move uses up significant tokens on both streams. -/
theorem length_remaining_lt (h : s.Alike s') (ht : t.Alike t') (hst : s.Reaches t)
    (hne : t.cursor ≠ s.cursor) :
    t.remaining.length < s.remaining.length ∧ t'.remaining.length < s'.remaining.length := by
  have hlt := hst.length_remaining_lt h.left (hst.cursor_lt_of_ne hne)
  refine ⟨hlt, ?_⟩
  rwa [ht.length_eq, h.length_eq] at hlt

/-- Between two pairs of alike places lie the same significant tokens. -/
theorem bare_consumed (h : s.Alike s') (ht : t.Alike t') (hst : s.Reaches t)
    (hst' : s'.Reaches t') : Token.bare (s.consumed t) = Token.bare (s'.consumed t') := by
  have hsplit := h.remaining
  rw [← filter_consumed_append_remaining hst, ← filter_consumed_append_remaining hst',
    List.map_append, List.map_append, ht.remaining] at hsplit
  exact List.append_cancel_right hsplit

theorem bare_spanFrom (h : s.Alike s') (ht : t.Alike t') (hst : s.Reaches t)
    (hst' : s'.Reaches t') :
    Token.bare (t.spanFrom s.cursor) = Token.bare (t'.spanFrom s'.cursor) := by
  rw [spanFrom_eq hst.tokens_eq, spanFrom_eq hst'.tokens_eq, Token.bare_dropTrailingTrivia,
    Token.bare_dropTrailingTrivia, bare_consumed h ht hst hst']

end Alike

end TokenStream

/-! ## Outcomes that differ in trivia only -/

namespace Parsed

variable {α β γ δ : Type}

/-- The outcomes of two runs, at `s` and at `s'`, that differ in trivia only: the values look the
same under `view`, and the mismatches say the same. -/
inductive Alike (view : α → γ) (s s' : TokenStream) : Parsed α → Parsed α → Prop
  | matched {a b : α} {t t' : TokenStream} (hview : view a = view b) (hst : s.Reaches t)
      (hst' : s'.Reaches t') (h : t.Alike t') : Alike view s s' (.matched a t) (.matched b t')
  | mismatched {why why' : Mismatch} {t t' : TokenStream} (hexpected : why.expected = why'.expected)
      (hfound : why.found = why'.found) (hst : s.Reaches t) (hst' : s'.Reaches t')
      (h : t.Alike t') : Alike view s s' (.mismatched why t) (.mismatched why' t')
  | endless : Alike view s s' .endless .endless

namespace Alike

variable {view : α → γ} {s s' t t' : TokenStream} {x y : Parsed α}

theorem trans (hst : s.Reaches t) (hst' : s'.Reaches t') (h : Alike view t t' x y) :
    Alike view s s' x y := by
  cases h with
  | matched hview htu htu' halike => exact .matched hview (hst.trans htu) (hst'.trans htu') halike
  | mismatched hexpected hfound htu htu' halike =>
    exact .mismatched hexpected hfound (hst.trans htu) (hst'.trans htu') halike
  | endless => exact .endless

theorem map {view' : β → δ} {f g : α → β} (hfg : ∀ a b, view a = view b → view' (f a) = view' (g b))
    (h : Alike view s s' x y) : Alike view' s s' (x.map f) (y.map g) := by
  cases h with
  | matched hview hst hst' halike => exact .matched (hfg _ _ hview) hst hst' halike
  | mismatched hexpected hfound hst hst' halike =>
    exact .mismatched hexpected hfound hst hst' halike
  | endless => exact .endless

/-- Two runs that fail where they are. -/
theorem atCursor (h : s.Alike s') (expected : Text) :
    Alike view s s' (.mismatched (.atCursor s expected) s)
      (.mismatched (.atCursor s' expected) s') :=
  .mismatched rfl (h.found_eq expected) (.refl h.left) (.refl h.right) h

/-- Two runs that stay where they are. -/
theorem stay {a b : α} (hview : view a = view b) (h : s.Alike s') :
    Alike view s s' (.matched a s) (.matched b s') :=
  .matched hview (.refl h.left) (.refl h.right) h

/-- Two runs that match nothing, wherever they looked before. -/
theorem matched_restore {a b : α} (hview : view a = view b) (h : s.Alike s') (hst : s.Reaches t)
    (hst' : s'.Reaches t') :
    Alike view s s' (.matched a (t.restore s.checkpoint))
      (.matched b (t'.restore s'.checkpoint)) := by
  rw [restore_checkpoint h.left hst.tokens_eq, restore_checkpoint h.right hst'.tokens_eq]
  exact .stay hview h

/-- Two runs that fail somewhere on the way and go back. -/
theorem mismatched_restore {why why' : Mismatch} (hexpected : why.expected = why'.expected)
    (hfound : why.found = why'.found) (h : s.Alike s') (hst : s.Reaches t) (hst' : s'.Reaches t') :
    Alike view s s' (.mismatched why (t.restore s.checkpoint))
      (.mismatched why' (t'.restore s'.checkpoint)) := by
  rw [restore_checkpoint h.left hst.tokens_eq, restore_checkpoint h.right hst'.tokens_eq]
  exact .mismatched hexpected hfound (.refl h.left) (.refl h.right) h

end Alike

end Parsed

/-- A parser whose outcomes on alike streams differ in trivia only. -/
def IgnoresTrivia {α γ : Type} (view : α → γ) (p : TokenStream → Parsed α) : Prop :=
  ∀ {s s' : TokenStream}, s.Alike s' → Parsed.Alike view s s' (p s) (p s')

namespace Rule

open Capture

/-! ## Leaves -/

/-- The verdict on the next token does not depend on where it stands. -/
theorem quickCheck_unplaced (rule : Rule) (current : Option Token) :
    rule.quickCheck (current.map Token.unplaced) = rule.quickCheck current := by
  induction rule with
  | token kind => cases current <;> rfl
  | lexeme text => cases current <;> rfl
  | qualifiedName => cases current <;> rfl
  | chain rules ih =>
    cases rules with
    | nil => rfl
    | cons rule rules =>
      simp only [quickCheck, quickCheckFirst]
      exact ih rule List.mem_cons_self
  | either rules ih =>
    simp only [quickCheck]
    induction rules with
    | nil => rfl
    | cons rule rules ihRules =>
      simp only [quickCheckAny]
      rw [ih rule List.mem_cons_self, ihRules fun r hr => ih r (List.mem_cons_of_mem _ hr)]
  | separated item separator ih _ =>
    simp only [quickCheck]
    exact ih
  | labelled label rule ih =>
    simp only [quickCheck]
    exact ih
  | _ => rfl

theorem parseToken_ignoresTrivia {p : Token → Bool} (hp : ∀ t, p t.unplaced = p t)
    (expected : Text) : IgnoresTrivia Capture.bare (parseToken p expected) := by
  intro s s' h
  unfold parseToken
  rcases h.current_cases with ⟨hs, hs'⟩ | ⟨token, token', hs, hs', heq⟩
  · simp only [hs, hs']
    exact .atCursor h expected
  · have htest : p token = p token' := by rw [← hp token, heq, hp token']
    simp only [hs, hs', htest]
    split
    · refine .matched ?_ (next_reaches h.left) (next_reaches h.right) h.next
      have hsig := h.left.significant hs
      have hsig' := h.right.significant hs'
      simp only [Capture.bare, Token.bare, List.filter_cons_of_pos hsig,
        List.filter_cons_of_pos hsig', List.filter_nil, List.map_cons, List.map_nil, heq]
    · exact .atCursor h expected

theorem delimiter_unplaced (t : Token) : t.unplaced.delimiter = t.delimiter := rfl

/-- The scan for balanced brackets sees the same tokens on both streams. The two bounds may differ:
each lies above what remains, so neither is reached. -/
theorem skipBalanced_alike (terminators : List Text) {fuel fuel' : Nat} {s s' : TokenStream}
    (h : s.Alike s') (hfuel : s.remaining.length < fuel) (hfuel' : s'.remaining.length < fuel')
    (waiting : List Text) :
    Parsed.Alike id s s' (skipBalanced terminators fuel waiting s)
      (skipBalanced terminators fuel' waiting s') := by
  induction fuel generalizing fuel' s s' waiting with
  | zero => exact absurd hfuel (Nat.not_lt_zero _)
  | succ fuel ih =>
    cases fuel' with
    | zero => exact absurd hfuel' (Nat.not_lt_zero _)
    | succ fuel' =>
      unfold skipBalanced
      rcases h.current_cases with ⟨hs, hs'⟩ | ⟨token, token', hs, hs', heq⟩
      · simp only [hs, hs']
        cases waiting with
        | nil => exact .stay rfl h
        | cons closer waiting => exact .atCursor h _
      · have hlexeme := (Token.unplaced_eq_iff.1 heq).2
        have hdelimiter : token.delimiter = token'.delimiter := by
          rw [← delimiter_unplaced token, heq, delimiter_unplaced]
        -- Both scans pass the token, so both bounds still lie above what remains.
        have hrec : ∀ waiting, Parsed.Alike id s s' (skipBalanced terminators fuel waiting s.next)
            (skipBalanced terminators fuel' waiting s'.next) := by
          intro waiting
          rw [remaining_of_current h.left hs, List.length_cons] at hfuel
          rw [remaining_of_current h.right hs', List.length_cons] at hfuel'
          exact (ih h.next (Nat.lt_of_succ_lt_succ hfuel) (Nat.lt_of_succ_lt_succ hfuel')
            waiting).trans (next_reaches h.left) (next_reaches h.right)
        simp only [hs, hs', hlexeme, hdelimiter]
        split
        · exact .stay rfl h
        · split
          · exact hrec _
          · exact .stay rfl h
          · split
            · exact hrec _
            · exact .atCursor h _
          · exact hrec _

theorem balancedRun_ignoresTrivia (terminators : List Text) :
    IgnoresTrivia id (balancedRun terminators) := by
  intro s s' h
  exact skipBalanced_alike terminators h (Nat.lt_succ_of_le (length_remaining_le_left s))
    (Nat.lt_succ_of_le (length_remaining_le_left s')) []

theorem parseBlock_ignoresTrivia : IgnoresTrivia Capture.bare parseBlock := by
  intro s s' h
  have hrun := balancedRun_ignoresTrivia [] h
  unfold parseBlock
  generalize s.balancedRun [] = x at hrun ⊢
  generalize s'.balancedRun [] = y at hrun ⊢
  cases hrun with
  | matched _ hst hst' halike =>
    exact .matched (congrArg leaf (h.bare_spanFrom halike hst hst')) hst hst' halike
  | mismatched hexpected hfound hst hst' _ =>
    exact .mismatched_restore hexpected hfound h hst hst'
  | endless => exact .endless

/-- An expression is the same whatever trivia stands in it, and empty in both streams or in none. -/
theorem parseExpression_ignoresTrivia : IgnoresTrivia Capture.bare parseExpression := by
  intro s s' h
  have hrun := balancedRun_ignoresTrivia expressionEnds h
  unfold parseExpression
  generalize s.balancedRun expressionEnds = x at hrun ⊢
  generalize s'.balancedRun expressionEnds = y at hrun ⊢
  cases hrun with
  | matched _ hst hst' halike =>
    simp only [h.cursor_eq_iff halike hst hst']
    split
    · exact .mismatched rfl (halike.found_eq _) hst hst' halike
    · exact .matched (congrArg leaf (h.bare_spanFrom halike hst hst')) hst hst' halike
  | mismatched hexpected hfound hst hst' _ =>
    exact .mismatched_restore hexpected hfound h hst hst'
  | endless => exact .endless

theorem skipNameParts_of_end {s : TokenStream} (h : s.current = none) (fuel : Nat) :
    skipNameParts fuel s = s := by
  cases fuel with
  | zero => rfl
  | succ fuel => simp [skipNameParts, h]

theorem current_eq_none_of_length {s : TokenStream} (hs : s.Settled)
    (h : s.remaining.length ≤ 0) : s.current = none := by
  rw [current_eq_head?_remaining hs, List.eq_nil_of_length_eq_zero (Nat.le_zero.1 h),
    List.head?_nil]

/-- The further parts of a name are the same in two streams that are alike. The counts may differ as
long as both are large enough, for trivia makes the number of tokens differ. -/
theorem skipNameParts_alike {fuel fuel' : Nat} {s s' : TokenStream} (h : s.Alike s')
    (hfuel : s.remaining.length ≤ fuel) (hfuel' : s'.remaining.length ≤ fuel') :
    (skipNameParts fuel s).Alike (skipNameParts fuel' s') := by
  induction fuel generalizing fuel' s s' with
  | zero =>
    have hs' : s'.current = none := current_eq_none_of_length h.right (h.length_eq ▸ hfuel)
    rw [skipNameParts, skipNameParts_of_end hs']
    exact h
  | succ fuel ih =>
    cases fuel' with
    | zero =>
      have hs : s.current = none := current_eq_none_of_length h.left (h.length_eq ▸ hfuel')
      rw [skipNameParts, skipNameParts_of_end hs]
      exact h
    | succ fuel' =>
      have hseparator : s.current.any Token.isNameSeparator
          = s'.current.any Token.isNameSeparator :=
        h.any_current fun _ => rfl
      have hidentifier : s.next.current.any Token.isIdentifier
          = s'.next.current.any Token.isIdentifier := h.next.any_current fun _ => rfl
      unfold skipNameParts
      rw [hseparator, hidentifier]
      split
      · refine ih h.next.next ?_ ?_
        · rw [remaining_next h.next.left, remaining_next h.left, List.length_tail, List.length_tail]
          omega
        · rw [remaining_next h.next.right, remaining_next h.right, List.length_tail,
            List.length_tail]
          omega
      · exact h

theorem nameStart_alike {s s' : TokenStream} (h : s.Alike s') :
    (if s.current.any Token.isNameSeparator then s.next else s).Alike
      (if s'.current.any Token.isNameSeparator then s'.next else s') := by
  rw [h.any_current (p := Token.isNameSeparator) fun _ => rfl]
  split
  · exact h.next
  · exact h

/-- A qualified name is the same whatever trivia stands between its parts. -/
theorem parseQualifiedName_ignoresTrivia : IgnoresTrivia Capture.bare parseQualifiedName := by
  intro s s' h
  have hstart := nameStart_alike h
  have hreach := reaches_nameStart h.left
  have hreach' := reaches_nameStart h.right
  unfold parseQualifiedName
  simp only
  generalize (if s.current.any Token.isNameSeparator then s.next else s) = u at hstart hreach ⊢
  generalize (if s'.current.any Token.isNameSeparator then s'.next else s') = u' at hstart hreach' ⊢
  rw [hstart.any_current (p := Token.isIdentifier) fun _ => rfl]
  split
  · have hnext : s.Reaches u.next := hreach.trans (next_reaches hstart.left)
    have hnext' : s'.Reaches u'.next := hreach'.trans (next_reaches hstart.right)
    have hparts := skipNameParts_alike hstart.next
      (Nat.le_trans hnext.length_remaining_le (length_remaining_le_left s))
      (Nat.le_trans hnext'.length_remaining_le (length_remaining_le_left s'))
    have hst := hnext.trans (skipNameParts_reaches s.left hnext.settled)
    have hst' := hnext'.trans (skipNameParts_reaches s'.left hnext'.settled)
    exact .matched (congrArg leaf (h.bare_spanFrom hparts hst hst')) hst hst' hparts
  · exact .mismatched_restore rfl (hstart.found_eq _) h hreach hreach'

/-! ## Repetition -/

section Repetition

variable {item separator : TokenStream → Parsed Capture}

/-- A round that does not end the repetition uses up a significant token on both streams, so the
bounds are never reached. -/
theorem parseMany_alike (hitem : IgnoresTrivia Capture.bare item) {fuel fuel' : Nat}
    {s s' : TokenStream} (h : s.Alike s') (hfuel : s.remaining.length < fuel)
    (hfuel' : s'.remaining.length < fuel') :
    Parsed.Alike bareItems s s' (parseMany item fuel s) (parseMany item fuel' s') := by
  induction fuel generalizing fuel' s s' with
  | zero => exact absurd hfuel (Nat.not_lt_zero _)
  | succ fuel ih =>
    cases fuel' with
    | zero => exact absurd hfuel' (Nat.not_lt_zero _)
    | succ fuel' =>
      have hround := hitem h
      unfold parseMany
      generalize item s = x at hround ⊢
      generalize item s' = y at hround ⊢
      cases hround with
      | @matched c c' t t' hview hst hst' halike =>
        simp only [h.cursor_eq_iff halike hst hst']
        split
        · exact .matched rfl hst hst' halike
        · next hne =>
          have hmoved : t.cursor ≠ s.cursor := mt (h.cursor_eq_iff halike hst hst').1 hne
          obtain ⟨hlt, hlt'⟩ := h.length_remaining_lt halike hst hmoved
          refine ((ih halike (by omega) (by omega)).trans hst hst').map ?_
          intro items items' hitems
          rw [bareItems, bareItems, hview, hitems]
      | mismatched _ _ hst hst' _ => exact .matched_restore rfl h hst hst'
      | endless => exact .endless

/-- The turns of a list are the same in two streams that are alike, and so is the turn that is given
back at the end. -/
theorem parseSeparated_alike (hitem : IgnoresTrivia Capture.bare item)
    (hseparator : IgnoresTrivia Capture.bare separator) {fuel fuel' : Nat} {s s' : TokenStream}
    (h : s.Alike s') (hfuel : s.remaining.length < fuel) (hfuel' : s'.remaining.length < fuel') :
    Parsed.Alike bareItems s s' (parseSeparated item separator fuel s)
      (parseSeparated item separator fuel' s') := by
  induction fuel generalizing fuel' s s' with
  | zero => exact absurd hfuel (Nat.not_lt_zero _)
  | succ fuel ih =>
    cases fuel' with
    | zero => exact absurd hfuel' (Nat.not_lt_zero _)
    | succ fuel' =>
      have hgap := hseparator h
      unfold parseSeparated
      generalize hx : separator s = x at hgap ⊢
      generalize hx' : separator s' = x' at hgap ⊢
      cases hgap with
      | @matched d d' t t' _ hst hst' halike =>
        have hround := hitem halike
        simp only
        generalize hy : item t = y at hround ⊢
        generalize hy' : item t' = y' at hround ⊢
        cases hround with
        | @matched c c' u u' hview htu htu' halike' =>
          have hsu := hst.trans htu
          have hsu' := hst'.trans htu'
          simp only
          by_cases heq : u.cursor = s.cursor
          · -- The round did not move, and so it never ends, on both streams.
            have heq' := (h.cursor_eq_iff halike' hsu hsu').1 heq
            rw [hsu.eq_of_cursor_eq heq] at hy ⊢
            rw [hsu'.eq_of_cursor_eq heq'] at hy' ⊢
            rw [parseSeparated_endless hx hy, parseSeparated_endless hx' hy']
            exact .endless
          · obtain ⟨hlt, hlt'⟩ := h.length_remaining_lt halike' hsu heq
            refine ((ih halike' (by omega) (by omega)).trans hsu hsu').map ?_
            intro items items' hitems
            rw [bareItems, bareItems, hview, hitems]
        | mismatched _ _ htu htu' _ =>
          -- The separator is given back on both streams.
          exact .matched_restore rfl h (hst.trans htu) (hst'.trans htu')
        | endless => exact .endless
      | mismatched _ _ hst hst' halike => exact .matched rfl hst hst' halike
      | endless => exact .endless

end Repetition

/-! ## Sequence and choice -/

theorem parseChain_ignoresTrivia {rules : List Rule}
    (hrules : ∀ rule ∈ rules, IgnoresTrivia Capture.bare rule.parse) :
    IgnoresTrivia bareEntries (parseChain rules) := by
  intro s s' h
  induction rules generalizing s s' with
  | nil => exact .stay rfl h
  | cons rule rules ih =>
    have hfirst := hrules rule List.mem_cons_self h
    unfold parseChain
    generalize rule.parse s = x at hfirst ⊢
    generalize rule.parse s' = y at hfirst ⊢
    cases hfirst with
    | @matched c c' t t' hview hst hst' halike =>
      have hrest := ih (fun r hr => hrules r (List.mem_cons_of_mem _ hr)) halike
      refine (hrest.trans hst hst').map ?_
      intro entries entries' hentries
      rw [bareEntries_append, bareEntries_append, ← entries_bare, ← entries_bare, hview, hentries]
    | mismatched hexpected hfound hst hst' halike =>
      exact .mismatched hexpected hfound hst hst' halike
    | endless => exact .endless

/-- A choice ignores trivia if all its alternatives do. It passes over the same ones, since their
verdicts do not depend on positions. -/
theorem parseEither_ignoresTrivia (expected : Text) {rules : List Rule}
    (hrules : ∀ rule ∈ rules, IgnoresTrivia Capture.bare rule.parse) :
    IgnoresTrivia Capture.bare (parseEither expected rules) := by
  intro s s' h
  induction rules with
  | nil => exact .atCursor h expected
  | cons rule rules ih =>
    have hrest := ih fun r hr => hrules r (List.mem_cons_of_mem _ hr)
    have hfirst := hrules rule List.mem_cons_self h
    have hcheck : rule.quickCheck s.current = rule.quickCheck s'.current := by
      rw [← quickCheck_unplaced, h.current, quickCheck_unplaced]
    unfold parseEither
    rw [hcheck]
    split
    · exact hrest
    · generalize rule.parse s = x at hfirst ⊢
      generalize rule.parse s' = y at hfirst ⊢
      cases hfirst with
      | matched hview hst hst' halike => exact .matched hview hst hst' halike
      | mismatched _ _ hst hst' _ =>
        simp only [restore_checkpoint h.left hst.tokens_eq,
          restore_checkpoint h.right hst'.tokens_eq]
        exact hrest
      | endless => exact .endless

/-! ## All rules -/

/-- No rule sees trivia. The induction is over the rule; the streams of the two runs stay alike from
each part of a rule to the next. -/
theorem parse_ignoresTrivia (rule : Rule) : IgnoresTrivia Capture.bare rule.parse := by
  induction rule with
  | any => exact parseToken_ignoresTrivia (fun _ => rfl) _
  | token kind => exact parseToken_ignoresTrivia (fun _ => rfl) _
  | lexeme text => exact parseToken_ignoresTrivia (fun _ => rfl) _
  | chain rules ih =>
    intro s s' h
    have hparts := parseChain_ignoresTrivia ih h
    unfold parse
    generalize parseChain rules s = x at hparts ⊢
    generalize parseChain rules s' = y at hparts ⊢
    cases hparts with
    | matched hview hst hst' halike =>
      refine .matched ?_ hst hst' halike
      rw [Capture.bare, Capture.bare, hview, h.bare_spanFrom halike hst hst']
    | mismatched hexpected hfound hst hst' _ =>
      exact .mismatched_restore hexpected hfound h hst hst'
    | endless => exact .endless
  | either rules ih =>
    intro s s' h
    unfold parse
    exact parseEither_ignoresTrivia _ ih h
  | optional rule ih =>
    intro s s' h
    have hpart := ih h
    unfold parse
    generalize rule.parse s = x at hpart ⊢
    generalize rule.parse s' = y at hpart ⊢
    cases hpart with
    | matched hview hst hst' halike => exact .matched hview hst hst' halike
    | mismatched _ _ hst hst' _ => exact .matched_restore rfl h hst hst'
    | endless => exact .endless
  | many rule ih =>
    intro s s' h
    have hrounds := parseMany_alike ih h (Nat.lt_succ_of_le (length_remaining_le_left s))
      (Nat.lt_succ_of_le (length_remaining_le_left s'))
    unfold parse
    generalize parseMany rule.parse (s.left + 1) s = x at hrounds ⊢
    generalize parseMany rule.parse (s'.left + 1) s' = y at hrounds ⊢
    cases hrounds with
    | matched hview hst hst' halike =>
      refine .matched ?_ hst hst' halike
      rw [Capture.bare, Capture.bare, hview, h.bare_spanFrom halike hst hst']
    | mismatched hexpected hfound hst hst' halike =>
      exact .mismatched hexpected hfound hst hst' halike
    | endless => exact .endless
  | separated item separator ihItem ihSeparator =>
    intro s s' h
    have hfirst := ihItem h
    unfold parse
    generalize item.parse s = x at hfirst ⊢
    generalize item.parse s' = x' at hfirst ⊢
    cases hfirst with
    | @matched c c' t t' hview hst hst' halike =>
      have hrounds := parseSeparated_alike ihItem ihSeparator halike
        (Nat.lt_succ_of_le (length_remaining_le_left t))
        (Nat.lt_succ_of_le (length_remaining_le_left t'))
      simp only
      generalize parseSeparated item.parse separator.parse (t.left + 1) t = y at hrounds ⊢
      generalize parseSeparated item.parse separator.parse (t'.left + 1) t' = y' at hrounds ⊢
      cases hrounds with
      | matched hitems htu htu' halike' =>
        have hsu := hst.trans htu
        have hsu' := hst'.trans htu'
        refine .matched ?_ hsu hsu' halike'
        rw [Capture.bare, Capture.bare, bareItems, bareItems, hview, hitems,
          h.bare_spanFrom halike' hsu hsu']
      | mismatched hexpected hfound htu htu' halike' =>
        exact .mismatched hexpected hfound (hst.trans htu) (hst'.trans htu') halike'
      | endless => exact .endless
    | mismatched hexpected hfound hst hst' halike =>
      exact .mismatched hexpected hfound hst hst' halike
    | endless => exact .endless
  | block => exact parseBlock_ignoresTrivia
  | qualifiedName => exact parseQualifiedName_ignoresTrivia
  | expression => exact parseExpression_ignoresTrivia
  | labelled label rule ih =>
    intro s s' h
    unfold parse
    refine (ih h).map ?_
    intro c c' hview
    simp only [Capture.labelled, Capture.bare, bareEntries, ← tokens_bare, hview]

/-- Trivia never changes what a rule matches. On two settled streams in which the same significant
tokens remain, the rule matches on both, fails on both or returns on neither. Two matches consume
the same number of significant tokens, leave the same ones, and have captures that are equal at
every node without trivia and positions; two mismatches expect and find the same. -/
theorem parse_same_up_to_trivia (rule : Rule) {s s' : TokenStream} (hs : s.Settled)
    (hs' : s'.Settled)
    (h : s.remaining.map Token.unplaced = s'.remaining.map Token.unplaced) :
    match rule.parse s, rule.parse s' with
    | .matched c t, .matched c' t' =>
      (s.consumed t).countP Token.isSignificant = (s'.consumed t').countP Token.isSignificant ∧
      t.remaining.map Token.unplaced = t'.remaining.map Token.unplaced ∧
      c.bare = c'.bare
    | .mismatched why _, .mismatched why' _ =>
      why.expected = why'.expected ∧ why.found = why'.found
    | .endless, .endless => True
    | _, _ => False := by
  have halike : s.Alike s' := ⟨hs, hs', h⟩
  have houtcome := parse_ignoresTrivia rule halike
  generalize rule.parse s = x at houtcome ⊢
  generalize rule.parse s' = y at houtcome ⊢
  cases houtcome with
  | matched hview hst hst' hahead =>
    refine ⟨?_, hahead.remaining, hview⟩
    have hlen := congrArg List.length (halike.bare_consumed hahead hst hst')
    rwa [Token.bare, Token.bare, List.length_map, List.length_map, ← List.countP_eq_length_filter,
      ← List.countP_eq_length_filter] at hlen
  | mismatched hexpected hfound _ _ _ => exact ⟨hexpected, hfound⟩
  | endless => trivial

/-- Two names with a comma between them, once without trivia and once with a comment and a blank. -/
theorem parse_same_up_to_trivia_separated :
    ∃ s s' c c' t t', s.Settled ∧ s'.Settled ∧ s.tokens.length ≠ s'.tokens.length ∧
      (separated (token .identifier) (lexeme [','])).parse s = .matched c t ∧
      (separated (token .identifier) (lexeme [','])).parse s' = .matched c' t' ∧
      c.bare = c'.bare := by
  have hs := ofTokens_settled [.synthetic .identifier ['a'], .synthetic .punctuation [','],
    .synthetic .identifier ['b']]
  have hs' := ofTokens_settled [.synthetic .comment ['#', '\n'], .synthetic .identifier ['a'],
    .synthetic .punctuation [','], .synthetic .whitespace [' '], .synthetic .identifier ['b']]
  have h := parse_same_up_to_trivia (separated (token .identifier) (lexeme [','])) hs hs' rfl
  exact ⟨_, _, _, _, _, _, hs, hs', by decide, rfl, rfl, h.2.2⟩

end Rule

end SourceMacros
