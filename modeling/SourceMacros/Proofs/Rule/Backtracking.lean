import SourceMacros.Proofs.Rule.Forms
import SourceMacros.Proofs.TokenStream

/-!
# Backtracking

Every rule is atomic. On a settled stream it either matches and reaches a settled place further on,
or it does not match and hands back the very stream it was given (`parse_atomic`). So an alternative
can be tried wherever another one failed, and nothing a failed rule did is seen again.

Inside a rule this need not hold: a chain that fails in the middle, or a scan for balanced brackets,
stops at some place on the way. Such parts only stay `Within` the tokens ahead; the rule around them
puts the cursor back.

Each form keeps the promise if its parts do, wherever these come from (`Rule.chainOf_atomic` and the
lemmas behind it), and the leaves keep it by themselves.
-/

namespace SourceMacros

open TokenStream

/-! ## Induction over rules -/

/-- Induction over a rule and its parts. A chain and a choice come with the statement for each of
their rules. -/
@[elab_as_elim, induction_eliminator]
theorem Rule.byParts {motive : Rule → Prop}
    (any : motive .any)
    (token : ∀ kind, motive (.token kind))
    (lexeme : ∀ text, motive (.lexeme text))
    (chain : ∀ rules, (∀ rule ∈ rules, motive rule) → motive (.chain rules))
    (either : ∀ rules, (∀ rule ∈ rules, motive rule) → motive (.either rules))
    (optional : ∀ rule, motive rule → motive (.optional rule))
    (many : ∀ rule, motive rule → motive (.many rule))
    (separated : ∀ item separator, motive item → motive separator →
      motive (.separated item separator))
    (block : motive .block)
    (qualifiedName : motive .qualifiedName)
    (expression : motive .expression)
    (labelled : ∀ label rule, motive rule → motive (.labelled label rule))
    (rule : Rule) : motive rule := by
  refine @Rule.rec motive (fun rules => ∀ rule ∈ rules, motive rule) any token lexeme chain either
    optional many separated block qualifiedName expression labelled ?_ ?_ rule
  · intro rule hrule
    cases hrule
  · intro rule rules hrule hrules other hother
    rcases List.mem_cons.1 hother with rfl | hmem
    · exact hrule
    · exact hrules other hmem

/-! ## Outcomes -/

namespace Parsed

variable {α β : Type}

/-- An outcome whose stream, if there is one, lies ahead of `s`. -/
inductive Within (s : TokenStream) : Parsed α → Prop
  | matched {a : α} {t : TokenStream} (h : s.Reaches t) : Within s (.matched a t)
  | mismatched {why : Mismatch} {t : TokenStream} (h : s.Reaches t) : Within s (.mismatched why t)
  | endless : Within s .endless

/-- An outcome of a rule run at `s` that takes everything or nothing. -/
inductive Atomic (s : TokenStream) : Parsed α → Prop
  | matched {a : α} {t : TokenStream} (h : s.Reaches t) : Atomic s (.matched a t)
  | mismatched {why : Mismatch} : Atomic s (.mismatched why s)
  | endless : Atomic s .endless

/-- An outcome of a repetition at `s`: it may go on forever, but it cannot fail. -/
inductive Unfailing (s : TokenStream) : Parsed α → Prop
  | matched {a : α} {t : TokenStream} (h : s.Reaches t) : Unfailing s (.matched a t)
  | endless : Unfailing s .endless

variable {s t : TokenStream} {x : Parsed α}

theorem Within.trans (hst : s.Reaches t) (h : x.Within t) : x.Within s := by
  cases h with
  | matched htu => exact .matched (hst.trans htu)
  | mismatched htu => exact .mismatched (hst.trans htu)
  | endless => exact .endless

theorem Within.map (f : α → β) (h : x.Within s) : (x.map f).Within s := by
  cases h with
  | matched hst => exact .matched hst
  | mismatched hst => exact .mismatched hst
  | endless => exact .endless

theorem Unfailing.trans (hst : s.Reaches t) (h : x.Unfailing t) : x.Unfailing s := by
  cases h with
  | matched htu => exact .matched (hst.trans htu)
  | endless => exact .endless

theorem Unfailing.map (f : α → β) (h : x.Unfailing s) : (x.map f).Unfailing s := by
  cases h with
  | matched hst => exact .matched hst
  | endless => exact .endless

theorem Atomic.map (f : α → β) (h : x.Atomic s) : (x.map f).Atomic s := by
  cases h with
  | matched hst => exact .matched hst
  | mismatched => exact .mismatched
  | endless => exact .endless

end Parsed

/-- A parser that takes everything or nothing wherever it is run. -/
def AtomicParser {α : Type} (p : TokenStream → Parsed α) : Prop :=
  ∀ {s : TokenStream}, s.Settled → (p s).Atomic s

theorem AtomicParser.reaches_of_matched {α : Type} {p : TokenStream → Parsed α}
    (hp : AtomicParser p) {s t : TokenStream} {a : α} (hs : s.Settled) (h : p s = .matched a t) :
    s.Reaches t := by
  have hatomic := hp hs
  rw [h] at hatomic
  cases hatomic with
  | matched hst => exact hst

theorem AtomicParser.eq_of_mismatched {α : Type} {p : TokenStream → Parsed α}
    (hp : AtomicParser p) {s t : TokenStream} {why : Mismatch} (hs : s.Settled)
    (h : p s = .mismatched why t) : t = s := by
  have hatomic := hp hs
  rw [h] at hatomic
  cases hatomic with
  | mismatched => rfl

namespace Rule

/-! ## Leaves -/

/-- A token parser moves on to the next significant token or stays where it is. -/
theorem parseToken_atomic (p : Token → Bool) (expected : Text) :
    AtomicParser (parseToken p expected) := by
  intro s hs
  unfold parseToken
  split
  · split
    · exact .matched (next_reaches hs)
    · exact .mismatched
  · exact .mismatched

/-- The scan for balanced brackets only moves ahead, one settled token at a time. -/
theorem skipBalanced_within (terminators : List Text) (fuel : Nat) (waiting : List Text)
    {s : TokenStream} (hs : s.Settled) :
    (skipBalanced terminators fuel waiting s).Within s := by
  induction fuel generalizing waiting s with
  | zero => exact .endless
  | succ fuel ih =>
    have hnext : s.Reaches s.next := next_reaches hs
    have hrec : ∀ waiting, (skipBalanced terminators fuel waiting s.next).Within s :=
      fun waiting => (ih waiting hnext.settled).trans hnext
    unfold skipBalanced
    split
    · split
      · exact .matched (.refl hs)
      · exact .mismatched (.refl hs)
    · split
      · exact .matched (.refl hs)
      · split
        · exact hrec _
        · exact .matched (.refl hs)
        · split
          · exact hrec _
          · exact .mismatched (.refl hs)
        · exact hrec _

theorem balancedRun_within (terminators : List Text) {s : TokenStream} (hs : s.Settled) :
    (s.balancedRun terminators).Within s :=
  skipBalanced_within terminators _ [] hs

/-- A block whose brackets do not close is given back as a whole. -/
theorem parseBlock_atomic : AtomicParser parseBlock := by
  intro s hs
  have h := balancedRun_within [] hs
  unfold parseBlock
  generalize s.balancedRun [] = x at h ⊢
  cases h with
  | matched hst => exact .matched hst
  | mismatched hst =>
    simp only [restore_checkpoint hs hst.tokens_eq]
    exact .mismatched
  | endless => exact .endless

/-- An expression is given back if it is empty or runs into a bracket that does not fit. -/
theorem parseExpression_atomic : AtomicParser parseExpression := by
  intro s hs
  have h := balancedRun_within expressionEnds hs
  unfold parseExpression
  generalize s.balancedRun expressionEnds = x at h ⊢
  cases h with
  | matched hst =>
    simp only
    split
    · next heq =>
      -- An empty run is a mismatch, and the cursor never left its place.
      rw [hst.eq_of_cursor_eq heq]
      exact .mismatched
    · exact .matched hst
  | mismatched hst =>
    simp only [restore_checkpoint hs hst.tokens_eq]
    exact .mismatched
  | endless => exact .endless

/-- Each further part of a qualified name is two tokens, a backslash and an identifier. -/
theorem skipNameParts_reaches (fuel : Nat) {s : TokenStream} (hs : s.Settled) :
    s.Reaches (skipNameParts fuel s) := by
  induction fuel generalizing s with
  | zero => exact .refl hs
  | succ fuel ih =>
    unfold skipNameParts
    split
    · have h₁ : s.Reaches s.next := next_reaches hs
      have h₂ : s.next.Reaches s.next.next := next_reaches h₁.settled
      exact (h₁.trans h₂).trans (ih h₂.settled)
    · exact .refl hs

/-- A qualified name starts at the cursor or behind a leading backslash. -/
theorem reaches_nameStart {s : TokenStream} (hs : s.Settled) :
    s.Reaches (if s.current.any Token.isNameSeparator then s.next else s) := by
  split
  · exact next_reaches hs
  · exact .refl hs

/-- A leading backslash is given back if no identifier follows it. -/
theorem parseQualifiedName_atomic : AtomicParser parseQualifiedName := by
  intro s hs
  have hstart := reaches_nameStart hs
  unfold parseQualifiedName
  simp only
  generalize (if s.current.any Token.isNameSeparator then s.next else s) = start at hstart ⊢
  split
  · have hnext : start.Reaches start.next := next_reaches hstart.settled
    exact .matched ((hstart.trans hnext).trans (skipNameParts_reaches _ hnext.settled))
  · rw [restore_checkpoint hs hstart.tokens_eq]
    exact .mismatched

/-! ## Repetition -/

section Repetition

variable {item separator : TokenStream → Parsed Capture}

/-- A repetition of an atomic parser goes from match to match and stops where the last one ended. -/
theorem parseMany_unfailing (hitem : AtomicParser item) (fuel : Nat) {s : TokenStream}
    (hs : s.Settled) : (parseMany item fuel s).Unfailing s := by
  induction fuel generalizing s with
  | zero => exact .endless
  | succ fuel ih =>
    have h := hitem hs
    unfold parseMany
    generalize item s = x at h ⊢
    cases h with
    | matched hst =>
      simp only
      split
      · exact .matched hst
      · exact ((ih hst.settled).trans hst).map _
    | mismatched =>
      simp only [restore_checkpoint hs rfl]
      exact .matched (.refl hs)
    | endless => exact .endless

/-- Behind each item, a separator without a further item is given back. -/
theorem parseSeparated_unfailing (hitem : AtomicParser item) (hseparator : AtomicParser separator)
    (fuel : Nat) {s : TokenStream} (hs : s.Settled) :
    (parseSeparated item separator fuel s).Unfailing s := by
  induction fuel generalizing s with
  | zero => exact .endless
  | succ fuel ih =>
    have h := hseparator hs
    unfold parseSeparated
    generalize separator s = x at h ⊢
    cases h with
    | @matched _ t hst =>
      have hi := hitem hst.settled
      simp only
      generalize item t = y at hi ⊢
      cases hi with
      | matched htu =>
        have hsu := hst.trans htu
        exact ((ih hsu.settled).trans hsu).map _
      | mismatched =>
        simp only [restore_checkpoint hs hst.tokens_eq]
        exact .matched (.refl hs)
      | endless => exact .endless
    | mismatched => exact .matched (.refl hs)
    | endless => exact .endless

/-- A separator and an item that both match without moving are matched again forever. -/
theorem parseSeparated_endless {s t : TokenStream} {d c : Capture}
    (hseparator : separator s = .matched d t) (hitem : item t = .matched c s) (fuel : Nat) :
    parseSeparated item separator fuel s = .endless := by
  induction fuel with
  | zero => rfl
  | succ fuel ih => simp only [parseSeparated, hseparator, hitem, ih, Parsed.map]

end Repetition

/-! ## Forms -/

section Forms

variable {p item separator : TokenStream → Parsed Capture}

/-- Parsers that run in turn only move ahead. What the last of them matched is not undone here, if a
later one fails. -/
theorem inTurn_within {parsers : List (TokenStream → Parsed Capture)}
    (hparsers : ∀ p ∈ parsers, AtomicParser p) {s : TokenStream} (hs : s.Settled) :
    (inTurn parsers s).Within s := by
  induction parsers generalizing s with
  | nil => exact .matched (.refl hs)
  | cons p parsers ih =>
    obtain ⟨hp, hothers⟩ := List.forall_mem_cons.1 hparsers
    have h := hp hs
    unfold inTurn
    generalize p s = x at h ⊢
    cases h with
    | matched hst => exact ((ih hothers hst.settled).trans hst).map _
    | mismatched => exact .mismatched (.refl hs)
    | endless => exact .endless

/-- A chain puts the cursor back where one of its parts fails. -/
theorem chainOf_atomic {parsers : List (TokenStream → Parsed Capture)}
    (hparsers : ∀ p ∈ parsers, AtomicParser p) : AtomicParser (chainOf parsers) := by
  intro s hs
  have h := inTurn_within hparsers hs
  unfold chainOf
  generalize inTurn parsers s = x at h ⊢
  cases h with
  | matched hst => exact .matched hst
  | mismatched hst =>
    simp only [restore_checkpoint hs hst.tokens_eq]
    exact .mismatched
  | endless => exact .endless

/-- A choice tries each alternative from the same place. -/
theorem firstOf_atomic (expected : Text) {alternatives : List Alternative}
    (halternatives : ∀ a ∈ alternatives, AtomicParser a.parse) :
    AtomicParser (firstOf expected alternatives) := by
  intro s hs
  induction alternatives with
  | nil => exact .mismatched
  | cons first others ih =>
    obtain ⟨hfirst, hothers⟩ := List.forall_mem_cons.1 halternatives
    have h := hfirst hs
    unfold firstOf
    split
    · exact ih hothers
    · generalize first.parse s = x at h ⊢
      cases h with
      | matched hst => exact .matched hst
      | mismatched =>
        simp only [restore_checkpoint hs rfl]
        exact ih hothers
      | endless => exact .endless

/-- Where an optional parser takes nothing, it has not moved either. -/
theorem optionalOf_atomic (hp : AtomicParser p) : AtomicParser (optionalOf p) := by
  intro s hs
  have h := hp hs
  unfold optionalOf
  generalize p s = x at h ⊢
  cases h with
  | matched hst => exact .matched hst
  | mismatched =>
    simp only [restore_checkpoint hs rfl]
    exact .matched (.refl hs)
  | endless => exact .endless

/-- A repetition has nothing to give back, since it cannot fail. -/
theorem manyOf_atomic (hitem : AtomicParser item) : AtomicParser (manyOf item) := by
  intro s hs
  have h := parseMany_unfailing hitem (s.left + 1) hs
  unfold manyOf
  generalize parseMany item (s.left + 1) s = x at h ⊢
  cases h with
  | matched hst => exact .matched hst
  | endless => exact .endless

/-- A list fails only where its first item does. -/
theorem separatedOf_atomic (hitem : AtomicParser item) (hseparator : AtomicParser separator) :
    AtomicParser (separatedOf item separator) := by
  intro s hs
  have h := hitem hs
  unfold separatedOf
  generalize item s = x at h ⊢
  cases h with
  | @matched _ t hst =>
    have hrest := parseSeparated_unfailing hitem hseparator (t.left + 1) hst.settled
    simp only
    generalize parseSeparated item separator (t.left + 1) t = y at hrest ⊢
    cases hrest with
    | matched htu => exact .matched (hst.trans htu)
    | endless => exact .endless
  | mismatched => exact .mismatched
  | endless => exact .endless

end Forms

/-! ## All rules -/

/-- Every rule takes everything or nothing. The induction is over the rule: leaves move by `next`
alone, and every form keeps the promise if its parts do. -/
theorem parse_atomic (rule : Rule) : AtomicParser rule.parse := by
  induction rule with
  | any => exact parseToken_atomic _ _
  | token kind => exact parseToken_atomic _ _
  | lexeme text => exact parseToken_atomic _ _
  | chain rules ih =>
    rw [parse_chain]
    exact chainOf_atomic (List.forall_mem_map.2 ih)
  | either rules ih =>
    rw [parse_either]
    exact firstOf_atomic _ (List.forall_mem_map.2 ih)
  | optional rule ih =>
    rw [parse_optional]
    exact optionalOf_atomic ih
  | many rule ih =>
    rw [parse_many]
    exact manyOf_atomic ih
  | separated item separator ihItem ihSeparator =>
    rw [parse_separated]
    exact separatedOf_atomic ihItem ihSeparator
  | block => exact parseBlock_atomic
  | qualifiedName => exact parseQualifiedName_atomic
  | expression => exact parseExpression_atomic
  | labelled label rule ih =>
    intro s hs
    unfold parse
    exact (ih hs).map _

/-- The parts of a chain only move ahead, also if the chain fails in the end. -/
theorem parseChain_within (rules : List Rule) {s : TokenStream} (hs : s.Settled) :
    (parseChain rules s).Within s := by
  rw [parseChain_eq_inTurn]
  exact inTurn_within (List.forall_mem_map.2 fun rule _ => parse_atomic rule) hs

/-- A match reaches a settled place further on in the same tokens. -/
theorem reaches_of_matched {rule : Rule} {s t : TokenStream} {c : Capture} (hs : s.Settled)
    (h : rule.parse s = .matched c t) : s.Reaches t :=
  AtomicParser.reaches_of_matched (parse_atomic rule) hs h

/-- A mismatch hands back the stream it was given. -/
theorem eq_of_mismatched {rule : Rule} {s t : TokenStream} {why : Mismatch} (hs : s.Settled)
    (h : rule.parse s = .mismatched why t) : t = s :=
  AtomicParser.eq_of_mismatched (parse_atomic rule) hs h

/-- Whenever a rule returns on a settled stream, it has not touched the tokens; if it does not
match, the cursor is where it was, and if it does, the cursor has not gone back and rests on a
significant token or at the end. -/
theorem parse_restores_or_advances (rule : Rule) {s : TokenStream} (hs : s.Settled) :
    (∀ why t, rule.parse s = .mismatched why t → t.tokens = s.tokens ∧ t.cursor = s.cursor) ∧
    (∀ c t, rule.parse s = .matched c t →
      t.tokens = s.tokens ∧ s.cursor ≤ t.cursor ∧ t.Settled) := by
  constructor
  · intro why t h
    rw [eq_of_mismatched hs h]
    exact ⟨rfl, rfl⟩
  · intro c t h
    obtain ⟨htokens, hcursor, hsettled⟩ := reaches_of_matched hs h
    exact ⟨htokens, hcursor, hsettled⟩

/-- On two names, a chain that wants a semicolon behind the first goes back over it, and one that
can do without moves on to the second. -/
theorem parse_restores_or_advances_chain :
    ∃ s : TokenStream, s.Settled ∧
      (∃ why t, (chain [token .identifier, lexeme [';']]).parse s = .mismatched why t ∧
        t.tokens = s.tokens ∧ t.cursor = s.cursor) ∧
      (∃ c t, (chain [token .identifier, optional (lexeme [';'])]).parse s = .matched c t ∧
        t.tokens = s.tokens ∧ s.cursor < t.cursor ∧ t.Settled) := by
  have hs := ofTokens_settled [.synthetic .identifier ['a'], .synthetic .whitespace [' '],
    .synthetic .identifier ['b']]
  refine ⟨_, hs, ?_, ?_⟩
  · refine ⟨_, _, rfl, ?_⟩
    exact (parse_restores_or_advances (chain [token .identifier, lexeme [';']]) hs).1 _ _ rfl
  · refine ⟨_, _, rfl, ?_⟩
    obtain ⟨htokens, -, hsettled⟩ := (parse_restores_or_advances
      (chain [token .identifier, optional (lexeme [';'])]) hs).2 _ _ rfl
    exact ⟨htokens, by decide, hsettled⟩

end Rule

end SourceMacros
