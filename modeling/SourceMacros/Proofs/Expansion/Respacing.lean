import SourceMacros.Expansion.Expander
import SourceMacros.Proofs.Lexing.Spacing
import SourceMacros.Proofs.TokenStream

/-!
# Expanders that write tokens with spaces between them

Two expanders write the significant tokens of a region again, with spaces between them, and have the
result expanded. If the expansion changes nothing, the tokens come back as they were: white space
between tokens never makes other tokens of them.

The exception is an attribute. The expanders know nothing of the square bracket that has to stand
directly behind its hash sign; with a space there, the rest of the line is a comment
(`respaced_tokens`).
-/

namespace SourceMacros

open TokenStream Lexer

/-! ## The written texts -/

/-- With single spaces between all of them, tokens are spaced. -/
theorem spaced_joinWith (ts : List Token) :
    Spaced ts (Text.joinWith [' '] (ts.map Token.lexeme)) := by
  induction ts with
  | nil => exact .nil
  | cons t ts ih =>
    cases ts with
    | nil => exact .single t
    | cons u ts =>
      rw [List.map_cons, List.map_cons, Text.joinWith, List.append_assoc]
      exact .space t ih

/-- Leaving out a space between tokens that need none keeps them spaced. -/
theorem spaced_spacedText (ts : List Token) : Spaced ts (spacedText ts) := by
  induction ts with
  | nil => exact .nil
  | cons t ts ih =>
    cases ts with
    | nil => exact .single t
    | cons u ts =>
      rw [spacedText, List.append_assoc]
      split
      · next hempty => exact .brackets t hempty.1 ih
      · exact .space t ih

/-- Where nothing is cut off, all tokens are kept. -/
theorem cutDefault_of_not_cut {ts : List Token} (h : (cutDefault ts).2 = false) :
    (cutDefault ts).1 = ts := by
  induction ts with
  | nil => rfl
  | cons t ts ih =>
    rw [cutDefault] at h ⊢
    split at h
    · cases h
    · next hgo =>
      rw [if_neg hgo]
      exact congrArg (t :: ·) (ih h)

/-! ## Expanding the texts again -/

namespace Expander

/-- The plan is made by one of the two expanders that write the tokens of a region again, and that
one keeps all of them. -/
def Respaces (s : TokenStream) (plan : Plan) : Prop :=
  plan = visibilityModifiers s ∨ (plan = argument s ∧ (argumentWithNullability s).2 = false)

/-- Each of the two expanders resubmits the tokens with other spaces between them. -/
theorem Respaces.exists_spaced {s : TokenStream} {plan : Plan} (h : Respaces s plan) :
    ∃ text, Spaced s.remaining text ∧ plan = .reexpand text := by
  rcases h with rfl | ⟨rfl, hkept⟩
  · exact ⟨_, spaced_joinWith s.remaining, rfl⟩
  · have hall := cutDefault_of_not_cut hkept
    exact ⟨_, spaced_spacedText s.remaining,
      congrArg (fun ts => Plan.reexpand (spacedText ts)) hall⟩

/-- Where an expansion changes nothing, a source to be expanded again is lexed again. -/
theorem carryOut_reexpand {answer : Request → Expanded Text}
    (hanswer : ∀ r, (answer r).result = .ok r.source) (text : Text) :
    ((Plan.reexpand text).carryOut answer).result =
      match lex text with
      | .error e => .error (.lex e)
      | .ok tokens => .ok (ofTokens tokens) := by
  rw [Plan.reexpand, Plan.carryOut, Expanded.bind, hanswer]
  simp only [expandable, ofSource]
  cases lex text <;> rfl

/-- Written with spaces between them and lexed again, the tokens of a source are the same, unless
one of them is the hash sign of an attribute. Then they are the same up to the first of these, and
in its place there is a comment to the end of the line; or what follows the comment cannot be lexed.
-/
theorem respaced_tokens {source : Text} {tokens : List Token} (hlex : lex source = .ok tokens)
    {answer : Request → Expanded Text} (hanswer : ∀ r, (answer r).result = .ok r.source)
    {plan : Plan} (hplan : Respaces (ofTokens tokens) plan) :
    ((∀ t ∈ tokens, t.is .punctuation ['#'] = false) →
      ∃ again, (plan.carryOut answer).result = .ok (ofTokens again) ∧
        Token.bare again = Token.bare tokens) ∧
    ∀ front hash back, tokens.filter Token.isSignificant = front ++ hash :: back →
      hash.is .punctuation ['#'] = true → (∀ t ∈ front, t.is .punctuation ['#'] = false) →
      (∃ e, (plan.carryOut answer).result = .error (.lex e)) ∨
        ∃ before comment after,
          (plan.carryOut answer).result = .ok (ofTokens (before ++ comment :: after)) ∧
          Token.bare before = front.map Token.unplaced ∧ (∀ t ∈ before, t.kind ≠ .comment) ∧
          comment.kind = .comment ∧ comment.lexeme.head? = some '#' ∧ '\n' ∉ comment.lexeme ∧
          Text.EndsLine (Token.text after) := by
  obtain ⟨text, hspaced, rfl⟩ := hplan.exists_spaced
  rw [remaining_ofTokens] at hspaced
  rw [carryOut_reexpand hanswer]
  have hrun := tokenizeFrom_eq_ok_iff.1 hlex
  have hsolid : ∀ t ∈ tokens.filter Token.isSignificant,
      ∃ c l, t.lexeme = c :: l ∧ Text.isSolid c = true := by
    intro t ht
    obtain ⟨hmem, hsignificant⟩ := List.mem_filter.1 ht
    exact exists_solid hrun hmem hsignificant
  have hfound : ∀ t ∈ tokens.filter Token.isSignificant, t.is .punctuation ['#'] = false →
      FoundBefore t [] ∧ t.isSignificant = true := by
    intro t ht hhash
    obtain ⟨hmem, hsignificant⟩ := List.mem_filter.1 ht
    exact ⟨.of_lexes hrun hmem hsignificant hhash, hsignificant⟩
  constructor
  · intro hnone
    obtain ⟨rest, hrest, hleads⟩ := hspaced.leads (List.append_nil _).symm hsolid
      fun t ht => hfound t ht (hnone t (List.mem_filter.1 ht).1)
    cases hrest
    obtain ⟨again, hagain, hbare⟩ := hleads.tokenize_eq_ok
    exact ⟨again, by rw [hagain], hbare⟩
  · intro front hash back hsplit hhash hfront
    have hmem : ∀ t ∈ front, t ∈ tokens.filter Token.isSignificant := fun t ht =>
      hsplit ▸ List.mem_append_left _ ht
    obtain ⟨rest, hrest, hleads⟩ := hspaced.leads hsplit hsolid
      fun t ht => hfound t (hmem t ht) (hfront t ht)
    rw [Token.is, Bool.and_eq_true, beq_iff_eq, beq_iff_eq] at hhash
    obtain ⟨behind, rfl, hbracket⟩ := hrest.behind_hash hhash.2
    rcases hleads.lex_hash hbracket with ⟨e, he⟩ | ⟨before, comment, after, hok, hrest⟩
    · exact .inl ⟨e, by rw [he]⟩
    · exact .inr ⟨before, comment, after, by rw [hok], hrest⟩

/-- An expansion that changes nothing. -/
def unchanged (r : Request) : Expanded Text :=
  .pure r.source

/-- An argument is written again with its tokens as they were, but an attribute becomes a comment.
-/
theorem respaced_tokens_argument :
    (∃ tokens again, lex "$x=[ ]".toList = .ok tokens ∧
      ((argument (ofTokens tokens)).carryOut unchanged).result = .ok (ofTokens again) ∧
      Token.bare again = Token.bare tokens) ∧
    ∃ tokens, lex "$x #[A]".toList = .ok tokens ∧
      ((∃ e,
          ((visibilityModifiers (ofTokens tokens)).carryOut unchanged).result = .error (.lex e)) ∨
        ∃ before comment after,
          ((visibilityModifiers (ofTokens tokens)).carryOut unchanged).result
            = .ok (ofTokens (before ++ comment :: after)) ∧
          Token.bare before = [.synthetic .variableName ['$', 'x']] ∧
          (∀ t ∈ before, t.kind ≠ .comment) ∧ comment.kind = .comment ∧
          comment.lexeme.head? = some '#' ∧ '\n' ∉ comment.lexeme ∧
          Text.EndsLine (Token.text after)) := by
  have hanswer : ∀ r, (unchanged r).result = .ok r.source := fun _ => rfl
  constructor
  · obtain ⟨tokens, hlex, hnone, hkept⟩ : ∃ tokens, lex "$x=[ ]".toList = .ok tokens ∧
        (∀ t ∈ tokens, t.is .punctuation ['#'] = false) ∧
        (argumentWithNullability (ofTokens tokens)).2 = false := ⟨_, rfl, by decide, rfl⟩
    obtain ⟨again, hagain, hbare⟩ := (respaced_tokens hlex hanswer (.inr ⟨rfl, hkept⟩)).1 hnone
    exact ⟨tokens, again, hlex, hagain, hbare⟩
  · obtain ⟨tokens, hlex, x, hash, back, hsplit, hx, hhash⟩ : ∃ tokens,
        lex "$x #[A]".toList = .ok tokens ∧
          ∃ x hash back, tokens.filter Token.isSignificant = [x] ++ hash :: back ∧
            x.unplaced = .synthetic .variableName ['$', 'x'] ∧
            hash.is .punctuation ['#'] = true := ⟨_, rfl, _, _, _, rfl, rfl, rfl⟩
    have hfront : ∀ t ∈ [x], t.is .punctuation ['#'] = false := by
      have hother : x.unplaced.is .punctuation ['#'] = false := by
        rw [hx]
        decide
      exact List.forall_mem_singleton.2 hother
    have h := (respaced_tokens hlex hanswer (.inl rfl)).2 [x] hash back hsplit hhash hfront
    rw [List.map_singleton, hx] at h
    exact ⟨tokens, hlex, h⟩

end Expander

end SourceMacros
