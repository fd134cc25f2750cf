import SourceMacros.Proofs.Lexing.Locality
import SourceMacros.Proofs.Lexing.Runs

/-!
# Slices of tokens lex to themselves

The text of any slice of the tokens of a source lexes to this slice again (`lex_text_extract`): the
lexer keeps no state from the tokens to the left, and no token depends on the text cut off to its
right. The one token that does is a hash sign in front of a square bracket. Where it is the last of
a slice, it comes back as a comment.
-/

namespace SourceMacros

namespace Token

/-- The tokens, set one after the other from position `p` on. -/
def placedFrom : Position → List Token → List Token
  | _, [] => []
  | p, t :: ts => { t with position := p } :: placedFrom (p.after t.lexeme) ts

/-- The tokens where the text ends behind them: a lone hash sign at the end opens a comment. -/
def cutOff : List Token → List Token
  | [] => []
  | [t] => [if t.is .punctuation ['#'] then { t with kind := .comment } else t]
  | t :: u :: ts => t :: cutOff (u :: ts)

/-- Only a hash sign at the very end changes its kind. -/
theorem cutOff_cons {t : Token} {ts : List Token} (h : t.lexeme = ['#'] → ts ≠ []) :
    cutOff (t :: ts) = t :: cutOff ts := by
  cases ts with
  | cons u ts => rfl
  | nil =>
    have hother : t.is .punctuation ['#'] = false := by
      rw [is, Bool.and_eq_false_iff]
      exact .inr (beq_false_of_ne fun hlexeme => h hlexeme rfl)
    simp only [cutOff, hother, Bool.false_eq_true, if_false]

theorem text_take_isPrefix (ts : List Token) (n : Nat) : text (ts.take n) <+: text ts := by
  refine ⟨text (ts.drop n), ?_⟩
  rw [← text_append, List.take_append_drop]

theorem eq_nil_of_text_eq_nil {ts : List Token} (hne : ∀ t ∈ ts, t.lexeme ≠ [])
    (h : text ts = []) : ts = [] := by
  cases ts with
  | nil => rfl
  | cons t ts =>
    rw [text_cons, List.append_eq_nil_iff] at h
    exact absurd h.1 (hne t List.mem_cons_self)

end Token

namespace Lexer

/-! ## The first token of a text cut off -/

/-- The first token is the same in a shorter text that holds all of it, at any position. A hash sign
needs something behind it, or it would be a comment. -/
theorem firstToken_of_isPrefix {p : Position} {c : Char} {t t' l : Text} {rules : List LexRule}
    {token : Token} (h : firstToken p c t rules = .ok token) (hlexeme : token.lexeme = c :: l)
    (hfront : l <+: t') (ht : t' <+: t) (hhash : c = '#' → t' ≠ []) (q : Position) :
    firstToken q c t' rules = .ok { token with position := q } := by
  induction rules with
  | nil => cases h
  | cons r rules ih =>
    unfold firstToken at h ⊢
    by_cases hquick : r.quickCheck c = some false
    · rw [if_pos hquick] at h ⊢
      exact ih h
    · rw [if_neg hquick] at h ⊢
      -- A rule tried in vain before finds nothing now, so the same rule gives the token.
      split at h
      · next hscan =>
        rw [r.scan_declined_of_isPrefix hscan ht hhash]
        exact ih h
      · next hscan =>
        rw [r.scan_found_of_isPrefix hscan List.nil_prefix ((List.prefix_cons_inj c).2 ht)]
        exact ih h
      · next kind d lexeme hscan =>
        simp only [Except.ok.injEq] at h
        subst h
        have hheld : d :: lexeme <+: c :: t' := by
          rw [show d :: lexeme = c :: l from hlexeme]
          exact (List.prefix_cons_inj c).2 hfront
        rw [r.scan_found_of_isPrefix hscan hheld ((List.prefix_cons_inj c).2 ht)]
      · cases h

/-- In front of a square bracket a hash sign is a token of its own. Elsewhere it opens a comment. -/
theorem firstToken_hash (p : Position) (t : Text) :
    (∃ u, t = '[' :: u ∧
      firstToken p '#' t standard.rules = .ok ⟨.punctuation, ['#'], p⟩) ∨
    firstToken p '#' t standard.rules
      = .ok ⟨.comment, '#' :: t.takeWhile (· != '\n'), p⟩ := by
  by_cases hbracket : ∃ u, t = '[' :: u
  · obtain ⟨u, rfl⟩ := hbracket
    exact .inl ⟨u, rfl, rfl⟩
  · right
    have hscan := LexRule.scanComment_hash fun u hu => hbracket ⟨u, hu⟩
    have hrules : standard.rules = LexRule.standard := rfl
    have htag : LexRule.tag.quickCheck '#' = some false := rfl
    have hcomment : LexRule.comment.quickCheck '#' = some true := rfl
    simp only [hrules, LexRule.standard, firstToken, htag, hcomment, LexRule.scan, hscan]
    rfl

theorem firstToken_hash_alone (q : Position) :
    firstToken q '#' [] standard.rules = .ok ⟨.comment, ['#'], q⟩ := by
  rcases firstToken_hash q [] with ⟨u, hu, -⟩ | h
  · cases hu
  · exact h

/-- A hash sign found alone is a comment where the text ends behind it. -/
theorem cutOff_of_firstToken_hash {p : Position} {t : Text} {token : Token}
    (h : firstToken p '#' t standard.rules = .ok token) (hlexeme : token.lexeme = ['#']) :
    Token.cutOff [token] = [⟨.comment, ['#'], token.position⟩] := by
  rcases firstToken_hash p t with ⟨u, rfl, hpunct⟩ | hcomment
  · rw [hpunct, Except.ok.injEq] at h
    subst h
    rfl
  · rw [hcomment, Except.ok.injEq] at h
    subst h
    simp only [List.cons.injEq, true_and] at hlexeme
    rw [hlexeme]
    rfl

/-! ## Cutting a run -/

namespace Lexes

/-- The text of the first tokens lexes to these tokens, placed anew. The induction is over the run
of the lexer. -/
theorem take {p : Position} {t : Text} {tokens : List Token}
    (h : Lexes standard.rules p t tokens) (n : Nat) (q : Position) :
    Lexes standard.rules q (Token.text (tokens.take n))
      (Token.placedFrom q (Token.cutOff (tokens.take n))) := by
  -- The induction is on the number of tokens kept. Only the last one loses what stood behind it.
  induction n generalizing p t tokens q with
  | zero => exact .nil
  | succ n ih =>
    cases tokens with
    | nil => exact .nil
    | cons token tokens =>
      obtain ⟨c, l, hlexeme, hfirst, hrest⟩ := h.uncons
      rw [List.take_succ_cons, Token.text_cons, hlexeme, List.cons_append]
      by_cases hlone : token.lexeme = ['#'] ∧ tokens.take n = []
      · -- Nothing is left behind the hash sign, whatever followed it.
        obtain ⟨hhash, hnil⟩ := hlone
        obtain ⟨rfl, rfl⟩ := List.cons.inj (hlexeme.symm.trans hhash)
        rw [hnil, cutOff_of_firstToken_hash hfirst hhash]
        exact .cons (firstToken_hash_alone q) rfl .nil
      · have hkeep : token.lexeme = ['#'] → tokens.take n ≠ [] := fun hhash hnil =>
          hlone ⟨hhash, hnil⟩
        have hshorter : l ++ Token.text (tokens.take n) <+: l ++ Token.text tokens :=
          (List.prefix_append_right_inj l).2 (Token.text_take_isPrefix tokens n)
        have hbehind : c = '#' → l ++ Token.text (tokens.take n) ≠ [] := by
          rintro rfl hempty
          obtain ⟨rfl, htext⟩ := List.append_eq_nil_iff.1 hempty
          refine hkeep hlexeme (Token.eq_nil_of_text_eq_nil (fun u hu => ?_) htext)
          exact hrest.lexeme_ne_nil u (List.mem_of_mem_take hu)
        rw [Token.cutOff_cons hkeep, Token.placedFrom]
        have hfound :=
          firstToken_of_isPrefix hfirst hlexeme (List.prefix_append l _) hshorter hbehind q
        refine .cons hfound ?_ (ih hrest _)
        rw [hlexeme, List.cons_append]

end Lexes

/-! ## Slices -/

theorem Lexes.bracket_of_hash {p : Position} {t : Text} {before after : List Token}
    {token : Token} (h : Lexes standard.rules p t (before ++ token :: after))
    (hhash : token.is .punctuation ['#'] = true) : ∃ u, Token.text after = '[' :: u := by
  rw [Token.is, Bool.and_eq_true, beq_iff_eq, beq_iff_eq] at hhash
  obtain ⟨c, l, hlexeme, hfirst, -⟩ := h.behind.uncons
  obtain ⟨rfl, rfl⟩ := List.cons.inj (hlexeme.symm.trans hhash.2)
  rw [List.nil_append] at hfirst
  rcases firstToken_hash _ (Token.text after) with ⟨u, hu, -⟩ | hcomment
  · exact ⟨u, hu⟩
  · rw [hcomment, Except.ok.injEq] at hfirst
    subst hfirst
    cases hhash.1

end Lexer

/-- The text of a slice of the tokens of a source lexes to this slice, placed from the start on.
Only a hash sign at the end of the slice comes back as a comment, where it was none because of the
square bracket behind it. -/
theorem lex_text_extract {source : Text} {tokens : List Token} (h : lex source = .ok tokens) :
    (∀ i j, lex (Token.text (tokens.extract i j))
      = .ok (Token.placedFrom Position.start (Token.cutOff (tokens.extract i j)))) ∧
    ∀ before token after, tokens = before ++ token :: after →
      token.is .punctuation ['#'] = true → ∃ u, Token.text after = '[' :: u := by
  have hrun := Lexer.tokenizeFrom_eq_ok_iff.1 h
  constructor
  · intro i j
    rw [← List.take_append_drop i tokens] at hrun
    exact Lexer.tokenizeFrom_eq_ok_iff.2 (hrun.behind.take (j - i) Position.start)
  · rintro before token after rfl hhash
    exact hrun.bracket_of_hash hhash

/-- The hash sign of an attribute is no comment in its source, but it is one where a slice ends. -/
theorem lex_text_extract_attribute :
    ∃ tokens, lex "$x #[A]".toList = .ok tokens ∧
      tokens.map Token.kind = [.variableName, .whitespace, .punctuation, .punctuation, .identifier,
        .punctuation] ∧
      lex " #".toList = .ok [⟨.whitespace, [' '], ⟨1, 1, 0⟩⟩, ⟨.comment, ['#'], ⟨1, 2, 1⟩⟩] ∧
      lex "[A]".toList = .ok (Token.placedFrom Position.start (tokens.drop 3)) := by
  obtain ⟨tokens, h, hkinds, hhash, hrest, hcut⟩ :
      ∃ tokens, lex "$x #[A]".toList = .ok tokens ∧
        tokens.map Token.kind = [.variableName, .whitespace, .punctuation, .punctuation,
          .identifier, .punctuation] ∧
        tokens.extract 1 3 = [⟨.whitespace, [' '], ⟨1, 3, 2⟩⟩, ⟨.punctuation, ['#'], ⟨1, 4, 3⟩⟩] ∧
        Token.text (tokens.extract 3 6) = "[A]".toList ∧
        Token.cutOff (tokens.extract 3 6) = tokens.drop 3 :=
    ⟨_, rfl, rfl, rfl, rfl, rfl⟩
  obtain ⟨hslices, -⟩ := lex_text_extract h
  refine ⟨tokens, h, hkinds, ?_, ?_⟩
  · have hslice := hslices 1 3
    rw [hhash] at hslice
    exact hslice
  · rw [← hrest, ← hcut]
    exact hslices 3 6

end SourceMacros
