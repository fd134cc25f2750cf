import Mathlib.Data.List.Infix
import SourceMacros.Lexing.Lexer
import SourceMacros.Proofs.Text.Offsets

/-!
# Lexing loses nothing

Whatever a lexing rule finds is a front of the text it was given (`LexRule.scan_isPrefix`), and the
lexer goes on directly behind it. So the lexemes of a source, one after the other, are the source
(`Lexer.text_tokenize`), for any list of rules in any order.
-/

namespace SourceMacros

/-! ## What a rule finds is a front of the text -/

/-- What is read up to the end of a block comment stands in front of the text. -/
theorem throughBlockEnd_isPrefix {t body : Text} (h : throughBlockEnd t = some body) :
    body <+: t := by
  induction t using throughBlockEnd.induct generalizing body with
  | case1 => cases h
  | case2 t =>
    simp only [throughBlockEnd, Option.some.injEq] at h
    exact ⟨t, by rw [← h]; rfl⟩
  | case3 c t hne ih =>
    rw [throughBlockEnd.eq_3 _ _ hne] at h
    obtain ⟨inner, hinner, rfl⟩ := Option.map_eq_some_iff.1 h
    exact List.prefix_cons_inj c |>.2 (ih hinner)

theorem throughQuote_isPrefix {quote : Char} {t body : Text}
    (h : throughQuote quote t = some body) : body <+: t := by
  fun_induction throughQuote quote t generalizing body with
  | case1 => cases h
  | case2 => cases h
  | case3 c t ih =>
    obtain ⟨inner, hinner, rfl⟩ := Option.map_eq_some_iff.1 h
    exact List.prefix_cons_inj _ |>.2 (List.prefix_cons_inj c |>.2 (ih hinner))
  | case4 t =>
    simp only [Option.some.injEq] at h
    exact ⟨t, by rw [← h]; rfl⟩
  | case5 c t _ _ hquote ih =>
    obtain ⟨inner, hinner, rfl⟩ := Option.map_eq_some_iff.1 h
    exact List.prefix_cons_inj c |>.2 (ih hinner)

theorem fraction_isPrefix (t : Text) : fraction t <+: t := by
  unfold fraction
  split
  · split
    · exact List.prefix_cons_inj _ |>.2 (List.takeWhile_prefix _)
    · exact List.nil_prefix
  · exact List.nil_prefix

namespace LexRule

theorem scanOneOf_isPrefix {kind found : TokenKind} {texts : List Text} {t lexeme : Text}
    (h : scanOneOf kind texts t = .found found lexeme) : lexeme <+: t := by
  unfold scanOneOf at h
  split at h
  · next front hfind =>
    simp only [Scan.found.injEq] at h
    rw [← h.2]
    exact Text.startsWith_iff_isPrefix.1 (List.find?_some hfind)
  · cases h

/-- A comment stands in front of the text, whichever of its four forms it has. -/
theorem scanComment_isPrefix {kind : TokenKind} {t lexeme : Text}
    (h : scanComment t = .found kind lexeme) : lexeme <+: t := by
  unfold scanComment at h
  split at h
  · split at h
    · next body hbody =>
      simp only [Scan.found.injEq] at h
      rw [← h.2]
      have htail := throughBlockEnd_isPrefix hbody
      exact List.prefix_cons_inj _ |>.2 (List.prefix_cons_inj _ |>.2 htail)
    · cases h
  · simp only [Scan.found.injEq] at h
    rw [← h.2]
    exact List.takeWhile_prefix _
  · cases h
  · simp only [Scan.found.injEq] at h
    rw [← h.2]
    exact List.takeWhile_prefix _
  · cases h

theorem scanString_isPrefix {kind : TokenKind} {t lexeme : Text}
    (h : scanString t = .found kind lexeme) : lexeme <+: t := by
  unfold scanString at h
  split at h
  · cases h
  · split at h
    · split at h
      · next body hbody =>
        simp only [Scan.found.injEq] at h
        rw [← h.2]
        exact List.prefix_cons_inj _ |>.2 (throughQuote_isPrefix hbody)
      · cases h
    · cases h

theorem scanVariable_isPrefix {kind : TokenKind} {t lexeme : Text}
    (h : scanVariable t = .found kind lexeme) : lexeme <+: t := by
  unfold scanVariable at h
  split at h
  · split at h
    · simp only [Scan.found.injEq] at h
      rw [← h.2]
      exact List.prefix_cons_inj _ |>.2 (List.takeWhile_prefix _)
    · cases h
  · cases h

theorem scanNumber_isPrefix {kind : TokenKind} {t lexeme : Text}
    (h : scanNumber t = .found kind lexeme) : lexeme <+: t := by
  unfold scanNumber at h
  split at h
  · cases h
  · next c t =>
    split at h
    · simp only [Scan.found.injEq] at h
      rw [← h.2]
      conv => rhs; rw [← (c :: t).takeWhile_append_dropWhile (p := isAsciiWordChar)]
      exact (List.prefix_append_right_inj _).2 (fraction_isPrefix _)
    · cases h

theorem scanWord_isPrefix {kind : TokenKind} {t lexeme : Text}
    (h : scanWord t = .found kind lexeme) : lexeme <+: t := by
  unfold scanWord at h
  split at h
  · cases h
  · split at h
    · simp only [Scan.found.injEq] at h
      rw [← h.2]
      exact List.takeWhile_prefix _
    · cases h

theorem scanWhitespace_isPrefix {kind : TokenKind} {t lexeme : Text}
    (h : scanWhitespace t = .found kind lexeme) : lexeme <+: t := by
  unfold scanWhitespace at h
  split at h
  · cases h
  · next c run hrun =>
    simp only [Scan.found.injEq] at h
    rw [← h.2, ← hrun]
    exact List.takeWhile_prefix _

theorem scanPunctuation_isPrefix {kind : TokenKind} {t lexeme : Text}
    (h : scanPunctuation t = .found kind lexeme) : lexeme <+: t := by
  unfold scanPunctuation at h
  split at h
  · next op _ hfind =>
    simp only [Scan.found.injEq] at h
    rw [← h.2]
    exact Text.startsWith_iff_isPrefix.1 (List.find?_some hfind)
  · cases h
  · next c t _ =>
    split at h
    · simp only [Scan.found.injEq] at h
      rw [← h.2]
      exact ⟨t, rfl⟩
    · cases h

/-- A lexeme is a front of the text it was found in. -/
theorem scan_isPrefix (r : LexRule) {kind : TokenKind} {t lexeme : Text}
    (h : r.scan t = .found kind lexeme) : lexeme <+: t := by
  cases r with
  | tag => exact scanOneOf_isPrefix h
  | comment => exact scanComment_isPrefix h
  | string => exact scanString_isPrefix h
  | variableName => exact scanVariable_isPrefix h
  | number => exact scanNumber_isPrefix h
  | word => exact scanWord_isPrefix h
  | whitespace => exact scanWhitespace_isPrefix h
  | punctuation => exact scanPunctuation_isPrefix h
  | literal text found priority => exact scanOneOf_isPrefix h

end LexRule

/-! ## The lexer goes on behind each lexeme -/

namespace Lexer

/-- The next token is a front of the text and not empty. -/
theorem firstToken_isPrefix {p : Position} {c : Char} {t : Text} {rules : List LexRule}
    {token : Token} (h : firstToken p c t rules = .ok token) :
    token.lexeme <+: c :: t ∧ token.lexeme ≠ [] := by
  induction rules with
  | nil => cases h
  | cons r rules ih =>
    unfold firstToken at h
    split at h
    · exact ih h
    · split at h
      · exact ih h
      · exact ih h
      · next kind d lexeme hscan =>
        simp only [Except.ok.injEq] at h
        rw [← h]
        exact ⟨r.scan_isPrefix hscan, List.cons_ne_nil _ _⟩
      · cases h

/-- The lexemes found from a place on are the text there, less the characters of a token found
before. -/
theorem text_tokenizeFrom {rules : List LexRule} {pending : Nat} {p : Position} {t : Text}
    {tokens : List Token} (h : tokenizeFrom rules pending p t = .ok tokens) :
    Token.text tokens = t.drop pending := by
  induction t generalizing pending p tokens with
  | nil =>
    simp only [tokenizeFrom, Except.ok.injEq] at h
    rw [← h, Token.text_nil, List.drop_nil]
  | cons c t ih =>
    cases pending with
    | succ pending =>
      simp only [tokenizeFrom] at h
      rw [ih h, List.drop_succ_cons]
    | zero =>
      unfold tokenizeFrom at h
      split at h
      · cases h
      · next token hfirst =>
        split at h
        · cases h
        · next rest hrest =>
          obtain ⟨⟨behind, hsplit⟩, hne⟩ := firstToken_isPrefix hfirst
          simp only [Except.ok.injEq] at h
          rw [← h, Token.text_cons, ih hrest, List.drop_zero]
          -- The rest of the lexeme is pending, so what follows is what stands behind the lexeme.
          cases hlexeme : token.lexeme with
          | nil => exact absurd hlexeme hne
          | cons d lexeme =>
            rw [hlexeme, List.cons_append, List.cons.injEq] at hsplit
            rw [List.length_cons, Nat.add_sub_cancel, ← hsplit.1, ← hsplit.2, List.drop_left,
              List.cons_append]

/-- No character is lost: the lexemes are the source. -/
theorem text_tokenize {l : Lexer} {source : Text} {tokens : List Token}
    (h : l.tokenize source = .ok tokens) : Token.text tokens = source :=
  text_tokenizeFrom h

end Lexer

theorem text_lex {source : Text} {tokens : List Token} (h : lex source = .ok tokens) :
    Token.text tokens = source :=
  Lexer.text_tokenize h

end SourceMacros
