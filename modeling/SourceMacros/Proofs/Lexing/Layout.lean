import Mathlib.Data.List.DropRight
import Mathlib.Data.List.Forall2
import SourceMacros.Proofs.Lexing.Reflow
import SourceMacros.Proofs.Token

/-!
# Layout does not change the tokens

A text in another layout has the same significant tokens as before, only that a string over several
lines may have lost white space (`Lexer.Lexes.relaid`). So formatted code, and code with a generated
comment in it, still has the tokens of the code (`layout_keeps_tokens`).

Where white space is gone altogether the two texts get out of step, and so do the positions of their
tokens. What a text spells (`Lexer.Spells`) leaves both out.
-/

namespace SourceMacros

open Text (isWhiteSpace isSolid Relaid EndsLine)

/-! ## What a text spells -/

namespace Lexer

/-- If every rule says the like about two texts, the first tokens are alike, and so is what follows
them. A token may differ only in how its white space is laid out, or if it is trivia. -/
theorem firstToken_of_alike {rules : List LexRule} {c : Char} {t u : Text} {p q : Position}
    {token : Token}
    (halike : ∀ r ∈ rules, Scan.Alike (c :: t) (c :: u) (r.scan (c :: t)) (r.scan (c :: u)))
    (h : firstToken p c t rules = .ok token) :
    ∃ token' rest rest', firstToken q c u rules = .ok token' ∧ c :: t = token.lexeme ++ rest ∧
      c :: u = token'.lexeme ++ rest' ∧ Relaid rest rest' ∧ token'.kind = token.kind ∧
      (token.isTrivia = true ∨ token.unplaced.Reflowed token'.unplaced) := by
  induction rules with
  | nil => cases h
  | cons r rules ih =>
    rw [List.forall_mem_cons] at halike
    have hlater := ih halike.2
    unfold firstToken at h ⊢
    by_cases hquick : r.quickCheck c = some false
    · rw [if_pos hquick] at h ⊢
      exact hlater h
    · rw [if_neg hquick] at h ⊢
      have hscan := halike.1
      generalize r.scan (c :: t) = x at h hscan
      generalize r.scan (c :: u) = y at hscan ⊢
      cases hscan with
      | declined => exact hlater h
      | unterminated what s => cases h
      | @found kind l l' rest rest' ht hu hrest hnil htoken =>
        cases l with
        | nil =>
          obtain rfl := hnil.2 rfl
          exact hlater h
        | cons d l =>
          cases l' with
          | nil => exact absurd (hnil.1 rfl) (List.cons_ne_nil d l)
          | cons d' l' =>
            simp only [Except.ok.injEq] at h
            subst h
            exact ⟨_, rest, rest', rfl, ht, hu, hrest, rfl, htoken⟩

/-- Which token comes first does not depend on the position. -/
theorem firstToken_placed {p : Position} {c : Char} {t : Text} {rules : List LexRule}
    {token : Token} (h : firstToken p c t rules = .ok token) (q : Position) :
    firstToken q c t rules = .ok { token with position := q } := by
  induction rules with
  | nil => cases h
  | cons r rules ih =>
    unfold firstToken at h ⊢
    split at h
    · next hquick =>
      rw [if_pos hquick]
      exact ih h
    · next hquick =>
      rw [if_neg hquick]
      split at h
      · exact ih h
      · exact ih h
      · simp only [Except.ok.injEq] at h
        subst h
        rfl
      · cases h

/-- At a blank character the first token is the whole run of white space. -/
theorem firstToken_blank (p : Position) {c : Char} (hc : isWhiteSpace c = true) (t : Text) :
    firstToken p c t standard.rules
      = .ok ⟨.whitespace, (c :: t).takeWhile isWhiteSpace, p⟩ := by
  have hne : ∀ d, isSolid d = true → (c == d) = false := by
    intro d hd
    refine beq_false_of_ne ?_
    rintro rfl
    simp [isSolid, hc] at hd
  have hword : isWordStart c = false :=
    Bool.eq_false_iff.2 fun h => by simpa [isSolid, hc] using isSolid_of_isWordStart c h
  have hdigit : isAsciiDigit c = false :=
    Bool.eq_false_iff.2 fun h => by simpa [isSolid, hc] using isSolid_of_isAsciiDigit c h
  have hrules : standard.rules = LexRule.standard := rfl
  have hrun : (c :: t).takeWhile isWhiteSpace = c :: t.takeWhile isWhiteSpace :=
    List.takeWhile_cons_of_pos hc
  -- No rule but the one for white space lets its lexeme start with `c`.
  simp [hrules, LexRule.standard, firstToken, LexRule.quickCheck, hne '<' rfl, hne '?' rfl,
    hne '/' rfl, hne '#' rfl, hne '"' rfl, hne '\x27' rfl, hne '$' rfl, hword, hdigit, hc,
    LexRule.scan, LexRule.scanWhitespace, hrun]

/-- A run of white space is one token, with the text trimmed behind it. -/
theorem firstToken_of_blank {p : Position} {c : Char} {t rest : Text} {token : Token}
    (hc : isWhiteSpace c = true) (hfirst : firstToken p c t standard.rules = .ok token)
    (hsplit : c :: t = token.lexeme ++ rest) :
    token.isTrivia = true ∧ rest = Text.trimStart (c :: t) := by
  rw [firstToken_blank p hc, Except.ok.injEq] at hfirst
  subst hfirst
  refine ⟨rfl, List.append_cancel_left (hsplit.symm.trans ?_)⟩
  exact List.takeWhile_append_dropWhile.symm

/-- From any position on, the significant tokens of the text are these, trivia and positions aside.
-/
def Spells (t : Text) (bare : List Token) : Prop :=
  ∀ p, ∃ tokens, Lexes standard.rules p t tokens ∧ Token.bare tokens = bare

theorem bare_singleton_placed (token : Token) (q : Position) :
    Token.bare [{ token with position := q }] = Token.bare [token] := by
  rw [Token.bare, Token.bare, List.filter_cons, List.filter_cons]
  -- Neither the test nor what is kept looks at the position.
  cases h : token.isSignificant with
  | true =>
    have h' : Token.isSignificant { token with position := q } = true := h
    rw [if_pos h', if_pos rfl]
    rfl
  | false =>
    have h' : ¬ Token.isSignificant { token with position := q } = true :=
      Bool.eq_false_iff.1 h
    rw [if_neg h', if_neg Bool.false_ne_true]

namespace Spells

variable {c : Char} {t u rest : Text} {token : Token} {bare : List Token}

theorem nil : Spells [] [] :=
  fun _ => ⟨[], .nil, rfl⟩

/-- A token in front of a text. -/
theorem cons (h : Spells rest bare)
    (hfirst : ∀ p, firstToken p c t standard.rules = .ok { token with position := p })
    (hsplit : c :: t = token.lexeme ++ rest) : Spells (c :: t) (Token.bare [token] ++ bare) := by
  intro p
  obtain ⟨tokens, hrun, rfl⟩ := h (p.after token.lexeme)
  refine ⟨{ token with position := p } :: tokens, .cons (hfirst p) hsplit hrun, ?_⟩
  rw [Token.bare_cons, bare_singleton_placed]

theorem of_lexes {p : Position} {tokens : List Token} (h : Lexes standard.rules p t tokens) :
    Spells t (Token.bare tokens) := by
  induction h with
  | nil => exact nil
  | cons hfirst hsplit _ ih =>
    rw [Token.bare_cons]
    exact ih.cons (firstToken_placed hfirst) hsplit

/-- A text that spells tokens lexes, to these tokens up to trivia and positions. -/
theorem lex_eq_ok (h : Spells t bare) :
    ∃ tokens, lex t = .ok tokens ∧ Token.bare tokens = bare := by
  obtain ⟨tokens, hrun, hbare⟩ := h Position.start
  exact ⟨tokens, tokenizeFrom_eq_ok_iff.2 hrun, hbare⟩

/-- White space at the start of a text is trivia. -/
theorem of_trimStart (h : Spells t.trimStart bare) : Spells t bare := by
  cases t with
  | nil => exact h
  | cons c t =>
    by_cases hc : isWhiteSpace c = true
    · let blanks : Token := .synthetic .whitespace ((c :: t).takeWhile isWhiteSpace)
      have hfirst : ∀ p, firstToken p c t standard.rules = .ok { blanks with position := p } :=
        fun p => firstToken_blank p hc t
      exact h.cons hfirst List.takeWhile_append_dropWhile.symm
    · rwa [Text.trimStart, List.dropWhile_cons_of_neg hc] at h

theorem trimStart (h : Spells t bare) : Spells t.trimStart bare := by
  obtain ⟨tokens, hrun, rfl⟩ := h Position.start
  cases hrun with
  | nil => exact nil
  | @cons _ c t rest token tokens hfirst hsplit hrest =>
    by_cases hc : isWhiteSpace c = true
    · obtain ⟨htrivia, rfl⟩ := firstToken_of_blank hc hfirst hsplit
      rw [Token.bare_cons, Token.bare_singleton_of_trivia htrivia]
      exact of_lexes hrest
    · rw [Text.trimStart, List.dropWhile_cons_of_neg hc]
      exact h

theorem prepend_blanks {blanks : Text} (hblanks : ∀ c ∈ blanks, isWhiteSpace c = true)
    (h : Spells t bare) : Spells (blanks ++ t) bare := by
  refine of_trimStart ?_
  rw [Text.trimStart, List.dropWhile_append_of_pos hblanks]
  exact h.trimStart

/-- A line comment in front of a line is trivia. -/
theorem prepend_comment {comment : Text} (hslashes : comment.startsWith ['/', '/'] = true)
    (hline : '\n' ∉ comment) (h : Spells t bare) (hend : EndsLine t) :
    Spells (comment ++ t) bare := by
  obtain ⟨body, rfl⟩ := Text.startsWith_iff_isPrefix.1 hslashes
  have hbody : ∀ c ∈ body, (c != '\n') = true := by
    intro c hc
    refine bne_iff_ne.2 ?_
    rintro rfl
    exact hline (List.mem_append_right _ hc)
  have hstop : t.takeWhile (· != '\n') = [] := by
    rcases hend.cases with rfl | ⟨u, rfl⟩
    · rfl
    · exact List.takeWhile_cons_of_neg (by decide)
  have hrun : (body ++ t).takeWhile (· != '\n') = body := by
    rw [List.takeWhile_append_of_pos hbody, hstop, List.append_nil]
  let token : Token := .synthetic .comment ('/' :: '/' :: body)
  have hfirst : ∀ p, firstToken p '/' ('/' :: (body ++ t)) standard.rules
      = .ok { token with position := p } := by
    intro p
    have hfound : firstToken p '/' ('/' :: (body ++ t)) standard.rules
        = .ok ⟨.comment, '/' :: '/' :: (body ++ t).takeWhile (· != '\n'), p⟩ := rfl
    rw [hfound, hrun]
    rfl
  exact h.cons hfirst rfl

theorem firstToken_openTag (p : Position) (t : Text) :
    firstToken p '<' ('?' :: 'p' :: 'h' :: 'p' :: t) standard.rules
      = .ok ⟨.tag, ['<', '?', 'p', 'h', 'p'], p⟩ :=
  rfl

/-- A comment behind the opening tag, or at the top, leaves the significant tokens as they are. -/
theorem insertComment {comment : Text} (hslashes : comment.startsWith ['/', '/'] = true)
    (hline : '\n' ∉ comment) (h : Spells t bare) : Spells (t.insertComment comment) bare := by
  unfold Text.insertComment
  have hfeed : ∀ c ∈ ['\n'], isWhiteSpace c = true := by simpa using Text.isWhiteSpace_lineFeed
  have hfeeds : ∀ c ∈ ['\n', '\n'], isWhiteSpace c = true := by
    simpa using Text.isWhiteSpace_lineFeed
  cases htag : Text.after? Text.openTag t with
  | none =>
    have hcode := h.prepend_blanks hfeeds
    have hall := hcode.prepend_comment hslashes hline (Text.endsLine_lineFeed _)
    rwa [← List.append_assoc] at hall
  | some rest =>
    have htext := Text.after?_eq_some_iff.1 htag
    have hopen : Text.openTag = ['<', '?', 'p', 'h', 'p'] := rfl
    rw [hopen] at htext ⊢
    subst htext
    obtain ⟨tokens, hrun, rfl⟩ := h Position.start
    -- The opening tag is the first token, before and after.
    cases hrun with
    | @cons _ _ _ behind token tokens hfirst hsplit hrest =>
      have htoken := hfirst.symm.trans (firstToken_openTag _ rest)
      rw [Except.ok.injEq] at htoken
      subst htoken
      have hsplit' : ['<', '?', 'p', 'h', 'p'] ++ rest = ['<', '?', 'p', 'h', 'p'] ++ behind :=
        hsplit
      obtain rfl := List.append_cancel_left hsplit'
      have hcode := (of_lexes hrest).prepend_blanks hfeed
      have hcomment := hcode.prepend_comment hslashes hline (Text.endsLine_lineFeed _)
      rw [Token.bare_cons, List.append_assoc, List.append_assoc]
      exact (hcomment.prepend_blanks hfeeds).cons (fun p => firstToken_openTag p _) rfl

end Spells

/-! ## Texts that differ in layout -/

/-- Two tokens that are alike leave behind bare tokens that are reflowed, one for one. -/
theorem forall₂_bare_singleton {t u : Token} (hkind : u.kind = t.kind)
    (h : t.isTrivia = true ∨ t.unplaced.Reflowed u.unplaced) :
    List.Forall₂ Token.Reflowed (Token.bare [t]) (Token.bare [u]) := by
  have hsame : u.isTrivia = t.isTrivia := by rw [Token.isTrivia, hkind, Token.isTrivia]
  cases htrivia : t.isTrivia with
  | true =>
    rw [Token.bare_singleton_of_trivia htrivia,
      Token.bare_singleton_of_trivia (hsame.trans htrivia)]
    exact .nil
  | false =>
    have hreflowed := h.resolve_left (Bool.eq_false_iff.1 htrivia)
    rw [Token.bare_singleton_of_significant (by rw [Token.isSignificant, htrivia]; rfl),
      Token.bare_singleton_of_significant (by rw [Token.isSignificant, hsame, htrivia]; rfl)]
    exact .cons hreflowed .nil

/-- A text that differs from another in layout only spells the same tokens, up to white space in
strings over several lines. -/
theorem Lexes.relaid {p : Position} {t u : Text} {tokens : List Token}
    (h : Lexes standard.rules p t tokens) (hrelaid : Relaid t.trimStart u.trimStart) :
    ∃ bare, Spells u bare ∧ List.Forall₂ Token.Reflowed (Token.bare tokens) bare := by
  induction h generalizing u with
  | nil =>
    have hempty : u.trimStart = [] := by
      cases hu : u.trimStart with
      | nil => rfl
      | cons c v =>
        rw [hu] at hrelaid
        have hblank := hrelaid.all_blank nofun c List.mem_cons_self
        have hnot := List.head?_dropWhile_not isWhiteSpace u
        rw [← Text.trimStart, hu] at hnot
        simp [hblank] at hnot
    refine ⟨[], Spells.of_trimStart ?_, .nil⟩
    rw [hempty]
    exact .nil
  | @cons p c t rest token tokens hfirst hsplit _ ih =>
    rw [Token.bare_cons]
    by_cases hc : isWhiteSpace c = true
    · -- A run of white space says nothing about the new text: the same run is set aside there.
      obtain ⟨htrivia, rfl⟩ := firstToken_of_blank hc hfirst hsplit
      rw [Token.bare_singleton_of_trivia htrivia]
      refine ih ?_
      rw [Text.trimStart, Text.trimStart, List.dropWhile_idempotent]
      exact hrelaid
    · have hsolid : isWhiteSpace c = false := Bool.eq_false_iff.2 hc
      rw [Text.trimStart, List.dropWhile_cons_of_neg hc] at hrelaid
      obtain ⟨v, hv, htail⟩ := hrelaid.uncons hsolid
      obtain ⟨token', rest₀, rest', hfirst', hsplit₀, hsplit', hrest, hkind, htoken⟩ :=
        firstToken_of_alike (q := p)
          (fun r hr => LexRule.scan_alike hr (by simp [isSolid, hsolid]) htail) hfirst
      obtain rfl : rest₀ = rest := List.append_cancel_left (hsplit₀.symm.trans hsplit)
      obtain ⟨bare, hspells, hsame⟩ := ih hrest.trimStart
      refine ⟨Token.bare [token'] ++ bare, Spells.of_trimStart ?_, ?_⟩
      · rw [hv]
        exact hspells.cons (firstToken_placed hfirst') hsplit'
      · exact List.rel_append (forall₂_bare_singleton hkind htoken) hsame

end Lexer

/-- A text that lexes still does after formatting, and its bare tokens are reflowed at most. -/
theorem lex_format {code : Text} {tokens : List Token} (h : lex code = .ok tokens) :
    ∃ formatted, lex code.format = .ok formatted ∧
      List.Forall₂ Token.Reflowed (Token.bare tokens) (Token.bare formatted) := by
  obtain ⟨bare, hspells, hsame⟩ :=
    (Lexer.tokenizeFrom_eq_ok_iff.1 h).relaid (Text.format_relaid code)
  obtain ⟨formatted, hlex, rfl⟩ := hspells.lex_eq_ok
  exact ⟨formatted, hlex, hsame⟩

/-- Only strings over several lines can lose anything. -/
theorem bare_eq_of_reflowed {tokens formatted : List Token}
    (h : List.Forall₂ Token.Reflowed (Token.bare tokens) (Token.bare formatted))
    (hstrings : ∀ token ∈ tokens, token.kind = .string → '\n' ∉ token.lexeme) :
    Token.bare formatted = Token.bare tokens := by
  have hmem : ∀ t ∈ Token.bare tokens, t.kind = .string → '\n' ∉ t.lexeme := by
    intro t ht
    obtain ⟨token, htoken, rfl⟩ := List.mem_map.1 ht
    exact hstrings token (List.mem_of_mem_filter htoken)
  have hplaced : ∀ ts, (Token.bare ts).map Token.unplaced = Token.bare ts := by
    intro ts
    rw [Token.bare, List.map_map]
    rfl
  rw [← hplaced formatted, ← hplaced tokens]
  generalize Token.bare tokens = ts at h hmem
  generalize Token.bare formatted = us at h
  induction h with
  | nil => rfl
  | @cons t u ts us hsame _ ih =>
    rw [List.forall_mem_cons] at hmem
    have hlexeme : u.lexeme = t.lexeme := by
      rcases hsame.lexeme with heq | ⟨hfeed, -⟩
      · exact heq
      · exact hsame.lexeme_eq fun hkind => hmem.1 hkind hfeed
    rw [List.map_cons, List.map_cons, ih hmem.2,
      Token.unplaced_eq_iff.2 ⟨hsame.kind_eq, hlexeme⟩]

/-- The layout passes keep the tokens of the code. Code that lexes still lexes once a line comment
is put into it, once it is formatted, and once both are done. Its significant tokens are then the
same in the same order, except that formatting may take white space out of a string over several
lines; so they are exactly the same where no string has a line feed in it. -/
theorem layout_keeps_tokens {code comment : Text} {tokens : List Token} (h : lex code = .ok tokens)
    (hslashes : comment.startsWith "//".toList = true) (hline : '\n' ∉ comment) :
    (∃ commented, lex (code.insertComment comment) = .ok commented ∧
      Token.bare commented = Token.bare tokens) ∧
    (∃ formatted, lex code.format = .ok formatted ∧
      List.Forall₂ Token.Reflowed (Token.bare tokens) (Token.bare formatted)) ∧
    (∃ finished, lex (code.insertComment comment).format = .ok finished ∧
      List.Forall₂ Token.Reflowed (Token.bare tokens) (Token.bare finished)) ∧
    ((∀ token ∈ tokens, token.kind = .string → '\n' ∉ token.lexeme) →
      ∀ text ∈ [code.format, (code.insertComment comment).format],
        ∃ after, lex text = .ok after ∧ Token.bare after = Token.bare tokens) := by
  have hspells := Lexer.Spells.of_lexes (Lexer.tokenizeFrom_eq_ok_iff.1 h)
  obtain ⟨commented, hcommented, hbare⟩ := (hspells.insertComment hslashes hline).lex_eq_ok
  obtain ⟨formatted, hformatted, hsame⟩ := lex_format h
  obtain ⟨finished, hfinished, hsame'⟩ := lex_format hcommented
  rw [hbare] at hsame'
  refine ⟨⟨commented, hcommented, hbare⟩, ⟨formatted, hformatted, hsame⟩,
    ⟨finished, hfinished, hsame'⟩, fun hstrings text htext => ?_⟩
  rcases List.mem_pair.1 htext with rfl | rfl
  · exact ⟨formatted, hformatted, bare_eq_of_reflowed hsame hstrings⟩
  · exact ⟨finished, hfinished, bare_eq_of_reflowed hsame' hstrings⟩

/-- Blanks behind a statement and blank lines go; a string keeps its two lines but not the blank at
the end of the first, although a backslash escapes it. -/
theorem layout_keeps_tokens_string :
    ∃ (code : Text) (tokens finished : List Token), lex code = .ok tokens ∧
      lex (code.insertComment "// made".toList).format = .ok finished ∧
      (Token.bare tokens).map Token.lexeme = ["<?php".toList, "$x".toList, "'\\ \n\tb'".toList] ∧
      (Token.bare finished).map Token.lexeme = ["<?php".toList, "$x".toList, "'\\\n\tb'".toList] ∧
      List.Forall₂ Token.Reflowed (Token.bare tokens) (Token.bare finished) := by
  obtain ⟨code, tokens, finished, h, hfinished, hbefore, hafter⟩ :
      ∃ (code : Text) (tokens finished : List Token), lex code = .ok tokens ∧
        lex (code.insertComment "// made".toList).format = .ok finished ∧
        (Token.bare tokens).map Token.lexeme
          = ["<?php".toList, "$x".toList, "'\\ \n\tb'".toList] ∧
        (Token.bare finished).map Token.lexeme
          = ["<?php".toList, "$x".toList, "'\\\n\tb'".toList] :=
    ⟨"<?php $x '\\ \n\tb'  \n\n\n# end ".toList, _, _, rfl, rfl, rfl, rfl⟩
  obtain ⟨-, -, ⟨finished', hfinished', hsame⟩, -⟩ :=
    layout_keeps_tokens h (show Text.startsWith "// made".toList "//".toList = true by decide)
      (by decide)
  obtain rfl : finished = finished' := Except.ok.inj (hfinished.symm.trans hfinished')
  exact ⟨code, tokens, finished, h, hfinished, hbefore, hafter, hsame⟩

end SourceMacros
