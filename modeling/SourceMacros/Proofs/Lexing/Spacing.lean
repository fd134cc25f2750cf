import SourceMacros.Proofs.Lexing.Kinds
import SourceMacros.Proofs.Lexing.Layout
import SourceMacros.Proofs.Lexing.Relexing

/-!
# Tokens with spaces between them

Write the significant tokens of a source with single spaces between them. Each token is found there
as it was found in the source: what a rule reads behind a lexeme is white space now, and no rule
goes on over that (`FoundBefore.of_lexes`). There is one exception. The hash sign of an attribute is
a token of its own only because of the square bracket directly behind it, so with a space there it
opens a comment, which takes the rest of the line.
-/

namespace SourceMacros

open Text (isWhiteSpace isSolid)

/-- The text is at its end, or goes on with white space. -/
def Text.Parts (t : Text) : Prop :=
  ∀ c ∈ t.head?, isWhiteSpace c = true

/-- A literal that is closed does not depend on what follows. -/
theorem throughQuote_append {quote : Char} {t body : Text} (h : throughQuote quote t = some body)
    (rest : Text) : throughQuote quote (t ++ rest) = some body := by
  fun_induction throughQuote quote t generalizing body with
  | case1 => cases h
  | case2 => cases h
  | case3 c t ih =>
    obtain ⟨inner, hinner, rfl⟩ := Option.map_eq_some_iff.1 h
    rw [List.cons_append, List.cons_append, throughQuote_escape, ih hinner]
    rfl
  | case4 t hsingle hpair =>
    have hquote := ne_backslash_of_forall hsingle hpair
    rw [List.cons_append, throughQuote_cons hquote, if_pos rfl, h]
  | case5 c t hsingle hpair hne ih =>
    have hc := ne_backslash_of_forall hsingle hpair
    obtain ⟨inner, hinner, rfl⟩ := Option.map_eq_some_iff.1 h
    rw [List.cons_append, throughQuote_cons hc, if_neg hne, ih hinner]
    rfl

namespace Lexer

variable {p : Position} {c : Char} {t l rest : Text} {token : Token} {rules : List LexRule}

/-! ## The first token at some characters -/

/-- At a quote the first token is a literal, or it is never closed. -/
theorem firstToken_quote (hc : c = '"' ∨ c = '\x27') (p : Position) (t : Text) :
    firstToken p c t standard.rules =
      match throughQuote c t with
      | some body => .ok ⟨.string, c :: body, p⟩
      | none => .error (.unterminated .stringLiteral p) := by
  have hrules : standard.rules = LexRule.standard := rfl
  rcases hc with rfl | rfl <;>
    cases h : throughQuote _ t <;>
      simp [hrules, LexRule.standard, firstToken, LexRule.quickCheck, LexRule.scan,
        LexRule.scanString, h]

theorem firstToken_blockComment (p : Position) (t : Text) :
    firstToken p '/' ('*' :: t) standard.rules =
      match throughBlockEnd t with
      | some body => .ok ⟨.comment, '/' :: '*' :: body, p⟩
      | none => .error (.unterminated .blockComment p) := by
  have hrules : standard.rules = LexRule.standard := rfl
  cases h : throughBlockEnd t <;>
    simp [hrules, LexRule.standard, firstToken, LexRule.quickCheck, LexRule.scan,
      LexRule.scanComment, h]

theorem firstToken_lineComment (p : Position) (t : Text) :
    firstToken p '/' ('/' :: t) standard.rules
      = .ok ⟨.comment, ('/' :: '/' :: t).takeWhile (· != '\n'), p⟩ := by
  rfl

theorem firstToken_bracket (p : Position) (t : Text) :
    firstToken p '[' t standard.rules = .ok ⟨.punctuation, ['['], p⟩ := by
  rfl

/-- Rules that say the same about two texts find the same first token. -/
theorem firstToken_congr (h : ∀ r ∈ rules, r.scan (c :: t) = r.scan (c :: l)) :
    firstToken p c t rules = firstToken p c l rules := by
  induction rules with
  | nil => rfl
  | cons r rules ih =>
    rw [List.forall_mem_cons] at h
    simp only [firstToken, h.1, ih h.2]

/-! ## Tokens in front of white space -/

/-- In front of the text the token is found as it is, at any position. -/
def FoundBefore (token : Token) (rest : Text) : Prop :=
  ∃ c l, token.lexeme = c :: l ∧
    ∀ p, firstToken p c (l ++ rest) standard.rules = .ok { token with position := p }

/-- No token of trivia: it is neither white space nor a comment. -/
theorem kind_ne_of_isSignificant (h : token.isSignificant = true) :
    token.kind ≠ .comment ∧ token.kind ≠ .whitespace := by
  constructor
  all_goals
    intro hkind
    rw [Token.isSignificant, Token.isTrivia, hkind] at h
    cases h

/-- A significant token of a source is found in its lexeme alone, if it is no hash sign. -/
theorem FoundBefore.of_lexes {tokens : List Token} (h : Lexes standard.rules p t tokens)
    (hmem : token ∈ tokens) (hsignificant : token.isSignificant = true)
    (hhash : token.is .punctuation ['#'] = false) : FoundBefore token [] := by
  obtain ⟨before, after, rfl⟩ := List.append_of_mem hmem
  obtain ⟨c, l, hlexeme, hfirst, -⟩ := h.behind.uncons
  refine ⟨c, l, hlexeme, fun q => ?_⟩
  rw [List.append_nil]
  refine firstToken_of_isPrefix hfirst hlexeme List.prefix_rfl (List.prefix_append l _) ?_ q
  rintro rfl rfl
  rcases firstToken_hash _ (Token.text after) with ⟨u, -, hpunct⟩ | hcomment
  · rw [List.nil_append, hpunct, Except.ok.injEq] at hfirst
    rw [← hfirst] at hhash
    cases hhash
  · rw [List.nil_append, hcomment, Except.ok.injEq] at hfirst
    rw [← hfirst] at hsignificant
    cases hsignificant

section Alone

variable (hfirst : ∀ p, firstToken p c l standard.rules = .ok { token with position := p })
  (hsignificant : token.isSignificant = true)

include hfirst hsignificant

theorem isSolid_of_found : isSolid c = true := by
  cases hblank : isWhiteSpace c with
  | false => rw [isSolid, hblank, Bool.not_false]
  | true =>
    have hfound := hfirst Position.start
    rw [firstToken_blank _ hblank, Except.ok.injEq] at hfound
    exact absurd (congrArg Token.kind hfound).symm (kind_ne_of_isSignificant hsignificant).2

theorem ne_hash_of_found (hlexeme : token.lexeme = c :: l) : c ≠ '#' := by
  rintro rfl
  have hfound := hfirst Position.start
  rcases firstToken_hash Position.start l with ⟨u, rfl, hpunct⟩ | hcomment
  · rw [hpunct, Except.ok.injEq] at hfound
    have hsame := (congrArg Token.lexeme hfound).trans hlexeme
    cases hsame
  · rw [hcomment, Except.ok.injEq] at hfound
    exact absurd (congrArg Token.kind hfound).symm (kind_ne_of_isSignificant hsignificant).1

/-- A significant token that starts with a slash does not go on as a comment would. -/
theorem not_comment_of_found (hslash : c = '/') : (∀ v, l ≠ '*' :: v) ∧ ∀ v, l ≠ '/' :: v := by
  subst hslash
  have hfound := hfirst Position.start
  have hcomment := (kind_ne_of_isSignificant hsignificant).1
  constructor
  · rintro v rfl
    rw [firstToken_blockComment] at hfound
    cases hbody : throughBlockEnd v with
    | none =>
      rw [hbody] at hfound
      cases hfound
    | some body =>
      rw [hbody, Except.ok.injEq] at hfound
      exact hcomment (congrArg Token.kind hfound).symm
  · rintro v rfl
    rw [firstToken_lineComment, Except.ok.injEq] at hfound
    exact hcomment (congrArg Token.kind hfound).symm

/-- But for strings, the lexeme of a significant token is solid. -/
theorem isSolid_lexeme_of_found (hlexeme : token.lexeme = c :: l)
    (hquote : ¬ (c = '"' ∨ c = '\x27')) : ∀ d ∈ l, isSolid d = true := by
  obtain ⟨r, hr, hscan⟩ := exists_scan_of_firstToken (hfirst Position.start)
  have hc := isSolid_of_found hfirst hsignificant
  have hkinds := kind_ne_of_isSignificant hsignificant
  have hreads : r.ReadsSolid := by
    have hkind := r.kind_mem_kinds hscan
    have hr' : r ∈ LexRule.standard := hr
    cases r with
    | tag => exact LexRule.tag_readsSolid
    | comment => exact absurd (List.mem_singleton.1 hkind) hkinds.1
    | string =>
      simp only [LexRule.scan, LexRule.scanString] at hscan
      split at hscan
      · next hmark =>
        rw [Bool.or_eq_true, beq_iff_eq, beq_iff_eq] at hmark
        exact absurd hmark hquote
      · cases hscan
    | variableName => exact LexRule.variableName_readsSolid
    | number => exact LexRule.number_readsSolid
    | word => exact LexRule.word_readsSolid
    | whitespace => exact absurd (List.mem_singleton.1 hkind) hkinds.2
    | punctuation => exact LexRule.punctuation_readsSolid
    | literal text kind priority => simp [LexRule.standard] at hr'
  rw [← hreads c l hc] at hscan
  have hread := r.scan_isPrefix hscan
  rw [show Token.lexeme { token with position := Position.start } = c :: l from hlexeme,
    List.prefix_cons_inj] at hread
  exact fun d hd => List.mem_takeWhile_imp (hread.subset hd)

end Alone

/-- In front of white space a text starts with no other solid character than alone. -/
theorem append_ne_cons {d : Char} (hd : isSolid d = true) (h : ∀ u, l ≠ d :: u) (hrest : rest.Parts)
    (u : Text) : l ++ rest ≠ d :: u := by
  intro heq
  cases l with
  | nil =>
    rw [List.nil_append] at heq
    have hblank := hrest d (by rw [heq]; rfl)
    rw [isSolid, hblank] at hd
    cases hd
  | cons e l => exact h l (by rw [(List.cons.inj heq).1])

/-- In front of white space every rule says of a solid lexeme what it says of the lexeme alone. -/
theorem scan_append {r : LexRule} (hr : r ∈ LexRule.standard) (hc : isSolid c = true)
    (hquote : ¬ (c = '"' ∨ c = '\x27')) (hhash : c ≠ '#')
    (hslash : c = '/' → (∀ v, l ≠ '*' :: v) ∧ ∀ v, l ≠ '/' :: v)
    (hl : ∀ d ∈ l, isSolid d = true) (hrest : rest.Parts) :
    r.scan (c :: (l ++ rest)) = r.scan (c :: l) := by
  have hstop : rest.takeWhile isSolid = [] := by
    cases rest with
    | nil => rfl
    | cons d rest =>
      have hd : isWhiteSpace d = true := hrest d rfl
      exact List.takeWhile_cons_of_neg (by simp [isSolid, hd])
  have hsolid (hreads : r.ReadsSolid) : r.scan (c :: (l ++ rest)) = r.scan (c :: l) := by
    rw [← hreads c (l ++ rest) hc, List.takeWhile_append_of_pos hl, hstop, List.append_nil]
  cases r with
  | tag => exact hsolid LexRule.tag_readsSolid
  | comment =>
    by_cases hc : c = '/'
    · obtain ⟨hblock, hline⟩ := hslash hc
      subst hc
      simp only [LexRule.scan]
      rw [LexRule.scanComment_slash hblock hline,
        LexRule.scanComment_slash (append_ne_cons (by decide) hblock hrest)
          (append_ne_cons (by decide) hline hrest)]
    · simp only [LexRule.scan, LexRule.scanComment_of_ne hc hhash]
  | string =>
    have hmark : (c == '"' || c == '\x27') = false := by simpa using hquote
    simp only [LexRule.scan, LexRule.scanString, hmark, Bool.false_eq_true, if_false]
  | variableName => exact hsolid LexRule.variableName_readsSolid
  | number => exact hsolid LexRule.number_readsSolid
  | word => exact hsolid LexRule.word_readsSolid
  | whitespace =>
    have hblank : ¬ isWhiteSpace c = true := by simpa [isSolid] using hc
    simp only [LexRule.scan, LexRule.scanWhitespace, List.takeWhile_cons_of_neg hblank]
  | punctuation => exact hsolid LexRule.punctuation_readsSolid
  | literal text kind priority => simp [LexRule.standard] at hr

/-- A significant token that is found in its lexeme alone is found in front of white space too. -/
theorem FoundBefore.extend (h : FoundBefore token []) (hsignificant : token.isSignificant = true)
    (hrest : rest.Parts) : FoundBefore token rest := by
  obtain ⟨c, l, hlexeme, hfirst⟩ := h
  rw [List.append_nil] at hfirst
  refine ⟨c, l, hlexeme, fun p => ?_⟩
  by_cases hquote : c = '"' ∨ c = '\x27'
  · have hfound := hfirst p
    rw [firstToken_quote hquote] at hfound ⊢
    cases hbody : throughQuote c l with
    | none =>
      rw [hbody] at hfound
      cases hfound
    | some body =>
      rw [hbody] at hfound
      rw [throughQuote_append hbody]
      exact hfound
  · have hsame : ∀ r ∈ standard.rules, r.scan (c :: (l ++ rest)) = r.scan (c :: l) :=
      fun r hr => scan_append hr (isSolid_of_found hfirst hsignificant) hquote
        (ne_hash_of_found hfirst hsignificant hlexeme) (not_comment_of_found hfirst hsignificant)
        (isSolid_lexeme_of_found hfirst hsignificant hlexeme hquote) hrest
    rw [firstToken_congr hsame]
    exact hfirst p

/-- The lexeme of a significant token of a source starts with a character that is no white space. -/
theorem exists_solid {tokens : List Token} (h : Lexes standard.rules p t tokens)
    (hmem : token ∈ tokens) (hsignificant : token.isSignificant = true) :
    ∃ c l, token.lexeme = c :: l ∧ isSolid c = true := by
  cases hhash : token.is .punctuation ['#'] with
  | true =>
    rw [Token.is, Bool.and_eq_true, beq_iff_eq, beq_iff_eq] at hhash
    exact ⟨'#', [], hhash.2, by decide⟩
  | false =>
    obtain ⟨c, l, hlexeme, hfirst⟩ := FoundBefore.of_lexes h hmem hsignificant hhash
    exact ⟨c, l, hlexeme, isSolid_of_found hfirst hsignificant⟩

/-- An opening square bracket is found whatever stands behind it. -/
theorem FoundBefore.of_bracket (h : FoundBefore token []) (hopen : token.lexeme = ['['])
    (rest : Text) : FoundBefore token rest := by
  obtain ⟨c, l, hlexeme, hfirst⟩ := h
  obtain ⟨rfl, rfl⟩ := List.cons.inj (hlexeme.symm.trans hopen)
  refine ⟨'[', [], hopen, fun p => ?_⟩
  rw [← hfirst p, firstToken_bracket, firstToken_bracket]

/-! ## Through the front of a text -/

/-- The lexer goes through the front of the text up to `rest`. It finds these significant tokens
there, with white space between them and no comment. -/
def Leads (t : Text) (bare : List Token) (rest : Text) : Prop :=
  ∀ p, ∃ q before, Token.bare before = bare ∧ (∀ token ∈ before, token.kind ≠ .comment) ∧
    tokenizeFrom standard.rules 0 p t = (tokenizeFrom standard.rules 0 q rest).map (before ++ ·)

namespace Leads

variable {t u v : Text} {bare bare' : List Token}

theorem refl (t : Text) : Leads t [] t := by
  intro p
  refine ⟨p, [], rfl, fun _ h => absurd h List.not_mem_nil, ?_⟩
  cases tokenizeFrom standard.rules 0 p t <;> rfl

theorem trans (h : Leads t bare u) (h' : Leads u bare' v) : Leads t (bare ++ bare') v := by
  intro p
  obtain ⟨q, before, rfl, hbefore, hsplit⟩ := h p
  obtain ⟨r, middle, rfl, hmiddle, hsplit'⟩ := h' q
  refine ⟨r, before ++ middle, Token.bare_append before middle,
    List.forall_mem_append.2 ⟨hbefore, hmiddle⟩, ?_⟩
  rw [hsplit, hsplit']
  cases tokenizeFrom standard.rules 0 r v with
  | error e => rfl
  | ok tokens => simp only [Except.map, List.append_assoc]

/-- A significant token that is found in front of any rest leads behind its lexeme. -/
theorem of_found (h : FoundBefore token rest) (hsignificant : token.isSignificant = true) :
    Leads (token.lexeme ++ rest) [token.unplaced] rest := by
  obtain ⟨c, l, hlexeme, hfirst⟩ := h
  intro p
  have hsplit : c :: (l ++ rest) = Token.lexeme { token with position := p } ++ rest := by
    rw [hlexeme, List.cons_append]
  refine ⟨p.after token.lexeme, [{ token with position := p }], ?_, ?_, ?_⟩
  · rw [bare_singleton_placed, Token.bare_singleton_of_significant hsignificant]
  · exact List.forall_mem_singleton.2 (kind_ne_of_isSignificant hsignificant).1
  · have htext : token.lexeme ++ rest = c :: (l ++ rest) := by rw [hlexeme, List.cons_append]
    rw [htext, tokenizeFrom_of_firstToken (hfirst p) hsplit]
    rfl

/-- A space in front of a solid character is a token of its own. -/
theorem space (hc : isSolid c = true) (t : Text) : Leads (' ' :: c :: t) [] (c :: t) := by
  intro p
  have hrun : (' ' :: c :: t).takeWhile isWhiteSpace = [' '] := by
    rw [isSolid, Bool.not_eq_true'] at hc
    rw [List.takeWhile_cons_of_pos (by decide),
      List.takeWhile_cons_of_neg (Bool.eq_false_iff.1 hc)]
  have hfirst := firstToken_blank p (show isWhiteSpace ' ' = true by decide) (c :: t)
  rw [hrun] at hfirst
  refine ⟨p.after [' '], [⟨.whitespace, [' '], p⟩], rfl, ?_, tokenizeFrom_of_firstToken hfirst rfl⟩
  exact List.forall_mem_singleton.2 (show TokenKind.whitespace ≠ .comment by decide)

/-- What the lexer does with the whole text, if it can go through the rest. -/
theorem tokenize_eq_ok (h : Leads t bare []) :
    ∃ tokens, lex t = .ok tokens ∧ Token.bare tokens = bare := by
  obtain ⟨q, before, hbare, -, hsplit⟩ := h Position.start
  refine ⟨before, hsplit.trans ?_, hbare⟩
  rw [tokenizeFrom, Except.map, List.append_nil]

end Leads

/-! ## Spaces between tokens -/

/-- The text holds the lexemes of the tokens with single spaces between them. Inside empty square
brackets the space may be missing. -/
inductive Spaced : List Token → Text → Prop
  | nil : Spaced [] []
  | single (token : Token) : Spaced [token] token.lexeme
  | space {u : Token} {ts : List Token} {text : Text} (token : Token) (h : Spaced (u :: ts) text) :
      Spaced (token :: u :: ts) (token.lexeme ++ ' ' :: text)
  | brackets {u : Token} {ts : List Token} {text : Text} (token : Token)
      (hopen : token.lexeme = ['[']) (h : Spaced (u :: ts) text) :
      Spaced (token :: u :: ts) (token.lexeme ++ text)

namespace Spaced

variable {ts : List Token} {text : Text}

theorem start (h : Spaced (token :: ts) text) : ∃ rest, text = token.lexeme ++ rest := by
  cases h with
  | single => exact ⟨[], (List.append_nil _).symm⟩
  | space => exact ⟨_, rfl⟩
  | brackets => exact ⟨_, rfl⟩

/-- Up to any place between two tokens the lexer finds the tokens again. -/
theorem leads (h : Spaced ts text) {front back : List Token} (hts : ts = front ++ back)
    (hsolid : ∀ token ∈ ts, ∃ c l, token.lexeme = c :: l ∧ isSolid c = true)
    (hfront : ∀ token ∈ front, FoundBefore token [] ∧ token.isSignificant = true) :
    ∃ rest, Spaced back rest ∧ Leads text (front.map Token.unplaced) rest := by
  induction front generalizing ts text with
  | nil =>
    obtain rfl : ts = back := hts
    exact ⟨text, h, .refl text⟩
  | cons token front ih =>
    rw [List.forall_mem_cons] at hfront
    obtain ⟨⟨hfound, hsignificant⟩, hothers⟩ := hfront
    cases h with
    | nil => cases hts
    | single first =>
      obtain ⟨rfl, hnil⟩ := List.cons.inj hts
      obtain ⟨rfl, rfl⟩ := List.append_eq_nil_iff.1 hnil.symm
      have htoken := Leads.of_found hfound hsignificant
      rw [List.append_nil] at htoken
      exact ⟨[], .nil, htoken⟩
    | @space u ts text first h =>
      obtain ⟨rfl, hbehind⟩ := List.cons.inj hts
      rw [List.forall_mem_cons] at hsolid
      obtain ⟨rest, hback, hleads⟩ := ih h hbehind hsolid.2 hothers
      obtain ⟨c, l, hlexeme, hc⟩ := hsolid.2 u List.mem_cons_self
      obtain ⟨more, htext⟩ := h.start
      rw [hlexeme, List.cons_append] at htext
      -- No token goes on over a space, and the space itself is lexed alone.
      have hparts : Text.Parts (' ' :: text) := by
        intro d hd
        obtain rfl := Option.mem_some.1 hd
        decide
      have htoken := Leads.of_found (hfound.extend hsignificant hparts) hsignificant
      have hspace := Leads.space hc (l ++ more)
      rw [← htext] at hspace
      exact ⟨rest, hback, htoken.trans (hspace.trans hleads)⟩
    | @brackets u ts text first hopen h =>
      obtain ⟨rfl, hbehind⟩ := List.cons.inj hts
      rw [List.forall_mem_cons] at hsolid
      obtain ⟨rest, hback, hleads⟩ := ih h hbehind hsolid.2 hothers
      have htoken := Leads.of_found (hfound.of_bracket hopen text) hsignificant
      exact ⟨rest, hback, htoken.trans hleads⟩

/-- With a space or nothing behind it, a hash sign is in front of no square bracket. -/
theorem behind_hash {hash : Token} (h : Spaced (hash :: ts) text) (hhash : hash.lexeme = ['#']) :
    ∃ rest, text = '#' :: rest ∧ ∀ u, rest ≠ '[' :: u := by
  cases h with
  | single => exact ⟨[], hhash, nofun⟩
  | @space _ _ text => exact ⟨' ' :: text, by rw [hhash]; rfl, nofun⟩
  | brackets _ hopen =>
    have hsame := hopen.symm.trans hhash
    cases hsame

end Spaced

/-- Where a hash sign is in front of no square bracket, there is a comment to the end of the line.
What comes behind that may go wrong. -/
theorem Leads.lex_hash {text rest : Text} {bare : List Token} (h : Leads text bare ('#' :: rest))
    (hbracket : ∀ u, rest ≠ '[' :: u) :
    (∃ e, lex text = .error e) ∨
      ∃ before comment after, lex text = .ok (before ++ comment :: after) ∧
        Token.bare before = bare ∧ (∀ token ∈ before, token.kind ≠ .comment) ∧
        comment.kind = .comment ∧ comment.lexeme.head? = some '#' ∧ '\n' ∉ comment.lexeme ∧
        Text.EndsLine (Token.text after) := by
  obtain ⟨q, before, hbare, hbefore, hsplit⟩ := h Position.start
  have hfirst : firstToken q '#' rest standard.rules
      = .ok ⟨.comment, '#' :: rest.takeWhile (· != '\n'), q⟩ := by
    rcases firstToken_hash q rest with ⟨u, hu, -⟩ | hcomment
    · exact absurd hu (hbracket u)
    · exact hcomment
  have hline : '#' :: rest = '#' :: rest.takeWhile (· != '\n') ++ rest.dropWhile (· != '\n') := by
    rw [List.cons_append, List.takeWhile_append_dropWhile]
  have hgo := tokenizeFrom_of_firstToken hfirst hline
  cases hbehind : tokenizeFrom standard.rules 0
      (q.after ('#' :: rest.takeWhile (· != '\n'))) (rest.dropWhile (· != '\n')) with
  | error e =>
    refine .inl ⟨e, hsplit.trans ?_⟩
    rw [hgo, hbehind]
    rfl
  | ok after =>
    refine .inr ⟨before, ⟨.comment, '#' :: rest.takeWhile (· != '\n'), q⟩, after, hsplit.trans ?_,
      hbare, hbefore, rfl, rfl, ?_, ?_⟩
    · rw [hgo, hbehind]
      rfl
    · rw [List.mem_cons]
      rintro (h | h)
      · cases h
      · simpa using List.mem_takeWhile_imp h
    · rw [text_tokenizeFrom hbehind, List.drop_zero]
      intro c hc
      have hnot := List.head?_dropWhile_not (· != '\n') rest
      rw [Option.mem_def.1 hc] at hnot
      simpa using hnot

end Lexer

end SourceMacros
