import SourceMacros.Proofs.Lexing.Spacing

/-!
# Why lexing fails

A lexer fails exactly if it finds tokens up to some place and none there
(`Lexer.tokenizeFrom_eq_error_iff`). What it has passed over is itself a source that lexes
(`Lexer.Stops.exists_front`), since no token depends on the text cut off behind it but a hash sign,
and a hash sign alone is a comment.

At the place where it stops, either some rule has found the start of a block comment or of a string
that is never closed, or no rule has found anything. Together the rules of the host language take
every character but the control characters that are no white space (`LexRule.exists_found`). So
there are three causes of a failure (`LexError.CausedBy`), no token is found exactly where one of
them stands (`Lexer.firstToken_eq_error_iff`), and a source with none of them lexes.
-/

namespace SourceMacros

open Text (isWhiteSpace)

variable {p : Position} {c quote : Char} {t : Text} {e : LexError}

/-! ## Causes of failures -/

/-- A control character of ASCII. -/
def isAsciiControl (c : Char) : Bool :=
  c.toNat < 32 || c.toNat == 127

/-- A text in which every backslash belongs to a whole escape: the character behind the text is not
escaped. -/
inductive Unescaping : Text → Prop
  | nil : Unescaping []
  | plain {c : Char} {t : Text} (hc : c ≠ '\\') (h : Unescaping t) : Unescaping (c :: t)
  | escape (c : Char) {t : Text} (h : Unescaping t) : Unescaping ('\\' :: c :: t)

/-- What stands where the failure was found is the reason for it: a control character that is no
white space, a block comment without an end, or a string without a second quote but escaped ones. -/
def LexError.CausedBy : LexError → Text → Prop
  | unexpectedCharacter c _, rest =>
    (∃ t, rest = c :: t) ∧ isAsciiControl c = true ∧ isWhiteSpace c = false
  | unterminated .blockComment _, rest =>
    ∃ t, rest = '/' :: '*' :: t ∧ ¬ ['*', '/'] <:+: t
  | unterminated .stringLiteral _, rest =>
    ∃ quote t, rest = quote :: t ∧ (quote = '"' ∨ quote = '\x27') ∧
      ∀ before after, t = before ++ quote :: after → ¬ Unescaping before

/-! ### Constructs without an end -/

theorem throughBlockEnd_eq_none_iff : throughBlockEnd t = none ↔ ¬ ['*', '/'] <:+: t := by
  induction t using throughBlockEnd.induct with
  | case1 => simp [throughBlockEnd]
  | case2 t =>
    have hin : ['*', '/'] <:+: '*' :: '/' :: t := ⟨[], t, rfl⟩
    simp [throughBlockEnd, hin]
  | case3 c t hne ih =>
    have hfront : ¬ ['*', '/'] <+: c :: t := by
      rintro ⟨u, hu⟩
      obtain ⟨rfl, rfl⟩ := List.cons.inj hu
      exact hne u rfl rfl
    rw [throughBlockEnd.eq_3 _ _ hne, Option.map_eq_none_iff, ih, List.infix_cons_iff, not_or]
    exact ⟨fun h => ⟨hfront, h⟩, fun h => h.2⟩

/-- A quote is found behind a text that does not end in the middle of an escape. -/
theorem throughQuote_append_of_unescaping (hquote : quote ≠ '\\') {before : Text}
    (h : Unescaping before) (after : Text) :
    throughQuote quote (before ++ quote :: after) ≠ none := by
  induction h with
  | nil =>
    rw [List.nil_append, throughQuote_cons hquote, if_pos rfl]
    exact Option.some_ne_none _
  | @plain c before hc _ ih =>
    rw [List.cons_append, throughQuote_cons hc]
    split
    · exact Option.some_ne_none _
    · rwa [Ne, Option.map_eq_none_iff]
  | escape c _ ih =>
    rwa [List.cons_append, List.cons_append, throughQuote_escape, Ne, Option.map_eq_none_iff]

/-- The quote that is found has a text in front of it that escapes nothing behind itself. -/
theorem exists_unescaping_of_throughQuote {body : Text} (h : throughQuote quote t = some body) :
    ∃ before after, t = before ++ quote :: after ∧ Unescaping before := by
  fun_induction throughQuote quote t generalizing body with
  | case1 => cases h
  | case2 => cases h
  | case3 c t ih =>
    obtain ⟨inner, hinner, -⟩ := Option.map_eq_some_iff.1 h
    obtain ⟨before, after, rfl, hbefore⟩ := ih hinner
    exact ⟨'\\' :: c :: before, after, rfl, .escape c hbefore⟩
  | case4 t => exact ⟨[], t, rfl, .nil⟩
  | case5 c t hsingle hpair _ ih =>
    have hc := ne_backslash_of_forall hsingle hpair
    obtain ⟨inner, hinner, -⟩ := Option.map_eq_some_iff.1 h
    obtain ⟨before, after, rfl, hbefore⟩ := ih hinner
    exact ⟨c :: before, after, rfl, .plain hc hbefore⟩

/-- A string is closed by any quote that is not escaped. -/
theorem throughQuote_eq_none_iff (hquote : quote ≠ '\\') :
    throughQuote quote t = none ↔
      ∀ before after, t = before ++ quote :: after → ¬ Unescaping before := by
  constructor
  · rintro h before after rfl hbefore
    exact throughQuote_append_of_unescaping hquote hbefore after h
  · intro h
    cases hbody : throughQuote quote t with
    | none => rfl
    | some body =>
      obtain ⟨before, after, hsplit, hbefore⟩ := exists_unescaping_of_throughQuote hbody
      exact absurd hbefore (h before after hsplit)

theorem ne_backslash_of_quote (h : quote = '"' ∨ quote = '\x27') : quote ≠ '\\' := by
  rcases h with rfl | rfl <;> decide

/-! ## Every character has its rule -/

/-- But for control characters every character is white space or starts a word, a number or an
operator. -/
theorem isWordStart_or_of_not_isAsciiControl (hcontrol : isAsciiControl c = false)
    (hblank : isWhiteSpace c = false) :
    isWordStart c = true ∨ isAsciiDigit c = true ∨ isAsciiPunctuation c = true := by
  have hspace : c.toNat ≠ 32 := by
    intro h
    rw [isWhiteSpace, h] at hblank
    cases hblank
  rw [isAsciiControl, Bool.or_eq_false_iff, decide_eq_false_iff_not, beq_eq_false_iff_ne]
    at hcontrol
  obtain ⟨hlow, hdelete⟩ := hcontrol
  rcases Nat.lt_or_ge 127 c.toNat with hbeyond | hascii
  · exact .inl (by simp [isWordStart, hbeyond, hblank])
  · have hlower : 33 ≤ c.toNat := by omega
    have hupper : c.toNat ≤ 126 := by omega
    by_cases hletter : isAsciiLetter c = true
    · exact .inl (by simp [isWordStart, hletter])
    · by_cases hdigit : isAsciiDigit c = true
      · exact .inr (.inl hdigit)
      · exact .inr (.inr (by simp [isAsciiPunctuation, hlower, hupper, hletter, hdigit]))

namespace LexRule

theorem scanWord_of_isWordStart (hc : isWordStart c = true) (t : Text) :
    ∃ kind lexeme, scanWord (c :: t) = .found kind (c :: lexeme) := by
  have hrun : (c :: t).takeWhile isWordContinue = c :: t.takeWhile isWordContinue :=
    List.takeWhile_cons_of_pos (by rw [isWordContinue, hc, Bool.true_or])
  simp [scanWord, hc, hrun]

theorem scanNumber_of_isAsciiDigit (hc : isAsciiDigit c = true) (t : Text) :
    ∃ lexeme, scanNumber (c :: t) = .found .number (c :: lexeme) := by
  have hrun : (c :: t).takeWhile isAsciiWordChar = c :: t.takeWhile isAsciiWordChar :=
    List.takeWhile_cons_of_pos (by simp [isAsciiWordChar, hc])
  simp [scanNumber, hc, hrun]

theorem scanWhitespace_of_isWhiteSpace (hc : isWhiteSpace c = true) (t : Text) :
    ∃ lexeme, scanWhitespace (c :: t) = .found .whitespace (c :: lexeme) := by
  have hrun : (c :: t).takeWhile isWhiteSpace = c :: t.takeWhile isWhiteSpace :=
    List.takeWhile_cons_of_pos hc
  simp [scanWhitespace, hrun]

/-- Punctuation starts at every punctuation character, which is a token alone if no operator starts
there. -/
theorem scanPunctuation_of_isAsciiPunctuation (hc : isAsciiPunctuation c = true) (t : Text) :
    ∃ d lexeme, scanPunctuation (c :: t) = .found .punctuation (d :: lexeme) := by
  unfold scanPunctuation
  split
  · next op hfind =>
    have hne : ∀ op ∈ operators, op ≠ [] := by decide
    obtain ⟨d, lexeme, rfl⟩ := List.exists_cons_of_ne_nil (hne op (List.mem_of_find?_eq_some hfind))
    exact ⟨d, lexeme, rfl⟩
  · next heq => cases heq
  · next heq =>
    obtain ⟨rfl, -⟩ := List.cons.inj heq
    exact ⟨c, [], if_pos hc⟩

/-- Together the rules of the host language take every character but control characters. -/
theorem exists_found (hc : ¬ (isAsciiControl c = true ∧ isWhiteSpace c = false)) (t : Text) :
    ∃ r ∈ standard, r.quickCheck c = some true ∧
      ∃ kind d lexeme, r.scan (c :: t) = .found kind (d :: lexeme) := by
  cases hblank : isWhiteSpace c with
  | true =>
    obtain ⟨lexeme, hscan⟩ := scanWhitespace_of_isWhiteSpace hblank t
    exact ⟨whitespace, by decide, congrArg some hblank, _, _, _, hscan⟩
  | false =>
    have hcontrol : isAsciiControl c = false := Bool.eq_false_iff.2 fun h => hc ⟨h, hblank⟩
    rcases isWordStart_or_of_not_isAsciiControl hcontrol hblank with hword | hdigit | hpunct
    · obtain ⟨kind, lexeme, hscan⟩ := scanWord_of_isWordStart hword t
      exact ⟨word, by decide, congrArg some hword, _, _, _, hscan⟩
    · obtain ⟨lexeme, hscan⟩ := scanNumber_of_isAsciiDigit hdigit t
      exact ⟨number, by decide, congrArg some hdigit, _, _, _, hscan⟩
    · obtain ⟨d, lexeme, hscan⟩ := scanPunctuation_of_isAsciiPunctuation hpunct t
      exact ⟨punctuation, by decide, congrArg some hpunct, _, _, _, hscan⟩

/-- A control character of ASCII other than white space is ruled out by every rule. -/
theorem quickCheck_of_isAsciiControl (hcontrol : isAsciiControl c = true)
    (hblank : isWhiteSpace c = false) : ∀ r ∈ standard, r.quickCheck c = some false := by
  have hall : ∀ n ∈ 127 :: List.range 32, isWhiteSpace (Char.ofNat n) = false →
      ∀ r ∈ standard, r.quickCheck (Char.ofNat n) = some false := by decide
  have hmem : c.toNat ∈ 127 :: List.range 32 := by
    rw [isAsciiControl, Bool.or_eq_true, decide_eq_true_eq, beq_iff_eq] at hcontrol
    rw [List.mem_cons, List.mem_range]
    exact hcontrol.symm
  have hruled := hall c.toNat hmem
  rw [Char.ofNat_toNat] at hruled
  exact hruled hblank

/-! ### Rules that find no end -/

theorem scanComment_unterminated {what : OpenConstruct} (h : scanComment t = .unterminated what)
    (p : Position) : (LexError.unterminated what p).CausedBy t := by
  unfold scanComment at h
  split at h
  · next u =>
    split at h
    · cases h
    · next hbody =>
      cases h
      exact ⟨u, rfl, throughBlockEnd_eq_none_iff.1 hbody⟩
  all_goals cases h

/-- A literal that is never closed is a quote without another one that no backslash escapes. -/
theorem scanString_unterminated {what : OpenConstruct} (h : scanString t = .unterminated what)
    (p : Position) : (LexError.unterminated what p).CausedBy t := by
  unfold scanString at h
  split at h
  · cases h
  · next c u =>
    split at h
    · next hc =>
      split at h
      · cases h
      · next hbody =>
        cases h
        rw [Bool.or_eq_true, beq_iff_eq, beq_iff_eq] at hc
        exact ⟨c, u, rfl, hc, (throughQuote_eq_none_iff (ne_backslash_of_quote hc)).1 hbody⟩
    · cases h

/-- Whatever rule reports that a construct is never closed, its cause stands there. -/
theorem causedBy_of_scan {r : LexRule} {what : OpenConstruct} (h : r.scan t = .unterminated what)
    (p : Position) : (LexError.unterminated what p).CausedBy t := by
  cases r with
  | comment => exact scanComment_unterminated h p
  | string => exact scanString_unterminated h p
  | tag | literal text kind priority =>
    simp only [scan, scanOneOf] at h
    split at h <;> cases h
  | variableName =>
    simp only [scan] at h
    unfold scanVariable at h
    split at h
    · split at h <;> cases h
    · cases h
  | number =>
    simp only [scan] at h
    unfold scanNumber at h
    split at h
    · cases h
    · split at h <;> cases h
  | word =>
    simp only [scan] at h
    unfold scanWord at h
    split at h
    · cases h
    · split at h <;> cases h
  | whitespace =>
    simp only [scan, scanWhitespace] at h
    split at h <;> cases h
  | punctuation =>
    simp only [scan] at h
    unfold scanPunctuation at h
    split at h
    · cases h
    · cases h
    · split at h <;> cases h

end LexRule

namespace Lexer

variable {rules : List LexRule}

/-- Without a first token some rule finds a construct that is never closed, or no rule finds
anything. -/
theorem firstToken_error_cases (h : firstToken p c t rules = .error e) :
    (∃ r ∈ rules, ∃ what, r.scan (c :: t) = .unterminated what ∧ e = .unterminated what p) ∨
    (e = .unexpectedCharacter c p ∧ ∀ r ∈ rules, r.quickCheck c ≠ some false →
      ∀ kind d lexeme, r.scan (c :: t) ≠ .found kind (d :: lexeme)) := by
  induction rules with
  | nil =>
    simp only [firstToken, Except.error.injEq] at h
    exact .inr ⟨h.symm, List.forall_mem_nil _⟩
  | cons r rules ih =>
    have hlater (hrest : firstToken p c t rules = .error e)
        (hnone : r.quickCheck c ≠ some false →
          ∀ kind d lexeme, r.scan (c :: t) ≠ .found kind (d :: lexeme)) :
        (∃ r' ∈ r :: rules, ∃ what,
          r'.scan (c :: t) = .unterminated what ∧ e = .unterminated what p) ∨
        (e = .unexpectedCharacter c p ∧ ∀ r' ∈ r :: rules, r'.quickCheck c ≠ some false →
          ∀ kind d lexeme, r'.scan (c :: t) ≠ .found kind (d :: lexeme)) := by
      rcases ih hrest with ⟨r', hmem, hunterminated⟩ | ⟨heq, hall⟩
      · exact .inl ⟨r', List.mem_cons_of_mem r hmem, hunterminated⟩
      · exact .inr ⟨heq, List.forall_mem_cons.2 ⟨hnone, hall⟩⟩
    unfold firstToken at h
    split at h
    · next hquick => exact hlater h fun hpossible => absurd hquick hpossible
    · split at h
      · next hscan =>
        refine hlater h fun _ kind d lexeme hfound => ?_
        rw [hscan] at hfound
        cases hfound
      · next hscan =>
        refine hlater h fun _ kind d lexeme hfound => ?_
        rw [hscan] at hfound
        cases hfound
      · cases h
      · next what hscan =>
        cases h
        exact .inl ⟨r, List.mem_cons_self, what, hscan, rfl⟩

/-- A character that rules out every rule is unexpected. -/
theorem firstToken_of_ruledOut (h : ∀ r ∈ rules, r.quickCheck c = some false) (p : Position)
    (t : Text) : firstToken p c t rules = .error (.unexpectedCharacter c p) := by
  induction rules with
  | nil => rfl
  | cons r rules ih =>
    rw [List.forall_mem_cons] at h
    rw [firstToken, if_pos h.1, ih h.2]

/-- The host language has no token exactly where there is a cause for that. -/
theorem firstToken_eq_error_iff :
    firstToken p c t standard.rules = .error e ↔ e.position = p ∧ e.CausedBy (c :: t) := by
  constructor
  · intro h
    rcases firstToken_error_cases h with ⟨r, -, what, hscan, rfl⟩ | ⟨rfl, hnone⟩
    · exact ⟨rfl, r.causedBy_of_scan hscan p⟩
    · refine ⟨rfl, ⟨t, rfl⟩, ?_⟩
      by_contra hother
      obtain ⟨r, hr, hquick, kind, d, lexeme, hscan⟩ := LexRule.exists_found hother t
      exact hnone r hr (by simp [hquick]) kind d lexeme hscan
  · rintro ⟨rfl, hcause⟩
    cases e with
    | unexpectedCharacter d position =>
      obtain ⟨⟨u, heq⟩, hcontrol, hblank⟩ := hcause
      obtain ⟨rfl, -⟩ := List.cons.inj heq
      exact firstToken_of_ruledOut (LexRule.quickCheck_of_isAsciiControl hcontrol hblank) _ t
    | unterminated what position =>
      cases what with
      | blockComment =>
        obtain ⟨u, heq, hend⟩ := hcause
        obtain ⟨rfl, rfl⟩ := List.cons.inj heq
        rw [firstToken_blockComment, throughBlockEnd_eq_none_iff.2 hend]
        rfl
      | stringLiteral =>
        obtain ⟨quote, u, heq, hquote, hend⟩ := hcause
        obtain ⟨rfl, rfl⟩ := List.cons.inj heq
        have hnone := (throughQuote_eq_none_iff (ne_backslash_of_quote hquote)).2 hend
        rw [firstToken_quote hquote, hnone]
        rfl

/-! ## Where a lexer stops -/

/-- The lexer finds tokens one after the other up to a place where it finds none, for the reason
given. -/
inductive Stops (rules : List LexRule) : (p : Position) → (t : Text) → LexError → Prop
  | here {p : Position} {c : Char} {t : Text} {e : LexError}
      (hfirst : firstToken p c t rules = .error e) : Stops rules p (c :: t) e
  | behind {p : Position} {c : Char} {t rest : Text} {token : Token} {e : LexError}
      (hfirst : firstToken p c t rules = .ok token) (hsplit : c :: t = token.lexeme ++ rest)
      (hrest : Stops rules (p.after token.lexeme) rest e) : Stops rules p (c :: t) e

/-- A lexer that fails has read tokens up to where it stops. -/
theorem Stops.of_tokenizeFrom (h : tokenizeFrom rules 0 p t = .error e) : Stops rules p t e := by
  induction hn : t.length using Nat.strong_induction_on generalizing p t with
  | _ n ih =>
    cases t with
    | nil => cases h
    | cons c t =>
      cases hfirst : firstToken p c t rules with
      | error failure =>
        rw [tokenizeFrom_of_error hfirst, Except.error.injEq] at h
        exact .here (h ▸ hfirst)
      | ok token =>
        obtain ⟨⟨rest, hsplit⟩, hne⟩ := firstToken_isPrefix hfirst
        rw [tokenizeFrom_of_firstToken hfirst hsplit.symm] at h
        cases hrest : tokenizeFrom rules 0 (p.after token.lexeme) rest with
        | ok others =>
          rw [hrest] at h
          cases h
        | error failure =>
          rw [hrest, Except.map, Except.error.injEq] at h
          have hlen := congrArg List.length hsplit
          have hpos := List.length_pos_iff.2 hne
          rw [List.length_append, hn] at hlen
          exact .behind hfirst hsplit.symm (ih _ (by omega) (h ▸ hrest) rfl)

/-- A lexer that stops behind some tokens fails there, and not before. -/
theorem Stops.tokenizeFrom_eq (h : Stops rules p t e) : tokenizeFrom rules 0 p t = .error e := by
  induction h with
  | here hfirst => exact tokenizeFrom_of_error hfirst
  | behind hfirst hsplit _ ih =>
    rw [tokenizeFrom_of_firstToken hfirst hsplit, ih]
    rfl

/-- A text cannot be split into tokens exactly if the lexer stops somewhere in it. -/
theorem tokenizeFrom_eq_error_iff : tokenizeFrom rules 0 p t = .error e ↔ Stops rules p t e :=
  ⟨.of_tokenizeFrom, Stops.tokenizeFrom_eq⟩

/-- A token in front of a text is found in front of each part of it, if perhaps as a comment. -/
theorem exists_lexes_cons {q : Position} {pre l : Text} {token : Token} {tokens : List Token}
    (hfirst : firstToken p c (l ++ t) standard.rules = .ok token) (hlexeme : token.lexeme = c :: l)
    (hpre : pre <+: t) (hrest : Lexes standard.rules (q.after (c :: l)) pre tokens) :
    ∃ tokens, Lexes standard.rules q (c :: l ++ pre) tokens := by
  by_cases hlone : c = '#' ∧ l ++ pre = []
  · obtain ⟨rfl, hempty⟩ := hlone
    rw [List.cons_append, hempty]
    exact ⟨_, .cons (firstToken_hash_alone q) rfl .nil⟩
  · have hshorter : l ++ pre <+: l ++ t := (List.prefix_append_right_inj l).2 hpre
    have hfound := firstToken_of_isPrefix hfirst hlexeme (List.prefix_append l pre) hshorter
      (fun hhash hempty => hlone ⟨hhash, hempty⟩) q
    refine ⟨_, .cons hfound ?_ (hlexeme ▸ hrest)⟩
    rw [hlexeme]
    rfl

/-- What a lexer passes over before it stops is a source that lexes. -/
theorem Stops.exists_front (h : Stops standard.rules p t e) :
    ∃ pre c rest, t = pre ++ c :: rest ∧ firstToken (p.after pre) c rest standard.rules = .error e ∧
      ∀ q, ∃ tokens, Lexes standard.rules q pre tokens := by
  induction h with
  | @here p c t e hfirst => exact ⟨[], c, t, rfl, hfirst, fun q => ⟨[], .nil⟩⟩
  | @behind p c t rest token e hfirst hsplit hrest ih =>
    obtain ⟨pre, d, behind, rfl, hstop, hlexes⟩ := ih
    cases hlexeme : token.lexeme with
    | nil => exact absurd hlexeme (firstToken_isPrefix hfirst).2
    | cons c' l =>
      rw [hlexeme, List.cons_append, List.cons.injEq] at hsplit
      obtain ⟨rfl, rfl⟩ := hsplit
      refine ⟨c :: l ++ pre, d, behind, by simp, ?_, fun q => ?_⟩
      · rw [Position.after_append, ← hlexeme]
        exact hstop
      · obtain ⟨tokens, hrun⟩ := hlexes (q.after (c :: l))
        exact exists_lexes_cons hfirst hlexeme (List.prefix_append pre _) hrun

end Lexer

/-- What lexing says of a source that it cannot split is the reason why. The source in front of the
place that it names lexes on its own, and the text from there on starts with a control character
that is no white space, with a block comment that has no end, or with a string that has no second
quote but escaped ones. So a source without control characters, quotes and block comments lexes. -/
theorem lex_fails_for_cause (source : Text) :
    (∀ e, lex source = .error e → ∃ pre rest, source = pre ++ rest ∧
      e.position = Position.start.after pre ∧ (∃ tokens, lex pre = .ok tokens) ∧ e.CausedBy rest) ∧
    ((∀ c ∈ source, ¬ (isAsciiControl c = true ∧ isWhiteSpace c = false) ∧
        c ≠ '"' ∧ c ≠ '\x27') →
      ¬ ['/', '*'] <:+: source → ∃ tokens, lex source = .ok tokens) := by
  have hcause : ∀ e, lex source = .error e → ∃ pre rest, source = pre ++ rest ∧
      e.position = Position.start.after pre ∧ (∃ tokens, lex pre = .ok tokens) ∧
      e.CausedBy rest := by
    intro e he
    have hstops := Lexer.tokenizeFrom_eq_error_iff.1 he
    obtain ⟨pre, c, rest, hsplit, hstop, hlexes⟩ := hstops.exists_front
    obtain ⟨hposition, hcause⟩ := Lexer.firstToken_eq_error_iff.1 hstop
    obtain ⟨tokens, hrun⟩ := hlexes Position.start
    exact ⟨pre, c :: rest, hsplit, hposition, ⟨tokens, hrun.tokenizeFrom_eq⟩, hcause⟩
  refine ⟨hcause, fun hchars hblock => ?_⟩
  cases hlex : lex source with
  | ok tokens => exact ⟨tokens, rfl⟩
  | error e =>
    obtain ⟨pre, rest, rfl, -, -, hrest⟩ := hcause e hlex
    rw [List.forall_mem_append] at hchars
    cases e with
    | unexpectedCharacter c position =>
      obtain ⟨⟨t, rfl⟩, hcontrol⟩ := hrest
      exact absurd hcontrol (hchars.2 c List.mem_cons_self).1
    | unterminated what position =>
      cases what with
      | blockComment =>
        obtain ⟨t, rfl, -⟩ := hrest
        exact absurd ⟨pre, t, by simp⟩ hblock
      | stringLiteral =>
        obtain ⟨quote, t, rfl, hquote, -⟩ := hrest
        have hnone := (hchars.2 quote List.mem_cons_self).2
        exact absurd hquote (by simp [hnone])

/-- A string whose only other quote is escaped, and a comment with white space and a slash. -/
theorem lex_fails_for_cause_string :
    let e := LexError.unterminated .stringLiteral ⟨1, 6, 5⟩
    let unclosed : Text := "$x = 'it\\'s".toList
    let closed : Text := ['#', '\t', '/']
    lex unclosed = .error e ∧
      (∃ pre rest, unclosed = pre ++ rest ∧ e.position = Position.start.after pre ∧
        (∃ tokens, lex pre = .ok tokens) ∧ e.CausedBy rest) ∧
      ∃ tokens, lex closed = .ok tokens := by
  intro e unclosed closed
  have hfails : lex unclosed = .error e := by rfl
  have hchars : ∀ c ∈ closed, ¬ (isAsciiControl c = true ∧ isWhiteSpace c = false) ∧
      c ≠ '"' ∧ c ≠ '\x27' :=
    List.forall_mem_cons.2 ⟨by decide, List.forall_mem_cons.2 ⟨by decide,
      List.forall_mem_singleton.2 (by decide)⟩⟩
  refine ⟨hfails, (lex_fails_for_cause unclosed).1 e hfails, ?_⟩
  exact (lex_fails_for_cause closed).2 hchars (by decide)

end SourceMacros
