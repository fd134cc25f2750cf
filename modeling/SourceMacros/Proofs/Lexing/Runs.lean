import SourceMacros.Proofs.Cursor
import SourceMacros.Proofs.Lexing.Lossless

/-!
# Runs of a lexer

A run goes through a text token by token: each token is what the first fitting rule finds at the
front of what is left, and it has the position behind all tokens before it (`Lexes`). A text is
split into tokens exactly if it has such a run, whatever the rules are
(`Lexer.tokenizeFrom_eq_ok_iff`).

The same result is reached by moving a cursor over the text: try the rules in turn, go back to the
checkpoint where one finds nothing or does not move, and start again behind each token. This loop
ends by itself, since a round that gives a token has read at least one character
(`Lexer.readTokens_eq`).
-/

namespace SourceMacros

namespace Lexer

/-! ## One token after the other -/

/-- The tokens of a text at position `p`, one after the other. -/
inductive Lexes (rules : List LexRule) : (p : Position) → (t : Text) → List Token → Prop
  | nil {p : Position} : Lexes rules p [] []
  | cons {p : Position} {c : Char} {t rest : Text} {token : Token} {tokens : List Token}
      (hfirst : firstToken p c t rules = .ok token) (hsplit : c :: t = token.lexeme ++ rest)
      (hrest : Lexes rules (p.after token.lexeme) rest tokens) :
      Lexes rules p (c :: t) (token :: tokens)

theorem firstToken_position {p : Position} {c : Char} {t : Text} {rules : List LexRule}
    {token : Token} (h : firstToken p c t rules = .ok token) : token.position = p := by
  induction rules with
  | nil => cases h
  | cons r rules ih =>
    unfold firstToken at h
    split at h
    · exact ih h
    · split at h
      · exact ih h
      · exact ih h
      · simp only [Except.ok.injEq] at h
        rw [← h]
      · cases h

/-- Characters of a token that was read already are gone over. -/
theorem tokenizeFrom_pending (rules : List LexRule) (p : Position) (front rest : Text) :
    tokenizeFrom rules front.length p (front ++ rest)
      = tokenizeFrom rules 0 (p.after front) rest := by
  induction front generalizing p with
  | nil => rfl
  | cons c front ih =>
    rw [List.length_cons, List.cons_append, tokenizeFrom, ih, Position.after_cons]

/-- A lexer reads the first token and goes on behind its lexeme. -/
theorem tokenizeFrom_of_firstToken {rules : List LexRule} {p : Position} {c : Char} {t rest : Text}
    {token : Token} (hfirst : firstToken p c t rules = .ok token)
    (hsplit : c :: t = token.lexeme ++ rest) :
    tokenizeFrom rules 0 p (c :: t)
      = (tokenizeFrom rules 0 (p.after token.lexeme) rest).map (token :: ·) := by
  have hne := (firstToken_isPrefix hfirst).2
  rw [tokenizeFrom, hfirst]
  cases hlexeme : token.lexeme with
  | nil => exact absurd hlexeme hne
  | cons d lexeme =>
    rw [hlexeme, List.cons_append, List.cons.injEq] at hsplit
    obtain ⟨rfl, rfl⟩ := hsplit
    have hpending : token.lexeme.length - 1 = lexeme.length := by
      rw [hlexeme, List.length_cons, Nat.add_sub_cancel]
    simp only [hpending, tokenizeFrom_pending, Position.after_cons]
    cases tokenizeFrom rules 0 ((p.advance c).after lexeme) rest <;> rfl

theorem tokenizeFrom_of_error {rules : List LexRule} {p : Position} {c : Char} {t : Text}
    {e : LexError} (hfirst : firstToken p c t rules = .error e) :
    tokenizeFrom rules 0 p (c :: t) = .error e := by
  rw [tokenizeFrom, hfirst]

/-- A lexer that ends well has read one token after the other. -/
theorem Lexes.of_tokenizeFrom {rules : List LexRule} {p : Position} {t : Text}
    {tokens : List Token} (h : tokenizeFrom rules 0 p t = .ok tokens) : Lexes rules p t tokens := by
  induction tokens generalizing p t with
  | nil =>
    have htext := text_tokenizeFrom h
    rw [Token.text_nil, List.drop_zero] at htext
    rw [← htext]
    exact .nil
  | cons token tokens ih =>
    cases t with
    | nil => cases h
    | cons c t =>
      cases hfirst : firstToken p c t rules with
      | error e =>
        rw [tokenizeFrom_of_error hfirst] at h
        cases h
      | ok found =>
        obtain ⟨⟨rest, hsplit⟩, -⟩ := firstToken_isPrefix hfirst
        rw [tokenizeFrom_of_firstToken hfirst hsplit.symm] at h
        cases hrest : tokenizeFrom rules 0 (p.after found.lexeme) rest with
        | error e =>
          rw [hrest] at h
          cases h
        | ok others =>
          rw [hrest] at h
          simp only [Except.map, Except.ok.injEq, List.cons.injEq] at h
          obtain ⟨rfl, rfl⟩ := h
          exact .cons hfirst hsplit.symm (ih hrest)

/-- A lexer reads the tokens that can be read one after the other. -/
theorem Lexes.tokenizeFrom_eq {rules : List LexRule} {p : Position} {t : Text}
    {tokens : List Token} (h : Lexes rules p t tokens) : tokenizeFrom rules 0 p t = .ok tokens := by
  induction h with
  | nil => rfl
  | cons hfirst hsplit _ ih =>
    rw [tokenizeFrom_of_firstToken hfirst hsplit, ih]
    rfl

/-- A text is split into tokens exactly if these are a run over it. -/
theorem tokenizeFrom_eq_ok_iff {rules : List LexRule} {p : Position} {t : Text}
    {tokens : List Token} : tokenizeFrom rules 0 p t = .ok tokens ↔ Lexes rules p t tokens :=
  ⟨.of_tokenizeFrom, Lexes.tokenizeFrom_eq⟩

namespace Lexes

variable {rules : List LexRule} {p : Position} {t : Text} {tokens : List Token}

theorem text_eq (h : Lexes rules p t tokens) : Token.text tokens = t := by
  induction h with
  | nil => rfl
  | cons _ hsplit _ ih => rw [Token.text_cons, ih, hsplit]

theorem lexeme_ne_nil (h : Lexes rules p t tokens) : ∀ token ∈ tokens, token.lexeme ≠ [] := by
  induction h with
  | nil => exact List.forall_mem_nil _
  | cons hfirst _ _ ih => exact List.forall_mem_cons.2 ⟨(firstToken_isPrefix hfirst).2, ih⟩

/-- Behind some of its tokens a text lexes to the others, placed where they were. -/
theorem behind {before after : List Token} (h : Lexes rules p t (before ++ after)) :
    Lexes rules (p.after (Token.text before)) (Token.text after) after := by
  induction before generalizing p t with
  | nil =>
    rw [List.nil_append] at h
    rw [h.text_eq]
    exact h
  | cons first before ih =>
    cases h with
    | cons _ _ hrest =>
      rw [Token.text_cons, Position.after_append]
      exact ih hrest

/-- The first token of a run is found in front of all others, and these are a run behind it. -/
theorem uncons {token : Token} (h : Lexes rules p t (token :: tokens)) :
    ∃ c l, token.lexeme = c :: l ∧ firstToken p c (l ++ Token.text tokens) rules = .ok token ∧
      Lexes rules (p.after token.lexeme) (Token.text tokens) tokens := by
  cases h with
  | cons hfirst hsplit hrest =>
    obtain rfl := hrest.text_eq
    cases hlexeme : token.lexeme with
    | nil => exact absurd hlexeme (firstToken_isPrefix hfirst).2
    | cons d l =>
      rw [hlexeme, List.cons_append, List.cons.injEq] at hsplit
      obtain ⟨rfl, rfl⟩ := hsplit
      exact ⟨_, l, rfl, hfirst, hlexeme ▸ hrest⟩

/-- Every token stands behind the lexemes before it. -/
theorem position_eq (h : Lexes rules p t tokens) {before after : List Token} {token : Token}
    (hsplit : tokens = before ++ token :: after) :
    token.position = p.after (Token.text before) := by
  subst hsplit
  obtain ⟨_, _, _, hfirst, -⟩ := h.behind.uncons
  exact firstToken_position hfirst

end Lexes

/-! ## The loop over a cursor -/

/-- Tries the rules at a cursor in front of `first`. A rule that finds nothing is undone, and so is
one that gives a token without moving. -/
def tryRules (first : Char) : List LexRule → Cursor → Except LexError (Token × Cursor)
  | [], c => .error (.unexpectedCharacter first c.position)
  | r :: rules, c =>
    if r.quickCheck first = some false then tryRules first rules c
    else
      match r.tryMatch c with
      | (.error e, _) => .error e
      | (.ok none, d) => tryRules first rules (d.restore c.checkpoint)
      | (.ok (some token), d) =>
        if c.offset < d.offset then .ok (token, d)
        else tryRules first rules (d.restore c.checkpoint)

/-- Reads token after token until the end or the first failure. There is no answer if `rounds` are
not enough. -/
def readTokens (rules : List LexRule) :
    (rounds : Nat) → Cursor → Option (Except LexError (List Token))
  | 0, _ => none
  | rounds + 1, c =>
    match c.peek with
    | none => some (.ok [])
    | some first =>
      match tryRules first rules c with
      | .error e => some (.error e)
      | .ok (token, d) => (readTokens rules rounds d).map fun result => result.map (token :: ·)

/-- Trying the rules at a cursor finds the first token of what remains and moves behind it. -/
theorem tryRules_eq {c : Cursor} {first : Char} {t : Text} (hc : c.remaining = first :: t)
    (rules : List LexRule) :
    tryRules first rules c
      = (firstToken c.position first t rules).map fun token => (token, c.skip token.lexeme) := by
  induction rules with
  | nil => rfl
  | cons r rules ih =>
    have hundo : ∀ lexeme, (c.skip lexeme).restore c.checkpoint = c := fun _ => rfl
    have hstay : c.restore c.checkpoint = c := rfl
    rw [tryRules, firstToken]
    split
    · exact ih
    · rw [LexRule.tryMatch, hc]
      cases r.scan (first :: t) with
      | declined => simp only [hstay, ih]
      | unterminated what => rfl
      | found kind lexeme =>
        cases lexeme with
        | nil =>
          have hsame : ¬ c.offset < (c.skip []).offset := Nat.lt_irrefl _
          simp only [if_neg hsame, hundo, ih]
        | cons d lexeme =>
          have hmoved : c.offset < (c.skip (d :: lexeme)).offset := by
            have hpos := d.utf8Size_pos
            simp only [Cursor.skip, Text.byteLength_cons]
            omega
          simp only [if_pos hmoved]
          rfl

/-- The loop ends within as many rounds as there are characters, and one more for the end, with the
tokens of the text. -/
theorem readTokens_eq (rules : List LexRule) {rounds : Nat} {c : Cursor} {front rest : Text}
    (hc : c.Between front rest) (hrounds : rest.length < rounds) :
    readTokens rules rounds c = some (tokenizeFrom rules 0 c.position rest) := by
  induction rounds generalizing c front rest with
  | zero => exact absurd hrounds (Nat.not_lt_zero _)
  | succ rounds ih =>
    have hremaining := hc.remaining_eq
    cases rest with
    | nil =>
      have hpeek : c.peek = none := by rw [Cursor.peek, hremaining, List.head?_nil]
      simp only [readTokens, hpeek, tokenizeFrom]
    | cons first t =>
      have hpeek : c.peek = some first := by rw [Cursor.peek, hremaining, List.head?_cons]
      simp only [readTokens, hpeek, tryRules_eq hremaining]
      cases hfirst : firstToken c.position first t rules with
      | error e => simp only [Except.map, tokenizeFrom_of_error hfirst]
      | ok token =>
        obtain ⟨⟨behind, hsplit⟩, hne⟩ := firstToken_isPrefix hfirst
        -- A token is not empty, so the rounds left are enough for what is left.
        have hshorter : behind.length < rounds := by
          have hlen := congrArg List.length hsplit
          have hpos := List.length_pos_iff.2 hne
          simp only [List.length_append, List.length_cons] at hlen hrounds
          omega
        have hnext : (c.skip token.lexeme).Between (front ++ token.lexeme) behind :=
          Cursor.Between.skip (hsplit ▸ hc)
        rw [tokenizeFrom_of_firstToken hfirst hsplit.symm]
        simp only [Except.map, ih hnext hshorter, Option.map_some]
        rfl

/-- Lexing is exact for any rules, in any order and with any priorities. The loop over the source
ends with tokens or a failure; if it ends with tokens, their lexemes are the source, none is empty,
and every token has the position behind the lexemes before it. -/
theorem tokenize_ends_and_is_exact (rules : List LexRule) (source : Text) :
    readTokens (ofRules rules).rules (source.length + 1) (.ofText source)
      = some ((ofRules rules).tokenize source) ∧
    ∀ tokens, (ofRules rules).tokenize source = .ok tokens →
      Token.text tokens = source ∧
      (∀ token ∈ tokens, token.lexeme ≠ []) ∧
      ∀ before token after, tokens = before ++ token :: after →
        token.position = Position.start.after (Token.text before) := by
  constructor
  · exact readTokens_eq _ (Cursor.ofText_between source) (Nat.lt_succ_self _)
  · intro tokens h
    have hrun := tokenizeFrom_eq_ok_iff.1 h
    exact ⟨hrun.text_eq, hrun.lexeme_ne_nil, fun _ _ _ hsplit => hrun.position_eq hsplit⟩

/-- A literal rule that takes nothing comes first and is passed over; the last token stands on the
second line, behind five bytes. -/
theorem tokenize_ends_and_is_exact_literals :
    ∃ tokens last, (ofRules [.whitespace, .word, .literal "->".toList .tag 5,
        .literal [] .comment 99]).tokenize "é->\nx".toList = .ok tokens ∧
      tokens.getLast? = some last ∧ last.lexeme = ['x'] ∧ last.position = ⟨2, 1, 5⟩ ∧
      Token.text tokens = "é->\nx".toList := by
  obtain ⟨tokens, before, last, h, hsplit, hlexeme, hbefore⟩ :
      ∃ tokens before last, (ofRules [.whitespace, .word, .literal "->".toList .tag 5,
          .literal [] .comment 99]).tokenize "é->\nx".toList = .ok tokens ∧
        tokens = before ++ [last] ∧ last.lexeme = ['x'] ∧ Token.text before = "é->\n".toList :=
    ⟨_, [⟨.identifier, "é".toList, ⟨1, 1, 0⟩⟩, ⟨.tag, "->".toList, ⟨1, 2, 2⟩⟩,
      ⟨.whitespace, "\n".toList, ⟨1, 4, 4⟩⟩], ⟨.identifier, ['x'], ⟨2, 1, 5⟩⟩, rfl, rfl, rfl, rfl⟩
  obtain ⟨-, hexact⟩ := tokenize_ends_and_is_exact [.whitespace, .word,
    .literal "->".toList .tag 5, .literal [] .comment 99] "é->\nx".toList
  obtain ⟨htext, -, hposition⟩ := hexact tokens h
  refine ⟨tokens, last, h, by simp [hsplit], hlexeme, ?_, htext⟩
  rw [hposition before last [] hsplit, hbefore]
  decide

end Lexer

end SourceMacros
