import SourceMacros.Proofs.Lexing.Runs

/-!
# Kinds of tokens

Each lexing rule finds tokens of one kind, or of two: a word is an identifier or a keyword
(`LexRule.kind_mem_kinds`). So the kind of a token tells which rule has found it, and with that what
its lexeme looks like.
-/

namespace SourceMacros

namespace LexRule

/-- The kinds of the tokens that a rule finds. -/
def kinds : LexRule → List TokenKind
  | tag => [.tag]
  | comment => [.comment]
  | string => [.string]
  | variableName => [.variableName]
  | number => [.number]
  | word => [.identifier, .keyword]
  | whitespace => [.whitespace]
  | punctuation => [.punctuation]
  | literal _ kind _ => [kind]

variable {kind : TokenKind} {t lexeme : Text}

theorem kind_of_scanOneOf {found : TokenKind} {texts : List Text}
    (h : scanOneOf found texts t = .found kind lexeme) : kind = found := by
  unfold scanOneOf at h
  split at h <;> cases h
  rfl

theorem kind_of_scanComment (h : scanComment t = .found kind lexeme) : kind = .comment := by
  unfold scanComment at h
  split at h
  · split at h <;> cases h
    rfl
  all_goals cases h
  all_goals rfl

theorem kind_of_scanString (h : scanString t = .found kind lexeme) : kind = .string := by
  unfold scanString at h
  split at h
  · cases h
  · split at h
    · split at h <;> cases h
      rfl
    · cases h

theorem eq_cons_of_scanVariable (h : scanVariable t = .found kind lexeme) :
    kind = .variableName ∧ lexeme.head? = some '$' := by
  unfold scanVariable at h
  split at h
  · split at h <;> cases h
    exact ⟨rfl, rfl⟩
  · cases h

theorem kind_of_scanNumber (h : scanNumber t = .found kind lexeme) : kind = .number := by
  unfold scanNumber at h
  split at h
  · cases h
  · split at h <;> cases h
    rfl

/-- A word starts as words do, and is a keyword exactly if it is reserved. -/
theorem isWordStart_of_scanWord (h : scanWord t = .found kind lexeme) :
    kind = (if isKeyword lexeme then .keyword else .identifier) ∧
      lexeme.head?.any isWordStart = true := by
  unfold scanWord at h
  split at h
  · cases h
  · next c t =>
    split at h
    · next hstart =>
      cases h
      refine ⟨rfl, ?_⟩
      rw [List.takeWhile_cons_of_pos (by rw [isWordContinue, hstart, Bool.true_or])]
      exact hstart
    · cases h

theorem kind_of_scanWhitespace (h : scanWhitespace t = .found kind lexeme) :
    kind = .whitespace := by
  unfold scanWhitespace at h
  split at h <;> cases h
  rfl

theorem kind_of_scanPunctuation (h : scanPunctuation t = .found kind lexeme) :
    kind = .punctuation := by
  unfold scanPunctuation at h
  split at h
  · cases h
    rfl
  · cases h
  · split at h <;> cases h
    rfl

/-- A rule finds only tokens of its own kinds. -/
theorem kind_mem_kinds (r : LexRule) (h : r.scan t = .found kind lexeme) : kind ∈ r.kinds := by
  cases r with
  | tag => exact List.mem_singleton.2 (kind_of_scanOneOf h)
  | comment => exact List.mem_singleton.2 (kind_of_scanComment h)
  | string => exact List.mem_singleton.2 (kind_of_scanString h)
  | variableName => exact List.mem_singleton.2 (eq_cons_of_scanVariable h).1
  | number => exact List.mem_singleton.2 (kind_of_scanNumber h)
  | word =>
    rw [(isWordStart_of_scanWord h).1]
    split <;> simp [kinds]
  | whitespace => exact List.mem_singleton.2 (kind_of_scanWhitespace h)
  | punctuation => exact List.mem_singleton.2 (kind_of_scanPunctuation h)
  | literal text found priority => exact List.mem_singleton.2 (kind_of_scanOneOf h)

/-- Two rules of the host language find no tokens of the same kind. -/
theorem eq_of_mem_kinds {r r' : LexRule} (hr : r ∈ standard) (hr' : r' ∈ standard)
    (h : kind ∈ r.kinds) (h' : kind ∈ r'.kinds) : r = r' := by
  have hall : ∀ r ∈ standard, ∀ r' ∈ standard, ∀ k ∈ r.kinds, k ∈ r'.kinds → r = r' := by decide
  exact hall r hr r' hr' kind h h'

end LexRule

namespace Lexer

/-- The next token is what some rule finds. -/
theorem exists_scan_of_firstToken {p : Position} {c : Char} {t : Text} {rules : List LexRule}
    {token : Token} (h : firstToken p c t rules = .ok token) :
    ∃ r ∈ rules, r.scan (c :: t) = .found token.kind token.lexeme := by
  induction rules with
  | nil => cases h
  | cons r rules ih =>
    have hlater (h : firstToken p c t rules = .ok token) :
        ∃ r' ∈ r :: rules, r'.scan (c :: t) = .found token.kind token.lexeme := by
      obtain ⟨r', hmem, hscan⟩ := ih h
      exact ⟨r', List.mem_cons_of_mem r hmem, hscan⟩
    unfold firstToken at h
    split at h
    · exact hlater h
    · split at h
      · exact hlater h
      · exact hlater h
      · next kind d lexeme hscan =>
        simp only [Except.ok.injEq] at h
        subst h
        exact ⟨r, List.mem_cons_self, hscan⟩
      · cases h

namespace Lexes

variable {rules : List LexRule} {p : Position} {t : Text} {tokens : List Token}

/-- Every token of a run is what some rule finds. -/
theorem exists_scan (h : Lexes rules p t tokens) :
    ∀ token ∈ tokens, ∃ r ∈ rules, ∃ u, r.scan u = .found token.kind token.lexeme := by
  induction h with
  | nil => exact fun _ hmem => absurd hmem List.not_mem_nil
  | cons hfirst _ _ ih =>
    obtain ⟨r, hr, hscan⟩ := exists_scan_of_firstToken hfirst
    exact List.forall_mem_cons.2 ⟨⟨r, hr, _, hscan⟩, ih⟩

end Lexes

end Lexer

end SourceMacros
