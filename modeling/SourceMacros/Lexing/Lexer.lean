import SourceMacros.Lexing.Rule

/-!
# The lexer

A lexer tries its rules by priority at the front of what is left of the source;
the first that finds a lexeme gives the next token. A rule that finds an empty
lexeme would never get further, so it counts as declined. No character is
dropped: the lexemes of the result are the source.
-/

namespace SourceMacros

/-- Puts a rule in front of those with the same or a lower priority. -/
def LexRule.insertByPriority (r : LexRule) : List LexRule → List LexRule
  | [] => [r]
  | s :: rules =>
    if s.priority ≤ r.priority then r :: s :: rules
    else s :: insertByPriority r rules

/-- The rules by descending priority. Rules of one priority keep their
order. -/
def LexRule.byPriority : List LexRule → List LexRule
  | [] => []
  | r :: rules => r.insertByPriority (byPriority rules)

/-- A list of rules in the order in which they are tried. -/
structure Lexer where
  rules : List LexRule
  deriving DecidableEq

namespace Lexer

/-- A lexer that tries rules of higher priority first. -/
def ofRules (rules : List LexRule) : Lexer :=
  ⟨LexRule.byPriority rules⟩

/-- The lexer of the host language. -/
def standard : Lexer := ofRules LexRule.standard

/-- The token that the first fitting rule finds in `c :: t`, a text at position
`p`. -/
def firstToken (p : Position) (c : Char) (t : Text) :
    List LexRule → Except LexError Token
  | [] => .error (.unexpectedCharacter c p)
  | r :: rules =>
    if r.quickCheck c = some false then firstToken p c t rules
    else
      match r.scan (c :: t) with
      | .declined => firstToken p c t rules
      | .found _ [] => firstToken p c t rules
      | .found kind (d :: lexeme) => .ok ⟨kind, d :: lexeme, p⟩
      | .unterminated what => .error (.unterminated what p)

/-- Splits a text at position `p` into tokens, where the first `pending`
characters belong to a token found before. -/
def tokenizeFrom (rules : List LexRule) :
    (pending : Nat) → Position → Text → Except LexError (List Token)
  | _, _, [] => .ok []
  | pending + 1, p, c :: t => tokenizeFrom rules pending (p.advance c) t
  | 0, p, c :: t =>
    match firstToken p c t rules with
    | .error e => .error e
    | .ok token =>
      match tokenizeFrom rules (token.lexeme.length - 1) (p.advance c) t with
      | .error e => .error e
      | .ok tokens => .ok (token :: tokens)

/-- Splits a whole source into tokens, trivia included. -/
def tokenize (l : Lexer) (source : Text) : Except LexError (List Token) :=
  tokenizeFrom l.rules 0 Position.start source

end Lexer

/-- Splits a source of the host language into tokens. -/
def lex (source : Text) : Except LexError (List Token) :=
  Lexer.standard.tokenize source

end SourceMacros
