import SourceMacros.Position

/-!
# Tokens

A token is a lexeme with its kind and the position it was found at. White space
and comments are *trivia*: they stay in every token sequence, so that the source
can be written back unchanged, but rules do not see them. All other tokens are
*significant*.
-/

namespace SourceMacros

/-- The lexical category of a token. -/
inductive TokenKind where
  | whitespace
  | comment
  /-- An opening or closing tag of the host language. -/
  | tag
  /-- A name after a dollar sign. -/
  | variableName
  | identifier
  | keyword
  | number
  /-- A complete quoted literal. -/
  | string
  | punctuation
  deriving DecidableEq

namespace TokenKind

/-- White space and comments are trivia. -/
def isTrivia : TokenKind → Bool
  | whitespace | comment => true
  | _ => false

/-- The name of a kind in descriptions and messages. -/
def name : TokenKind → Text
  | whitespace => "whitespace".toList
  | comment => "comment".toList
  | tag => "tag".toList
  | variableName => "variable".toList
  | identifier => "identifier".toList
  | keyword => "keyword".toList
  | number => "number".toList
  | string => "string".toList
  | punctuation => "punctuation".toList

/-- Every kind. -/
def all : List TokenKind :=
  [whitespace, comment, tag, variableName, identifier, keyword, number,
   string, punctuation]

/-- The kind with the given name. -/
def ofName? (t : Text) : Option TokenKind :=
  all.find? (·.name == t)

theorem mem_all (k : TokenKind) : k ∈ all := by
  cases k <;> simp [all]

theorem ofName?_name (k : TokenKind) : ofName? k.name = some k := by
  cases k <;> decide

end TokenKind

/-- The reserved words. Names of scalar types are not among them, so they are
identifiers and can stand for a class name. -/
def keywords : List Text :=
  ["abstract", "and", "array", "as", "break", "callable", "case", "catch",
   "class", "clone", "const", "continue", "declare", "default", "do", "echo",
   "else", "elseif", "enum", "extends", "final", "finally", "fn", "for",
   "foreach", "function", "global", "goto", "if", "implements", "include",
   "include_once", "instanceof", "insteadof", "interface", "match",
   "namespace", "new", "or", "print", "private", "protected", "public",
   "readonly", "require", "require_once", "return", "static", "switch",
   "throw", "trait", "try", "use", "var", "while", "xor",
   "yield"].map String.toList

/-- Reserved words are known in any letter case. -/
def isKeyword (word : Text) : Bool :=
  keywords.any (Text.eqIgnoreAsciiCase · word)

/-- A lexeme with its kind and position. -/
structure Token where
  kind : TokenKind
  lexeme : Text
  position : Position
  deriving DecidableEq

namespace Token

/-- A token that stood in no source. -/
def synthetic (kind : TokenKind) (lexeme : Text) : Token :=
  ⟨kind, lexeme, Position.start⟩

/-- Is the token white space or a comment? -/
def isTrivia (t : Token) : Bool :=
  t.kind.isTrivia

/-- Is the token seen by rules? -/
def isSignificant (t : Token) : Bool :=
  !t.isTrivia

/-- Has the token this kind and this lexeme, wherever it stands? -/
def is (t : Token) (kind : TokenKind) (lexeme : Text) : Bool :=
  t.kind == kind && t.lexeme == lexeme

/-- The position past the token. -/
def endPosition (t : Token) : Position :=
  t.position.after t.lexeme

/-- The lexemes of a token sequence, one after the other. -/
def text (ts : List Token) : Text :=
  ts.flatMap Token.lexeme

theorem text_nil : text [] = [] := rfl

theorem text_cons (t : Token) (ts : List Token) :
    text (t :: ts) = t.lexeme ++ text ts := by
  simp [text]

theorem text_append (ts us : List Token) :
    text (ts ++ us) = text ts ++ text us := by
  simp [text]

end Token

end SourceMacros
