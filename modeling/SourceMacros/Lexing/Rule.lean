import SourceMacros.Cursor
import SourceMacros.Token
import SourceMacros.Lexing.Error
import SourceMacros.Text.WhiteSpace

/-!
# Lexing rules

A lexing rule looks at the front of a text and either declines, finds a token
there, or reports that a construct is never closed. There is a rule for each
lexical category of the host language, and literal rules, which take one fixed
text. Every rule has a priority, and most can rule themselves out by looking
at the first character alone.
-/

namespace SourceMacros

/-- What a lexing rule says about the front of a text. -/
inductive Scan where
  /-- The text does not start with a token of this rule. -/
  | declined
  /-- The text starts with this lexeme. -/
  | found (kind : TokenKind) (lexeme : Text)
  /-- The text starts a construct that is never closed. -/
  | unterminated (what : OpenConstruct)
  deriving DecidableEq

/-- A rule that recognises tokens. -/
inductive LexRule where
  /-- Opening and closing tags of the host language. -/
  | tag
  /-- Line comments and block comments. A hash sign in front of a square
  bracket opens an attribute and no comment. -/
  | comment
  /-- Literals between single or double quotes, kept whole. -/
  | string
  /-- Names after a dollar sign. -/
  | variableName
  /-- Integer and decimal literals in any base, with underscores. -/
  | number
  /-- Identifiers and keywords. -/
  | word
  /-- Runs of white space, line feeds included. -/
  | whitespace
  /-- Operators, the longest first, and single punctuation characters. -/
  | punctuation
  /-- One fixed text, which may be empty. -/
  | literal (text : Text) (kind : TokenKind) (priority : Int)
  deriving DecidableEq

/-! ## Classes of characters -/

/-- An ASCII letter. -/
def isAsciiLetter (c : Char) : Bool :=
  ('a' ≤ c && c ≤ 'z') || ('A' ≤ c && c ≤ 'Z')

/-- An ASCII digit. -/
def isAsciiDigit (c : Char) : Bool :=
  '0' ≤ c && c ≤ '9'

/-- An ASCII letter, an ASCII digit or an underscore. -/
def isAsciiWordChar (c : Char) : Bool :=
  isAsciiLetter c || isAsciiDigit c || c == '_'

/-- Words start with a letter, an underscore, or any character beyond ASCII
that is not white space. -/
def isWordStart (c : Char) : Bool :=
  isAsciiLetter c || c == '_' || (127 < c.toNat && !Text.isWhiteSpace c)

/-- Words go on with digits too. -/
def isWordContinue (c : Char) : Bool :=
  isWordStart c || isAsciiDigit c

/-- A printable ASCII character that is no letter, digit or space. -/
def isAsciiPunctuation (c : Char) : Bool :=
  33 ≤ c.toNat && c.toNat ≤ 126 && !isAsciiLetter c && !isAsciiDigit c

/-! ## Scanning -/

/-- The tags of the host language. -/
def tags : List Text :=
  ["<?php", "<?=", "?>"].map String.toList

/-- The operators of more than one character, longer ones first. -/
def operators : List Text :=
  ["<=>", "**=", "===", "!==", "??=", "?->", "<<=", ">>=", "...", "::", "=>",
   "->", "==", "!=", "<>", "<=", ">=", "&&", "||", "??", "++", "--", "+=",
   "-=", "*=", "/=", ".=", "%=", "&=", "|=", "^=", "<<", ">>",
   "**"].map String.toList

/-- The front of a text up to the first end of a block comment. -/
def throughBlockEnd : Text → Option Text
  | [] => none
  | '*' :: '/' :: _ => some ['*', '/']
  | c :: t => (throughBlockEnd t).map (c :: ·)

/-- The front of a text up to the first `quote` that no backslash escapes. -/
def throughQuote (quote : Char) : Text → Option Text
  | [] => none
  | ['\\'] => none
  | '\\' :: c :: t => (throughQuote quote t).map ('\\' :: c :: ·)
  | c :: t =>
    if c = quote then some [c] else (throughQuote quote t).map (c :: ·)

/-- The fraction of a number: a point, a digit, and what may follow it. -/
def fraction : Text → Text
  | '.' :: c :: t =>
    if isAsciiDigit c then '.' :: (c :: t).takeWhile isAsciiWordChar else []
  | _ => []

namespace LexRule

/-- The first of the given texts that the input starts with. -/
def scanOneOf (kind : TokenKind) (texts : List Text) (t : Text) : Scan :=
  match texts.find? (t.startsWith ·) with
  | some lexeme => .found kind lexeme
  | none => .declined

/-- A comment at the front of the input. -/
def scanComment : Text → Scan
  | '/' :: '*' :: t =>
    match throughBlockEnd t with
    | some body => .found .comment ('/' :: '*' :: body)
    | none => .unterminated .blockComment
  | '/' :: '/' :: t =>
    .found .comment (('/' :: '/' :: t).takeWhile (· != '\n'))
  | '#' :: '[' :: _ => .declined
  | '#' :: t => .found .comment (('#' :: t).takeWhile (· != '\n'))
  | _ => .declined

/-- A quoted literal at the front of the input. -/
def scanString : Text → Scan
  | [] => .declined
  | c :: t =>
    if c == '"' || c == '\x27' then
      match throughQuote c t with
      | some body => .found .string (c :: body)
      | none => .unterminated .stringLiteral
    else .declined

/-- A dollar sign and a word at the front of the input. -/
def scanVariable : Text → Scan
  | '$' :: c :: t =>
    if isWordStart c then
      .found .variableName ('$' :: (c :: t).takeWhile isWordContinue)
    else .declined
  | _ => .declined

/-- A number at the front of the input. -/
def scanNumber : Text → Scan
  | [] => .declined
  | c :: t =>
    if isAsciiDigit c then
      let whole := (c :: t).takeWhile isAsciiWordChar
      .found .number (whole ++ fraction ((c :: t).dropWhile isAsciiWordChar))
    else .declined

/-- A word at the front of the input. -/
def scanWord : Text → Scan
  | [] => .declined
  | c :: t =>
    if isWordStart c then
      let word := (c :: t).takeWhile isWordContinue
      .found (if isKeyword word then .keyword else .identifier) word
    else .declined

/-- A run of white space at the front of the input. -/
def scanWhitespace (t : Text) : Scan :=
  match t.takeWhile Text.isWhiteSpace with
  | [] => .declined
  | c :: run => .found .whitespace (c :: run)

/-- An operator or a single punctuation character at the front of the
input. -/
def scanPunctuation (t : Text) : Scan :=
  match operators.find? (t.startsWith ·), t with
  | some op, _ => .found .punctuation op
  | none, [] => .declined
  | none, c :: _ =>
    if isAsciiPunctuation c then .found .punctuation [c] else .declined

/-- What the rule says about the front of a text. -/
def scan : LexRule → Text → Scan
  | tag, t => scanOneOf .tag tags t
  | comment, t => scanComment t
  | string, t => scanString t
  | variableName, t => scanVariable t
  | number, t => scanNumber t
  | word, t => scanWord t
  | whitespace, t => scanWhitespace t
  | punctuation, t => scanPunctuation t
  | literal text kind _, t => scanOneOf kind [text] t

/-- Rules of higher priority are tried first. -/
def priority : LexRule → Int
  | tag => 40
  | comment => 30
  | string => 20
  | variableName => 20
  | number => 10
  | word => 10
  | whitespace => 1
  | punctuation => 0
  | literal _ _ p => p

/-- Can the rule apply to a text that starts with `c`? A literal rule does
not say. -/
def quickCheck : LexRule → Char → Option Bool
  | tag, c => some (c == '<' || c == '?')
  | comment, c => some (c == '/' || c == '#')
  | string, c => some (c == '"' || c == '\x27')
  | variableName, c => some (c == '$')
  | number, c => some (isAsciiDigit c)
  | word, c => some (isWordStart c)
  | whitespace, c => some (Text.isWhiteSpace c)
  | punctuation, c => some (isAsciiPunctuation c)
  | literal .., _ => none

/-- Applies one rule at a cursor. A token moves the cursor past its lexeme, and
a construct that is never closed moves it to the end. -/
def tryMatch (r : LexRule) (c : Cursor) :
    Except LexError (Option Token) × Cursor :=
  match r.scan c.remaining with
  | .declined => (.ok none, c)
  | .found kind lexeme =>
    (.ok (some ⟨kind, lexeme, c.position⟩), c.skip lexeme)
  | .unterminated what =>
    (.error (.unterminated what c.position), c.skip c.remaining)

/-- The rules of the host language. -/
def standard : List LexRule :=
  [tag, comment, string, variableName, number, word, whitespace, punctuation]

end LexRule

end SourceMacros
