import SourceMacros.Lexing.Lexer

/-!
# Token streams

A stream is a token sequence with a cursor into it. The cursor rests on a
significant token or at the end; trivia stays in the sequence, so that the
stream still writes out the source it came from, but moving the cursor never
stops on it. Only a restored checkpoint can put the cursor anywhere else.
-/

namespace SourceMacros

/-- A token sequence and an index into it. -/
structure TokenStream where
  tokens : List Token
  cursor : Nat
  deriving DecidableEq

namespace TokenStream

/-- The first index from `i` on that holds no trivia. -/
def settle (tokens : List Token) (i : Nat) : Nat :=
  i + ((tokens.drop i).takeWhile Token.isTrivia).length

/-- A stream at the first significant token. -/
def ofTokens (tokens : List Token) : TokenStream :=
  ⟨tokens, settle tokens 0⟩

/-- A stream over the tokens of a source. -/
def ofSource (source : Text) : Except LexError TokenStream :=
  (lex source).map ofTokens

/-- The token under the cursor, if any is left. -/
def current (s : TokenStream) : Option Token :=
  s.tokens[s.cursor]?

/-- Moves past the current token. Nothing moves at the end. -/
def next (s : TokenStream) : TokenStream :=
  if s.cursor < s.tokens.length then
    ⟨s.tokens, settle s.tokens (s.cursor + 1)⟩
  else s

/-- Is no token left? -/
def isEmpty (s : TokenStream) : Bool :=
  s.tokens.length ≤ s.cursor

/-- The number of tokens from the cursor on, trivia included. -/
def left (s : TokenStream) : Nat :=
  s.tokens.length - s.cursor

/-- The position of the current token. At the end it is the position past the
last token. -/
def position (s : TokenStream) : Position :=
  match s.current, s.tokens.getLast? with
  | some token, _ => token.position
  | none, some last => last.endPosition
  | none, none => Position.start

/-- Where the cursor stands. -/
def checkpoint (s : TokenStream) : Checkpoint :=
  ⟨s.cursor, s.position⟩

/-- Goes to a checkpoint, or to the end if that lies in front of it. -/
def restore (s : TokenStream) (saved : Checkpoint) : TokenStream :=
  ⟨s.tokens, min saved.index s.tokens.length⟩

/-- A token sequence without the trivia at its end. -/
def dropTrailingTrivia (tokens : List Token) : List Token :=
  (tokens.reverse.dropWhile Token.isTrivia).reverse

/-- The tokens consumed since index `start`, without the trivia that trails
them. -/
def spanFrom (s : TokenStream) (start : Nat) : List Token :=
  dropTrailingTrivia ((s.tokens.take s.cursor).drop start)

/-- The run of trivia directly in front of the cursor. -/
def triviaBefore (s : TokenStream) : List Token :=
  ((s.tokens.take s.cursor).reverse.takeWhile Token.isTrivia).reverse

/-- The significant tokens from the cursor on. -/
def remaining (s : TokenStream) : List Token :=
  (s.tokens.drop s.cursor).filter Token.isSignificant

/-- The text of the whole sequence. -/
def text (s : TokenStream) : Text :=
  Token.text s.tokens

end TokenStream

end SourceMacros
