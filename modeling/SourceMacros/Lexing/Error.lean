import SourceMacros.Position
import SourceMacros.Text.Quoted

/-!
# Failures of lexing

Source that cannot be split into tokens: a character that no rule takes, or a
comment or string that is never closed.
-/

namespace SourceMacros

/-- What can be left open at the end of a source. -/
inductive OpenConstruct where
  | blockComment
  | stringLiteral
  deriving DecidableEq

/-- The name of a construct in messages. -/
def OpenConstruct.name : OpenConstruct → Text
  | blockComment => "block comment".toList
  | stringLiteral => "string literal".toList

/-- Why a source cannot be split into tokens. -/
inductive LexError where
  /-- No rule takes the character at this position. -/
  | unexpectedCharacter (c : Char) (position : Position)
  /-- A construct that starts at this position is never closed. -/
  | unterminated (what : OpenConstruct) (position : Position)
  deriving DecidableEq

namespace LexError

/-- Where the failure was found. -/
def position : LexError → Position
  | unexpectedCharacter _ p => p
  | unterminated _ p => p

/-- The failure in words. -/
def message : LexError → Text
  | unexpectedCharacter c p =>
    "unexpected character ".toList ++ Text.quotedChar c ++ " at ".toList
      ++ p.render
  | unterminated what p =>
    "unterminated ".toList ++ what.name ++ " starting at ".toList ++ p.render

end LexError

end SourceMacros
