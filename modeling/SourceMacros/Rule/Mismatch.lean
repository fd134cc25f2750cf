import SourceMacros.TokenStream

/-!
# Mismatches

A rule that does not match says what it expected and what it found instead.
This is an ordinary outcome: alternatives and optional rules take it in.
-/

namespace SourceMacros

/-- What was expected, and the lexeme found there, if any. -/
structure Mismatch where
  expected : Text
  found : Option Text
  position : Position
  deriving DecidableEq

namespace Mismatch

/-- A mismatch at the cursor of a stream. -/
def atCursor (s : TokenStream) (expected : Text) : Mismatch :=
  ⟨expected, s.current.map Token.lexeme, s.position⟩

/-- The mismatch in words. -/
def message (m : Mismatch) : Text :=
  "expected ".toList ++ m.expected ++ " at ".toList ++ m.position.render
    ++ ", found ".toList ++ m.found.getD "end of input".toList

end Mismatch

end SourceMacros
