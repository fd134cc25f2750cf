import SourceMacros.Rule.Parsed

/-!
# Balanced runs

Blocks and expressions are runs of tokens whose brackets nest and all close.
The scan keeps the closing brackets it waits for on a stack; it stops in front
of a closing bracket it does not wait for, in front of a terminator outside all
brackets, or at the end.
-/

namespace SourceMacros

/-- The role of a token in nesting. -/
inductive Delimiter where
  /-- Opens a pair that `closer` closes. -/
  | opens (closer : Text)
  | closes (closer : Text)
  | neutral
  deriving DecidableEq

/-- Only punctuation opens or closes brackets. -/
def Token.delimiter (t : Token) : Delimiter :=
  if t.kind ≠ .punctuation then .neutral
  else if t.lexeme = ['('] then .opens [')']
  else if t.lexeme = ['['] then .opens [']']
  else if t.lexeme = ['\x7b'] then .opens ['\x7d']
  else if t.lexeme = [')'] then .closes [')']
  else if t.lexeme = [']'] then .closes [']']
  else if t.lexeme = ['\x7d'] then .closes ['\x7d']
  else .neutral

namespace TokenStream

/-- Moves over a balanced run, waiting for the closing brackets `waiting`, the
innermost first. The scan ends after at most `fuel` tokens. -/
def skipBalanced (terminators : List Text) :
    (fuel : Nat) → (waiting : List Text) → TokenStream → Parsed Unit
  | 0, _, _ => .endless
  | fuel + 1, waiting, s =>
    match s.current with
    | none =>
      match waiting with
      | [] => .matched () s
      | closer :: _ =>
        .mismatched (Mismatch.atCursor s (Rule.quotedLexeme closer)) s
    | some token =>
      if waiting.isEmpty && terminators.contains token.lexeme then
        .matched () s
      else
        match token.delimiter, waiting with
        | .opens closer, _ =>
          skipBalanced terminators fuel (closer :: waiting) s.next
        | .closes _, [] => .matched () s
        | .closes closer, awaited :: rest =>
          if closer = awaited then skipBalanced terminators fuel rest s.next
          else .mismatched (Mismatch.atCursor s (Rule.quotedLexeme awaited)) s
        | .neutral, _ => skipBalanced terminators fuel waiting s.next

/-- Moves over the longest balanced run at the cursor. -/
def balancedRun (terminators : List Text) (s : TokenStream) : Parsed Unit :=
  skipBalanced terminators (s.left + 1) [] s

end TokenStream

end SourceMacros
