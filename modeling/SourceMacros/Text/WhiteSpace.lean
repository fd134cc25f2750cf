import SourceMacros.Text.Basic

/-!
# White space

The characters with the Unicode property White_Space, and trimming. The set is
small and settled, so it stands here as a list of its ranges.
-/

namespace SourceMacros

namespace Text

/-- The ranges of code points with the property White_Space. -/
def whiteSpaceRanges : List (Nat × Nat) :=
  [(0x9, 0xd), (0x20, 0x20), (0x85, 0x85), (0xa0, 0xa0), (0x1680, 0x1680),
   (0x2000, 0x200a), (0x2028, 0x2029), (0x202f, 0x202f), (0x205f, 0x205f),
   (0x3000, 0x3000)]

/-- Does a list of ranges of code points hold `n`? -/
def inRanges (ranges : List (Nat × Nat)) (n : Nat) : Bool :=
  ranges.any fun r => r.1 ≤ n && n ≤ r.2

/-- A white-space character of any script. -/
def isWhiteSpace (c : Char) : Bool :=
  inRanges whiteSpaceRanges c.toNat

/-- Drops the white space at the start. -/
def trimStart (t : Text) : Text :=
  t.dropWhile isWhiteSpace

/-- Drops the white space at the end. -/
def trimEnd (t : Text) : Text :=
  (t.reverse.dropWhile isWhiteSpace).reverse

/-- Drops the white space at both ends. -/
def trim (t : Text) : Text :=
  trimEnd (trimStart t)

end Text

end SourceMacros
