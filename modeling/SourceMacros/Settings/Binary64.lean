import SourceMacros.Text.Basic

/-!
# Binary floating-point numbers

The numbers with a significand of 53 bits that settings can hold, with the three
things that are done with them: reading a decimal, rounding to a natural number,
and writing the fewest digits that read back. All arithmetic is on natural
numbers, so nothing is lost on the way.
-/

namespace SourceMacros

/-- A floating-point number of 64 bits. The significand of a finite number is
below `2 ^ 53`, and from `2 ^ 52` on unless the exponent is the least one. -/
inductive Binary64 where
  | finite (negative : Bool) (significand : Nat) (exponent : Int)
  | infinite (negative : Bool)
  | nan
  deriving DecidableEq

namespace Binary64

/-- The least exponent of a finite number. -/
def minExponent : Int := -1074

/-- The greatest exponent of a finite number. -/
def maxExponent : Int := 971

/-- The natural number nearest to `n / d`; a tie goes to the even one. -/
def nearestEven (n d : Nat) : Nat :=
  let twice := 2 * (n % d)
  if d < twice ∨ (twice = d ∧ n / d % 2 = 1) then n / d + 1 else n / d

/-- Numerator and denominator of `n / d` divided by `base ^ e`. -/
def descale (base n d : Nat) (e : Int) : Nat × Nat :=
  if 0 ≤ e then (n, d * base.pow e.toNat) else (n * base.pow (-e).toNat, d)

/-- The number nearest to `n / d`. -/
def ofRatio (negative : Bool) (n d : Nat) : Binary64 :=
  if n = 0 then finite negative 0 minExponent
  else
    let low := max minExponent ((n.log2 : Int) - d.log2 - 53)
    let (a, b) := descale 2 n d low
    let e := if a / b < Nat.pow 2 53 then low else low + 1
    let (a, b) := descale 2 n d e
    let m := nearestEven a b
    let (m, e) := if m = Nat.pow 2 53 then (Nat.pow 2 52, e + 1) else (m, e)
    if maxExponent < e then infinite negative else finite negative m e

/-- The number nearest to `digits * 10 ^ e`. Exponents far outside the range are
settled without computing the power. -/
def ofDecimal (negative : Bool) (digits : Nat) (e : Int) : Binary64 :=
  if digits = 0 then ofRatio negative 0 1
  else if 400 < e then infinite negative
  else if e < -(400 + digits.log2 : Int) then ofRatio negative 0 1
  else
    let (n, d) := descale 10 digits 1 (-e)
    ofRatio negative n d

/-- Is the number zero, of either sign? -/
def isZero : Binary64 → Bool
  | finite _ m _ => m == 0
  | _ => false

/-- The greatest natural number of 64 bits. -/
def maxNatural : Nat := Nat.pow 2 64 - 1

/-- The natural number of 64 bits nearest to the number. A half goes up, and
what lies outside the range goes to its end. -/
def toNatural : Binary64 → Nat
  | finite false m e =>
    let (n, d) := descale 2 m 1 (-e)
    min maxNatural ((2 * n + d) / (2 * d))
  | infinite false => maxNatural
  | _ => 0

/-! ## The fewest digits -/

/-- The number of digits of `n / d` in front of the point; below one, zero or
minus the number of zeros behind the point. -/
def magnitude (n d : Nat) : Int :=
  if d ≤ n then (Nat.toDigits 10 (n / d)).length
  else -((List.range 400).find? (fun j => d ≤ n * Nat.pow 10 (j + 1))).getD 400

/-- The best decimal of `count` digits for `n / d`, if one reads back. -/
def decimalOf? (n d count : Nat) : Option (Nat × Int) :=
  let e := magnitude n d - count
  let (a, b) := descale 10 n d e
  let below := a / b
  let reads := fun c => decide (ofDecimal false c e = ofRatio false n d)
  if reads below && (!reads (below + 1) || 2 * (a % b) ≤ b) then
    some (below, e)
  else if reads (below + 1) then some (below + 1, e)
  else none

/-- A positive decimal `digits * 10 ^ e` without an exponent and without zeros
at the end of its fraction. -/
def positional (digits : Nat) (e : Int) : Text :=
  let ds := Nat.toDigits 10 digits
  if 0 ≤ e then ds ++ List.replicate e.toNat '0'
  else
    let places := (-e).toNat
    let padded := List.replicate (places + 1 - ds.length) '0' ++ ds
    let fraction := padded.drop (padded.length - places)
    let whole := padded.take (padded.length - places)
    match (fraction.reverse.dropWhile (· == '0')).reverse with
    | [] => whole
    | kept => whole ++ '.' :: kept

/-- The number in the fewest digits that read back, without an exponent. -/
def render : Binary64 → Text
  | nan => "NaN".toList
  | infinite negative => (if negative then ['-'] else []) ++ "inf".toList
  | finite negative m e =>
    let (n, d) := descale 2 m 1 (-e)
    let shown :=
      if m = 0 then ['0']
      else
        match (List.range 17).findSome? (fun i => decimalOf? n d (i + 1)) with
        | some (digits, e) => positional digits e
        | none => []
    (if negative then ['-'] else []) ++ shown

end Binary64

end SourceMacros
