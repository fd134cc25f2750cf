import SourceMacros.Settings.Toml.Item
import SourceMacros.Settings.Toml.Key

/-!
# Numbers, dates and truth values

Unquoted values are made of words, the same as bare keys, with points, colons
and plus signs between them. The first word decides what is read: a word with a
`T`, or with a hyphen that is not the sign of an exponent, starts a date, a word
in front of a colon starts a time, and any other word a number.
-/

namespace SourceMacros

namespace Toml

/-! ## Words -/

/-- Reads a word of at least one character. -/
def readWord (t : Text) : Option (Text × Text) :=
  match t.takeWhile isBareChar with
  | [] => none
  | word => some (word, t.dropWhile isBareChar)

/-- The value of digits in a base. -/
def digitsIn (base : Nat) (ds : Text) : Nat :=
  ds.foldl (fun n c => base * n + (hexValue? c).getD 0) 0

/-- Splits off a minus sign. -/
def splitMinus : Text → Bool × Text
  | '-' :: t => (true, t)
  | t => (false, t)

/-- Reads digits with single underscores between them, which are dropped. Unless
allowed, no zero stands in front of another digit. -/
def readDigits (isDigit : Char → Bool) (zeros : Bool) (t : Text) :
    Option (Text × Text) :=
  let isPart := fun c : Char => isDigit c || c == '_'
  let groups := Text.splitWhere (· == '_') (t.takeWhile isPart)
  let ds := groups.flatten
  if groups.any List.isEmpty then none
  else if !zeros && ds.length ≠ 1 && ds.head? == some '0' then none
  else some (ds, t.dropWhile isPart)

/-- The digits of a text that holds nothing else. -/
def allDigits? (isDigit : Char → Bool) (zeros : Bool) (t : Text) :
    Option Text :=
  match readDigits isDigit zeros t with
  | some (ds, []) => some ds
  | _ => none

/-! ## Numbers -/

/-- An integer of 64 bits with a sign. -/
def boundedInteger (negative : Bool) (n : Nat) : Option Item :=
  let i : Int := if negative then -(n : Int) else n
  if -Int.pow 2 63 ≤ i ∧ i < Int.pow 2 63 then some (.integer i) else none

/-- Reads the digits of an integer in a base other than ten. -/
def basedInteger? (base : Nat) (t : Text) : Option Item :=
  let isDigit := fun c => (hexValue? c).any (· < base)
  (allDigits? isDigit true t).bind fun ds =>
    boundedInteger false (digitsIn base ds)

/-- Reads a decimal integer. -/
def integer? (t : Text) : Option Item :=
  let (negative, t) := splitMinus t
  (allDigits? isAsciiDigit false t).bind fun ds =>
    boundedInteger negative (digitsIn 10 ds)

/-- Is this the letter in front of an exponent? -/
def isExponentLetter (c : Char) : Bool :=
  c == 'e' || c == 'E'

/-- Reads an exponent: `tail` is what its word has behind the digits in front of
it, and `r` the text behind that word. An exponent with a plus sign is a word of
its own. -/
def readExponent (tail r : Text) : Option (Int × Text) :=
  match tail with
  | [] => some (0, r)
  | [c] =>
    if isExponentLetter c then do
      let (word, r) ← readWord (match r with
        | '+' :: r => r
        | r => r)
      let ds ← allDigits? isAsciiDigit true word
      return (digitsIn 10 ds, r)
    else none
  | c :: t =>
    if isExponentLetter c then
      let (negative, t) := splitMinus t
      (allDigits? isAsciiDigit true t).map fun ds =>
        let e : Int := digitsIn 10 ds
        (if negative then -e else e, r)
    else none

/-- Reads a number with a fraction or an exponent. `whole` is its word in front
of the point, `fraction` the one behind it, and `r` the text behind them. -/
def readFloat (whole : Text) (fraction : Option Text) (r : Text) :
    Option (Item × Text) := do
  let (negative, whole) := splitMinus whole
  let (ws, tail) ← readDigits isAsciiDigit false whole
  let (fs, tail) ← match fraction with
    | none => some ([], tail)
    | some word =>
      if tail.isEmpty then readDigits isAsciiDigit true word else none
  let (e, r) ← readExponent tail r
  match Binary64.ofDecimal negative (digitsIn 10 (ws ++ fs))
      (e - fs.length) with
  | .finite n m e => some (.float (.finite n m e), r)
  | _ => none

/-- The numbers that have names. -/
def namedNumber? (word : Text) : Option Binary64 :=
  let (negative, name) := splitMinus word
  if name = "inf".toList then some (.infinite negative)
  else if name = "nan".toList then some .nan
  else none

/-- Reads the number that starts with a word; `r` is the text behind it. -/
def readNumber (word r : Text) : Option (Item × Text) :=
  match word with
  | '0' :: 'x' :: t => (basedInteger? 16 t).map (·, r)
  | '0' :: 'o' :: t => (basedInteger? 8 t).map (·, r)
  | '0' :: 'b' :: t => (basedInteger? 2 t).map (·, r)
  | _ =>
    if word.any isExponentLetter then readFloat word none r
    else
      match r with
      | '.' :: r =>
        (readWord r).bind fun p => readFloat word (some p.1) p.2
      | _ =>
        match namedNumber? word with
        | some x => some (.float x, r)
        | none => (integer? word).map (·, r)

/-! ## Dates -/

/-- Does an exponent with a minus sign stand somewhere in a word? -/
def hasMinusExponent : Text → Bool
  | [] => false
  | c :: t => (isExponentLetter c && t.head? == some '-') || hasMinusExponent t

/-- Does a date start with this word? -/
def startsDate (word : Text) : Bool :=
  word.any (fun c => c == 'T' || c == 't')
    || (word.tail.contains '-' && !hasMinusExponent word)

/-- Reads a mark and a word behind it, if the mark is there. -/
def readMarked (mark : Char) (t : Text) : Option (Text × Text) :=
  match t with
  | [] => some ([], [])
  | c :: r =>
    if c = mark then (readWord r).map fun p => (mark :: p.1, p.2)
    else some ([], t)

/-- Reads minutes and seconds behind an hour, and what may follow them. -/
def readClock (t : Text) : Option (Text × Text) := do
  let (minutes, t) ← readMarked ':' t
  if minutes.isEmpty then some ([], t)
  else
    let (seconds, t) ← readMarked ':' t
    if seconds.isEmpty then none
    else
      let (fraction, t) ← readMarked '.' t
      let (hours, t) ← readMarked '+' t
      let (rest, t) ← readMarked ':' t
      return (minutes ++ seconds ++ fraction ++ hours ++ rest, t)

/-- Splits off the hour that stands behind a date and one space. -/
def splitHour (t : Text) : Text × Text :=
  match t with
  | ' ' :: r =>
    match readWord r with
    | some (word, r) => (' ' :: word, r)
    | none => ([], t)
  | _ => ([], t)

/-- Reads the date or time that starts with a word; `r` is the text behind
it. -/
def readDateTime (word r : Text) : Option (Item × Text) :=
  let (hour, r) := splitHour r
  (readClock r).map fun p => (.dateTime (word ++ hour ++ p.1), p.2)

/-! ## Scalars -/

/-- Can a number or a date start with this word? -/
def startsScalar (word : Text) : Bool :=
  (namedNumber? word).isSome
    || word.head?.any (fun c => c == '-' || isAsciiDigit c)

/-- Reads an unquoted value. -/
def readScalar (t : Text) : Option (Item × Text) := do
  match t with
  | '+' :: r =>
    let (word, r) ← readWord r
    readNumber word r
  | _ =>
    let (word, r) ← readWord t
    if word = "true".toList then some (.bool true, r)
    else if word = "false".toList then some (.bool false, r)
    else if !startsScalar word then none
    else if startsDate word || r.head? == some ':' then readDateTime word r
    else readNumber word r

end Toml

end SourceMacros
