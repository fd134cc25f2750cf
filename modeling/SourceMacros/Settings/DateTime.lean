import SourceMacros.Lexing.Rule

/-!
# Dates and times

A date, a time of day, or both, and with a date also an offset from universal
time. `DateTime.ofText?` reads the usual notation and `DateTime.render` writes
it. Writing normalises: the letters are capitals, a `T` stands between date and
time, and zeros at the end of a fraction are dropped.
-/

namespace SourceMacros

/-- A day of the calendar. Every month may have 31 days. -/
structure Date where
  year : Nat
  month : Nat
  day : Nat
  deriving DecidableEq

/-- A time of day. -/
structure ClockTime where
  hour : Nat
  minute : Nat
  second : Nat
  nanosecond : Nat
  deriving DecidableEq

/-- The distance from universal time. -/
inductive TimeOffset where
  | universal
  /-- The hours carry the sign, so a distance below one hour has none. -/
  | fixed (hours : Int) (minutes : Nat)
  deriving DecidableEq

/-- A date, a time or both. -/
structure DateTime where
  date : Option Date
  time : Option ClockTime
  offset : Option TimeOffset
  deriving DecidableEq

namespace DateTime

/-! ## Reading -/

/-- Reads `count` digits behind the number `n`. -/
def readDigits : (count n : Nat) → Text → Option (Nat × Text)
  | 0, n, t => some (n, t)
  | _ + 1, _, [] => none
  | count + 1, n, c :: t =>
    if isAsciiDigit c then readDigits count (10 * n + (c.toNat - '0'.toNat)) t
    else none

/-- Reads one given character. -/
def readMark (mark : Char) : Text → Option Text
  | [] => none
  | c :: t => if c = mark then some t else none

/-- Reads year, month and day. -/
def readDate (t : Text) : Option (Date × Text) := do
  let (year, t) ← readDigits 4 0 t
  let t ← readMark '-' t
  let (month, t) ← readDigits 2 0 t
  let t ← readMark '-' t
  let (day, t) ← readDigits 2 0 t
  if 1 ≤ month ∧ month ≤ 12 ∧ 1 ≤ day ∧ day ≤ 31 then
    some (⟨year, month, day⟩, t)
  else none

/-- Reads the fraction of a second, if there is one, in nanoseconds. Digits
behind the ninth are dropped. -/
def readFraction : Text → Option (Nat × Text)
  | '.' :: t =>
    match t.takeWhile isAsciiDigit with
    | [] => none
    | ds =>
      (readDigits 9 0 (ds ++ List.replicate 9 '0')).map fun p =>
        (p.1, t.dropWhile isAsciiDigit)
  | t => some (0, t)

/-- Reads a time of day. The day may end at hour 24. -/
def readTime (t : Text) : Option (ClockTime × Text) := do
  let (hour, t) ← readDigits 2 0 t
  let t ← readMark ':' t
  let (minute, t) ← readDigits 2 0 t
  let t ← readMark ':' t
  let (second, t) ← readDigits 2 0 t
  let (nanosecond, t) ← readFraction t
  if hour ≤ 24 ∧ minute ≤ 59 ∧ second ≤ 59 then
    some (⟨hour, minute, second, nanosecond⟩, t)
  else none

/-- Reads a signed distance from universal time behind its sign. -/
def readFixed (negative : Bool) (t : Text) : Option (TimeOffset × Text) := do
  let (hours, t) ← readDigits 2 0 t
  let t ← readMark ':' t
  let (minutes, t) ← readDigits 2 0 t
  return (.fixed (if negative then -(hours : Int) else hours) minutes, t)

/-- Reads what may stand behind a date and time. -/
def readOffset : Text → Option (Option TimeOffset × Text)
  | [] => some (none, [])
  | 'Z' :: t => some (some .universal, t)
  | 'z' :: t => some (some .universal, t)
  | '+' :: t => (readFixed false t).map fun p => (some p.1, p.2)
  | '-' :: t => (readFixed true t).map fun p => (some p.1, p.2)
  | _ => none

/-- Reads the time behind a date. -/
def readTimeBehind : Text → Option (Option ClockTime × Text)
  | [] => some (none, [])
  | c :: t =>
    if c = 'T' ∨ c = 't' ∨ c = ' ' then
      (readTime t).map fun p => (some p.1, p.2)
    else some (none, c :: t)

/-- Reads a text whose third character is a colon as a time, and any other text
as a date with what may follow it. -/
def ofText? (t : Text) : Option DateTime := do
  if t[2]? = some ':' then
    let (time, t) ← readTime t
    if t.isEmpty then some ⟨none, some time, none⟩ else none
  else
    let (date, t) ← readDate t
    let (time, t) ← readTimeBehind t
    let (offset, t) ← readOffset t
    if t.isEmpty then some ⟨some date, time, offset⟩ else none

/-! ## Writing -/

/-- A number in at least `width` digits. -/
def padded (width n : Nat) : Text :=
  let ds := Nat.toDigits 10 n
  List.replicate (width - ds.length) '0' ++ ds

/-- Year, month and day with hyphens between them. -/
def renderDate (d : Date) : Text :=
  padded 4 d.year ++ '-' :: padded 2 d.month ++ '-' :: padded 2 d.day

/-- Hour, minute and second with colons between them, and the fraction of a
second if there is one. -/
def renderTime (t : ClockTime) : Text :=
  let fraction := ((padded 9 t.nanosecond).reverse.dropWhile (· == '0')).reverse
  padded 2 t.hour ++ ':' :: padded 2 t.minute ++ ':' :: padded 2 t.second
    ++ if fraction.isEmpty then [] else '.' :: fraction

/-- The letter of universal time, or a sign with hours and minutes. -/
def renderOffset : TimeOffset → Text
  | .universal => ['Z']
  | .fixed hours minutes =>
    (if hours < 0 then '-' else '+') :: padded 2 hours.natAbs
      ++ ':' :: padded 2 minutes

/-- The usual notation. -/
def render (d : DateTime) : Text :=
  let date := d.date.elim [] renderDate
  let time := d.time.elim [] renderTime
  let between := if d.date.isSome && d.time.isSome then ['T'] else []
  date ++ between ++ time ++ d.offset.elim [] renderOffset

end DateTime

end SourceMacros
