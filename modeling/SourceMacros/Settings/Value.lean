import SourceMacros.Named
import SourceMacros.Settings.Binary64

/-!
# Values of settings

Settings come from several places as trees of values. A later tree is merged
into an earlier one table by table; any other value takes the place of what
stood there. A value can also be put at a path of keys and indices, which turns
whatever stands in its way into tables and arrays; at a key it is merged in, and
at an index it takes the place.
-/

namespace SourceMacros

/-- A value, or tables and arrays of values. -/
inductive Value where
  | nil
  | bool (b : Bool)
  | integer (i : Int)
  | float (x : Binary64)
  | text (t : Text)
  | table (fields : List (Text × Value))
  | array (items : List Value)

/-- A step from a value to one inside it. A negative index counts from the
end. -/
inductive KeyStep where
  | field (name : Text)
  | index (i : Int)
  deriving DecidableEq

namespace Value

/-- The fields of a table. Other values have none. -/
def fields : Value → List (Text × Value)
  | table fs => fs
  | _ => []

/-- The items of an array. Other values have none. -/
def items : Value → List Value
  | array vs => vs
  | _ => []

/-- The value of a field. -/
def field? (v : Value) (name : Text) : Option Value :=
  v.fields.lookup name

/-- Sets a field, in a table that starts empty if the value is none. -/
def setField (v : Value) (name : Text) (new : Value) : Value :=
  table (setNamed name new v.fields)

mutual

/-- What becomes of a place with the value `old` when `new` is merged in. -/
def merge (new : Value) (old : Option Value) : Value :=
  match new with
  | table fs => mergeFields fs (old.getD (table []))
  | v => v

/-- Merges fields into a value, one after the other. -/
def mergeFields : List (Text × Value) → Value → Value
  | [], v => v
  | (name, new) :: fs, v =>
    mergeFields fs (v.setField name (merge new (v.field? name)))

end

/-- Puts a value at the end of a path: merged in at a key, in place of the old
one at an index. -/
def setAt : List KeyStep → Value → Value → Value
  | [], new, _ => new
  | [.field name], new, v => mergeFields [(name, new)] v
  | .field name :: path, new, v =>
    v.setField name (setAt path new ((v.field? name).getD nil))
  | .index i :: path, new, v =>
    let n := if 0 ≤ i then i.toNat else v.items.length - i.natAbs
    let padded := v.items ++ List.replicate (n + 1 - v.items.length) nil
    array (padded.set n (setAt path new ((padded[n]?).getD nil)))

end Value

/-! ## Paths of keys -/

namespace KeyStep

/-- The characters of a name in a path of keys. -/
def isNameChar (c : Char) : Bool :=
  ('a' ≤ c && c ≤ 'z') || ('A' ≤ c && c ≤ 'Z') || ('0' ≤ c && c ≤ '9')
    || c == ' ' || c == '_' || c == '-'

/-- The value of decimal digits. -/
def digitsValue (ds : Text) : Nat :=
  ds.foldl (fun n c => 10 * n + (c.toNat - '0'.toNat)) 0

/-- Reads an index of 64 bits and the bracket behind it. -/
def readIndex (t : Text) : Option (Int × Text) :=
  let blank := fun c : Char => c == ' ' || c == '\t'
  let digit := fun c : Char => '0' ≤ c && c ≤ '9'
  let t := t.dropWhile blank
  let (negative, t) :=
    match t with
    | '-' :: r => (true, r)
    | r => (false, r)
  let ds := t.takeWhile digit
  match ds, (t.dropWhile digit).dropWhile blank with
  | [], _ => none
  | _, ']' :: rest =>
    let i : Int := if negative then -(digitsValue ds : Int) else digitsValue ds
    if -Int.pow 2 63 ≤ i ∧ i < Int.pow 2 63 then some (i, rest) else none
  | _, _ => none

/-- Reads the steps behind the first name, at most `fuel` of them. -/
def readSteps : (fuel : Nat) → Text → Option (List KeyStep)
  | _, [] => some []
  | 0, _ :: _ => none
  | fuel + 1, '.' :: t =>
    match t.takeWhile isNameChar with
    | [] => none
    | name =>
      (readSteps fuel (t.dropWhile isNameChar)).map (.field name :: ·)
  | fuel + 1, '[' :: t =>
    match readIndex t with
    | none => none
    | some (i, rest) => (readSteps fuel rest).map (.index i :: ·)
  | _ + 1, _ :: _ => none

/-- Reads a path: a name, and then names behind dots and indices in brackets. -/
def ofText? (t : Text) : Option (List KeyStep) :=
  match t.takeWhile isNameChar with
  | [] => none
  | name =>
    (readSteps t.length (t.dropWhile isNameChar)).map (.field name :: ·)

end KeyStep

end SourceMacros
