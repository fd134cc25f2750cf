import SourceMacros.Settings.Toml.Scalar
import SourceMacros.Settings.Toml.Section

/-!
# Reading documents

A reader for settings files. It goes through the text line by line, gathers the
fields of each section, and puts the sections together. Whatever is not well
formed has no reading.
-/

namespace SourceMacros

namespace Toml

/-! ## Values -/

mutual

/-- Reads a value, nested at most `fuel` deep. -/
def readValue : (fuel : Nat) → Text → Option (Item × Text)
  | 0, _ => none
  | fuel + 1, t =>
    match t with
    | '[' :: r => (readItems fuel r).map fun p => (.array p.1, p.2)
    | '\x7b' :: r =>
      match r.dropWhile isBlank with
      | '\x7d' :: r' => some (.table false [], r')
      | r' => (readFields fuel [] r').map fun p => (.table false p.1, p.2)
    | c :: _ =>
      if c = '"' ∨ c = '\x27' then
        (readQuoted t).map fun p => (.text p.1.1, p.2)
      else readScalar t
    | [] => none

/-- Reads the items of an array up to its closing bracket. -/
def readItems : (fuel : Nat) → Text → Option (List Item × Text)
  | 0, _ => none
  | fuel + 1, t =>
    match skipLines t.length t with
    | ']' :: r => some ([], r)
    | r =>
      match readValue fuel r with
      | none => none
      | some (item, r) =>
        match skipLines r.length r with
        | ',' :: r => (readItems fuel r).map fun p => (item :: p.1, p.2)
        | ']' :: r => some ([item], r)
        | _ => none

/-- Reads the fields of an inline table up to its closing brace. -/
def readFields : (fuel : Nat) → Fields → Text → Option (Fields × Text)
  | 0, _, _ => none
  | fuel + 1, fs, t =>
    match readDottedKey t.length t with
    | none => none
    | some (keys, r) =>
      match r.dropWhile isBlank with
      | '=' :: r =>
        match readValue fuel (r.dropWhile isBlank) with
        | none => none
        | some (item, r) =>
          match addField keys item fs, r.dropWhile isBlank with
          | some fs, ',' :: r => readFields fuel fs (r.dropWhile isBlank)
          | some fs, '\x7d' :: r => some (fs, r)
          | _, _ => none
      | _ => none

end

/-! ## Lines -/

/-- Reads a header behind its opening brackets, and the end of its line. -/
def readHeader (double : Bool) (t : Text) : Option (List Text × Text) := do
  let (keys, r) ← readDottedKey t.length (t.dropWhile isBlank)
  let r ← match double, r.dropWhile isBlank with
    | false, ']' :: r => some r
    | true, ']' :: ']' :: r => some r
    | _, _ => none
  let r ← endLine r
  return (keys, r)

/-- Reads a key with its value into a section, and the end of its line. -/
def readField (s : Section) (t : Text) : Option (Section × Text) := do
  let (keys, r) ← readDottedKey t.length t
  let r ← match r.dropWhile isBlank with
    | '=' :: r => some r
    | _ => none
  let (item, r) ← readValue r.length (r.dropWhile isBlank)
  let r ← endLine r
  let fields ← addField keys item s.fields
  return ({ s with fields := fields }, r)

/-- Reads line by line, at most `fuel` of them, into the section `s` and those
behind it. -/
def readSections : (fuel : Nat) → (s : Section) → Text → Option (List Section)
  | 0, _, _ => none
  | fuel + 1, s, t =>
    match skipLines t.length t with
    | [] => some [s]
    | '[' :: '[' :: r =>
      match readHeader true r with
      | some (keys, r) =>
        (readSections fuel ⟨keys, true, []⟩ r).map (s :: ·)
      | none => none
    | '[' :: r =>
      match readHeader false r with
      | some (keys, r) =>
        (readSections fuel ⟨keys, false, []⟩ r).map (s :: ·)
      | none => none
    | r =>
      match readField s r with
      | some (s, r) => readSections fuel s r
      | none => none

/-- Reads a document into the fields of its root table. A byte order mark at its
start is skipped. -/
def read? (t : Text) : Option (List (Text × Value)) :=
  let t := match t with
    | '\ufeff' :: r => r
    | r => r
  (readSections (t.length + 1) ⟨[], false, []⟩ t).bind Section.rootFields?

end Toml

end SourceMacros
