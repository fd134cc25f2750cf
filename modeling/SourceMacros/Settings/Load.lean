import SourceMacros.FileSystem
import SourceMacros.Settings.Toml.Document

/-!
# Loading settings

Settings are layered: files over the defaults, in order, and single values over
all files. Values are taken generously: a number may be written as a text or a
truth value, and a truth value as a number or one of a few words.
-/

namespace SourceMacros

/-- What the toolkit can be told. -/
structure Settings where
  /-- The number of nested expansions that are allowed. -/
  maxDepth : Nat
  /-- Are finished expansions kept? -/
  retainIntermediate : Bool
  /-- The extension of generated files. -/
  extension : Text
  /-- The comment at the top of generated files. -/
  comment : Text
  /-- The entry that marks the root of a project. -/
  marker : Text
  /-- The number of directories in which the marker is looked for. -/
  searchDepth : Nat
  deriving DecidableEq

/-- Why settings could not be loaded. -/
inductive SettingsError where
  /-- The key of a single value is no path. -/
  | pathParse
  /-- A value cannot be taken for what is needed. -/
  | type
  /-- A file is not well formed. -/
  | fileParse
  /-- A required file cannot be read. -/
  | foreign
  /-- A section is no table, or a setting is missing. -/
  | message
  deriving DecidableEq

/-- One source of settings. -/
inductive Layer where
  | file (path : Path) (required : Bool)
  | value (key : Text) (v : Value)

namespace Settings

/-- The settings that hold unless something else is said. -/
def defaults : Settings where
  maxDepth := 32
  retainIntermediate := true
  extension := "php".toList
  comment :=
    "// This file is generated and changes will be overwritten.".toList
  marker := "vendor".toList
  searchDepth := 10

/-- Settings as a tree of values, section by section. -/
def toValue (s : Settings) : Value :=
  .table [
    ("expansion".toList, .table [
      ("max_depth".toList, .integer s.maxDepth),
      ("retain_intermediate".toList, .bool s.retainIntermediate)]),
    ("output".toList, .table [
      ("extension".toList, .text s.extension),
      ("comment".toList, .text s.comment)]),
    ("project".toList, .table [
      ("marker".toList, .text s.marker),
      ("search_depth".toList, .integer s.searchDepth)])]

/-! ## Taking values -/

/-- The words for true and false, in any letter case. -/
def truthWord? (t : Text) : Option Bool :=
  let word := t.map Text.asciiLower
  if ["true", "on", "yes"].any (·.toList == word) then some true
  else if ["false", "off", "no"].any (·.toList == word) then some false
  else none

/-- Reads a natural number of 64 bits. A plus sign may stand in front. -/
def natural? (t : Text) : Option Nat :=
  let ds := match t with
    | '+' :: r => r
    | r => r
  if ds.isEmpty || !ds.all isAsciiDigit then none
  else
    let n := Toml.digitsIn 10 ds
    if n ≤ Binary64.maxNatural then some n else none

/-- Takes a value for a natural number. -/
def takeNat : Value → Except SettingsError Nat
  | .integer i => if 0 ≤ i then .ok i.toNat else .error .type
  | .bool b => .ok b.toNat
  | .float x => .ok x.toNatural
  | .text t =>
    match truthWord? t with
    | some b => .ok b.toNat
    | none =>
      match natural? t with
      | some n => .ok n
      | none => .error .type
  | _ => .error .type

/-- Takes a value for a truth value. -/
def takeBool : Value → Except SettingsError Bool
  | .bool b => .ok b
  | .integer i => .ok (i != 0)
  | .float x => .ok (!x.isZero)
  | .text t =>
    if t = ['1'] then .ok true
    else if t = ['0'] then .ok false
    else
      match truthWord? t with
      | some b => .ok b
      | none => .error .type
  | _ => .error .type

/-- An integer in decimal digits. -/
def integerText (i : Int) : Text :=
  (if i < 0 then ['-'] else []) ++ Nat.toDigits 10 i.natAbs

/-- Takes a value for a text. -/
def takeText : Value → Except SettingsError Text
  | .text t => .ok t
  | .bool b => .ok (if b then "true".toList else "false".toList)
  | .integer i => .ok (integerText i)
  | .float x => .ok x.render
  | _ => .error .type

/-- Takes the two settings of a section out of it, by name from a table and by
place from an array. In a table a value of the wrong kind is found before a
missing one. -/
def takeSection {α β : Type} (sec : Option Value)
    (first : String) (takeFirst : Value → Except SettingsError α)
    (second : String) (takeSecond : Value → Except SettingsError β) :
    Except SettingsError (α × β) :=
  match sec with
  | some (.table fields) =>
    match (fields.lookup first.toList).map takeFirst,
        (fields.lookup second.toList).map takeSecond with
    | some (.error e), _ => .error e
    | _, some (.error e) => .error e
    | some (.ok a), some (.ok b) => .ok (a, b)
    | _, _ => .error .message
  | some (.array (v :: w :: _)) =>
    do return (← takeFirst v, ← takeSecond w)
  | some (.array [v]) => do
    let _ ← takeFirst v
    .error .message
  | _ => .error .message

/-- Takes settings out of a tree of values. -/
def ofValue (v : Value) : Except SettingsError Settings := do
  let (maxDepth, retain) ← takeSection (v.field? "expansion".toList)
    "max_depth" takeNat "retain_intermediate" takeBool
  let (extension, comment) ← takeSection (v.field? "output".toList)
    "extension" takeText "comment" takeText
  let (marker, searchDepth) ← takeSection (v.field? "project".toList)
    "marker" takeText "search_depth" takeNat
  return ⟨maxDepth, retain, extension, comment, marker, searchDepth⟩

/-! ## Layers -/

/-- Puts one field of a file over the values so far. Its name is taken for a
path if it can be. -/
def layField (v : Value) (f : Text × Value) : Value :=
  match KeyStep.ofText? f.1 with
  | some path => Value.setAt path f.2 v
  | none => Value.mergeFields [f] v

/-- The text of a settings file: the file itself, or the one with the extension
`toml` added if there is none. -/
def fileText? (fs : FileSystem) (p : Path) : Option Text :=
  let found :=
    if fs.isFile p then some p
    else
      let q := p.addExtension "toml".toList
      if fs.isFile q then some q else none
  match found with
  | none => none
  | some q => (fs.read q).toOption

/-- Puts the files of the layers over the values so far, in order. -/
def layFiles (fs : FileSystem) : List Layer → Value → Except SettingsError Value
  | [], v => .ok v
  | .value _ _ :: layers, v => layFiles fs layers v
  | .file p required :: layers, v =>
    match fileText? fs p with
    | none => if required then .error .foreign else layFiles fs layers v
    | some t =>
      match Toml.read? t with
      | none => .error .fileParse
      | some fields => layFiles fs layers (fields.foldl layField v)

/-- Puts the single values of the layers over the values so far. -/
def layValues : List Layer → Value → Except SettingsError Value
  | [], v => .ok v
  | .file _ _ :: layers, v => layValues layers v
  | .value key new :: layers, v =>
    match KeyStep.ofText? key with
    | none => .error .pathParse
    | some path => layValues layers (Value.setAt path new v)

/-- Are the keys of all single values paths? -/
def checkKeys (layers : List Layer) : Except SettingsError Unit :=
  (layValues layers .nil).map fun _ => ()

/-- Loads settings from layers over the defaults. The keys of single values are
looked at before any file. -/
def load (fs : FileSystem) (layers : List Layer) :
    Except SettingsError Settings := do
  checkKeys layers
  let v ← layFiles fs layers defaults.toValue
  ofValue (← layValues layers v)

end Settings

end SourceMacros
