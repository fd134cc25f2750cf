import SourceMacros.Text.Basic

/-!
# Paths

A path is a text with slashes between its parts. Empty parts and parts that are
a single dot mean nothing, except for a dot at the very start; all operations
work on the parts but keep the text in front of the part they change.
-/

namespace SourceMacros

/-- The text of a path. -/
structure Path where
  text : Text
  deriving DecidableEq

namespace Path

/-- The part that stands for the directory itself. -/
def dot : Text := ['.']

/-- The part that stands for the directory above. -/
def dotDot : Text := ['.', '.']

/-- The texts between the slashes. -/
def parts (p : Path) : List Text :=
  p.text.splitWhere (· == '/')

/-- A path from the texts between its slashes. -/
def ofParts (ps : List Text) : Path :=
  ⟨Text.joinWith ['/'] ps⟩

/-- Does a path start at the root of all files? -/
def isAbsolute (p : Path) : Bool :=
  p.text.head? == some '/'

/-- Does a part mean nothing behind the first one? -/
def isVoid (part : Text) : Bool :=
  part.isEmpty || part == dot

/-- Parts without the void ones at the end. -/
def dropVoid (ps : List Text) : List Text :=
  (ps.reverse.dropWhile isVoid).reverse

/-- The components of a path. A path that starts with a slash has an empty first
component, and one that starts with a dot has the dot. -/
def components (p : Path) : List Text :=
  match p.parts with
  | [] => []
  | first :: rest =>
    if p.text.isEmpty then [] else first :: rest.filter (!isVoid ·)

/-- Do two paths have the same components? -/
def same (p q : Path) : Bool :=
  p.components == q.components

/-- The path without its last component. The empty path and the root have no
parent. -/
def parent? (p : Path) : Option Path :=
  match p.parts with
  | [] => none
  | first :: rest =>
    match dropVoid rest with
    | [] => if first.isEmpty then none else some ⟨[]⟩
    | kept =>
      match dropVoid kept.dropLast with
      | [] => some (if first.isEmpty then ⟨['/']⟩ else ⟨first⟩)
      | above => some (ofParts (first :: above))

/-- The path and the paths above it, at most `limit` of them. -/
def ancestors : (limit : Nat) → Path → List Path
  | 0, _ => []
  | limit + 1, p =>
    p :: match p.parent? with
      | some q => ancestors limit q
      | none => []

/-- The path of a name inside a directory. An absolute name stands for
itself. -/
def join (dir : Path) (name : Text) : Path :=
  if name.head? = some '/' then ⟨name⟩
  else if dir.text.isEmpty || dir.text.getLast? == some '/' then
    ⟨dir.text ++ name⟩
  else ⟨dir.text ++ '/' :: name⟩

/-- The parts in front of the last component, and that component if it is the
name of a file. -/
def fileName? (p : Path) : Option (List Text × Text) :=
  match p.parts with
  | [] => none
  | first :: rest =>
    match dropVoid rest with
    | [] =>
      if isVoid first || first == dotDot then none else some ([], first)
    | kept =>
      match kept.getLast? with
      | some name =>
        if name == dotDot then none else some (first :: kept.dropLast, name)
      | none => none

/-- A file name without its extension. A name whose only dot comes first has no
extension. -/
def stem (name : Text) : Text :=
  match (name.reverse.dropWhile (· ≠ '.')).tail with
  | [] => name
  | front => front.reverse

/-- What stands behind the last dot of a file name, unless that dot comes
first. -/
def extension (name : Text) : Text :=
  (name.drop (stem name).length).drop 1

/-- The path with something done to its file name. What follows the name is
dropped, and a path that ends in no file name is kept. -/
def mapFileName (f : Text → Text) (p : Path) : Path :=
  match p.fileName? with
  | none => p
  | some (front, name) => ofParts (front ++ [f name])

/-- The path with one more extension behind its file name. -/
def addExtension (p : Path) (ext : Text) : Path :=
  p.mapFileName (· ++ '.' :: ext)

/-- The path with the extension of its file name replaced, or removed if the
new one is empty. -/
def replaceExtension (p : Path) (ext : Text) : Path :=
  p.mapFileName fun name =>
    stem name ++ if ext.isEmpty then [] else '.' :: ext

/-- The path shortened by as many characters as its extension has. -/
def cutExtension (p : Path) : Path :=
  match p.fileName? with
  | none => p
  | some (_, name) => ⟨p.text.take (p.text.length - (extension name).length)⟩

/-- The path with another extension, or with none if the extension is empty. A
path that ends in no file name is kept. The old extension is cut off first: two
dots in front of it are no file name any more, and stay as they are. -/
def withExtension (p : Path) (ext : Text) : Path :=
  p.cutExtension.replaceExtension ext

end Path

end SourceMacros
