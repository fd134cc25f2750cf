import SourceMacros.Path

/-!
# File systems

A model of files and directories, without links: a list of locations with what
stands there. A location is the list of names that lead to it from the root.
Paths start at the root or at a working directory. They are followed name by
name, so that every name in front of the last has to be a directory, and a slash
at the end asks for one as well.
-/

namespace SourceMacros

/-- What a file holds: a text, or bytes that are no text. -/
inductive Content where
  | text (t : Text)
  | binary (bytes : List UInt8)
  deriving DecidableEq

/-- The content of a file with the given bytes, read as UTF-8. -/
def Content.ofBytes (bytes : List UInt8) : Content :=
  match String.fromUTF8? ⟨bytes.toArray⟩ with
  | some s => text s.toList
  | none => binary bytes

/-- What stands at a location. -/
inductive Entry where
  | file (content : Content)
  | directory
  deriving DecidableEq

/-- Why a file operation failed. -/
inductive FileError where
  | notFound
  | notADirectory
  | isADirectory
  | alreadyExists
  | invalidData
  deriving DecidableEq

/-- The names that lead from the root to a place. -/
abbrev Location := List Text

/-- Files and directories by location, and the directory where paths without a
slash in front start. -/
structure FileSystem where
  workingDirectory : Location
  entries : List (Location × Entry)
  deriving DecidableEq

namespace FileSystem

/-- A working directory with nothing in it. -/
def empty : FileSystem := ⟨["working directory".toList], []⟩

/-- What stands at a location. The working directory and those above it always
exist. -/
def entryAt (fs : FileSystem) (l : Location) : Option Entry :=
  if l <+: fs.workingDirectory then some .directory else fs.entries.lookup l

/-- Replaces the entry of a location, or adds one. -/
def put (fs : FileSystem) (l : Location) (e : Entry) : FileSystem :=
  { fs with entries := (l, e) :: fs.entries.filter (·.1 != l) }

/-- The location one name further. Above the root there is only the root. -/
def step (l : Location) (part : Text) : Location :=
  if Path.isVoid part then l
  else if part = Path.dotDot then l.dropLast
  else l ++ [part]

/-- Succeeds at a directory. -/
def requireDirectory (fs : FileSystem) (l : Location) :
    Except FileError Unit :=
  match fs.entryAt l with
  | none => .error .notFound
  | some (.file _) => .error .notADirectory
  | some .directory => .ok ()

/-- Follows the parts of a path from a location on. -/
def follow (fs : FileSystem) : Location → List Text → Except FileError Location
  | l, [] => .ok l
  | l, part :: ps =>
    match fs.requireDirectory l with
    | .error e => .error e
    | .ok () => fs.follow (step l part) ps

/-- The location where a path starts. -/
def start (fs : FileSystem) (p : Path) : Location :=
  if p.isAbsolute then [] else fs.workingDirectory

/-- The location of a path. The empty path leads nowhere. -/
def locate (fs : FileSystem) (p : Path) : Except FileError Location :=
  if p.text.isEmpty then .error .notFound else fs.follow (fs.start p) p.parts

/-- What a path leads to. -/
def find (fs : FileSystem) (p : Path) : Except FileError Entry :=
  match fs.locate p with
  | .error e => .error e
  | .ok l =>
    match fs.entryAt l with
    | some e => .ok e
    | none => .error .notFound

/-- Does a path lead to anything? -/
def pathExists (fs : FileSystem) (p : Path) : Bool :=
  (fs.find p).isOk

/-- Does a path lead to a directory? -/
def isDirectory (fs : FileSystem) (p : Path) : Bool :=
  match fs.find p with
  | .ok .directory => true
  | _ => false

/-- Does a path lead to a file? -/
def isFile (fs : FileSystem) (p : Path) : Bool :=
  match fs.find p with
  | .ok (.file _) => true
  | _ => false

/-- The text of a file. -/
def read (fs : FileSystem) (p : Path) : Except FileError Text :=
  match fs.find p with
  | .error e => .error e
  | .ok .directory => .error .isADirectory
  | .ok (.file (.binary _)) => .error .invalidData
  | .ok (.file (.text t)) => .ok t

/-- Where a path would put something new. -/
inductive Target where
  /-- This location, by a path that ends in a slash or not. -/
  | location (l : Location) (slashed : Bool)
  /-- A directory that exists, since the path ends in dots or is all slashes. -/
  | existing

/-- Finds the directory of the last part of a path, and that part in it. -/
def target (fs : FileSystem) (p : Path) : Except FileError Target :=
  if p.text.isEmpty then .error .notFound
  else
    let ps := (p.parts.reverse.dropWhile List.isEmpty).reverse
    match fs.follow (fs.start p) ps.dropLast, ps.getLast? with
    | .error e, _ => .error e
    | .ok _, none => .ok .existing
    | .ok l, some last =>
      match fs.requireDirectory l with
      | .error e => .error e
      | .ok () =>
        if last = Path.dot ∨ last = Path.dotDot then .ok .existing
        else .ok (.location (l ++ [last]) (p.text.getLast? == some '/'))

/-- Writes a file, new or in place of an old one. -/
def write (fs : FileSystem) (p : Path) (t : Text) :
    Except FileError FileSystem :=
  match fs.target p with
  | .error e => .error e
  | .ok .existing => .error .isADirectory
  | .ok (.location l slashed) =>
    if slashed then .error .isADirectory
    else
      match fs.entryAt l with
      | some .directory => .error .isADirectory
      | _ => .ok (fs.put l (.file (.text t)))

/-- Makes one directory in a directory that exists. -/
def makeDirectory (fs : FileSystem) (p : Path) : Except FileError FileSystem :=
  match fs.target p with
  | .error e => .error e
  | .ok .existing => .error .alreadyExists
  | .ok (.location l _) =>
    match fs.entryAt l with
    | some _ => .error .alreadyExists
    | none => .ok (fs.put l .directory)

/-- Makes a directory, or is content with one that exists. -/
def ensureDirectory (fs : FileSystem) (p : Path) :
    Except FileError FileSystem :=
  match fs.makeDirectory p with
  | .ok fs' => .ok fs'
  | .error e => if fs.isDirectory p then .ok fs else .error e

/-- Makes a directory and, as far as needed, those above it, going up at most
`fuel` times. The directories made before a failure stay. -/
def makeDirectoriesWithin :
    (fuel : Nat) → FileSystem → Path → Except FileError Unit × FileSystem
  | 0, fs, _ => (.error .notFound, fs)
  | fuel + 1, fs, p =>
    if p.text.isEmpty then (.ok (), fs)
    else
      match fs.ensureDirectory p with
      | .ok fs' => (.ok (), fs')
      | .error .notFound =>
        match p.parent? with
        | none => (.error .notFound, fs)
        | some q =>
          match makeDirectoriesWithin fuel fs q with
          | (.error e, fs') => (.error e, fs')
          | (.ok (), fs') =>
            match fs'.ensureDirectory p with
            | .ok made => (.ok (), made)
            | .error e => (.error e, fs')
      | .error e => (.error e, fs)

/-- Makes a directory and, as far as needed, those above it. -/
def makeDirectories (fs : FileSystem) (p : Path) :
    Except FileError Unit × FileSystem :=
  makeDirectoriesWithin (p.text.length + 2) fs p

/-- Adds directories for all the given names, one inside the other. -/
def addDirectories (fs : FileSystem) : Location → List Text → FileSystem
  | _, [] => fs
  | l, name :: names =>
    (fs.put (l ++ [name]) .directory).addDirectories (l ++ [name]) names

/-- Adds an entry and the directories that lead to it. -/
def add (fs : FileSystem) (p : Path) (e : Entry) : FileSystem :=
  let names := p.parts.filter (!Path.isVoid ·)
  (fs.addDirectories (fs.start p) names.dropLast).put (fs.start p ++ names) e

/-! ## Looking for a file upwards -/

/-- The first path with the given name in a directory or in those above it, at
most `limit` of them. -/
def findUpwards (fs : FileSystem) (start : Path) (name : Text) (limit : Nat) :
    Option Path :=
  ((Path.ancestors limit start).map (·.join name)).find? fs.pathExists

/-- The directory that holds the nearest entry with the given name. -/
def base (fs : FileSystem) (start : Path) (marker : Text) (limit : Nat) :
    Option Path :=
  (fs.findUpwards start marker limit).bind Path.parent?

end FileSystem

end SourceMacros
