import SourceMacros.Engine
import SourceMacros.Settings.Load

/-!
# The toolkit

A toolkit is an engine with the settings it was made from. On top of expansion
it compiles files: it reads one, expands it, runs the compiler passes, adds a
comment and a normal layout if wanted, and writes the result. Nothing is written
unless all of that succeeds.
-/

namespace SourceMacros

/-- Why a file was not compiled. -/
inductive ToolkitError where
  | expand (error : ExpandError)
  /-- The result would take the place of the source. -/
  | sameTarget (path : Path)
  | file (path : Path) (error : FileError)
  deriving DecidableEq

/-- The failure to overwrite a source, in words. -/
def sameTargetMessage (p : Path) : Text :=
  "refusing to overwrite the source file ".toList ++ p.text

/-- An engine and its settings. -/
structure Toolkit where
  engine : Engine
  settings : Settings

namespace Toolkit

/-- A toolkit with the given settings and no macros. -/
def ofSettings (s : Settings) : Toolkit :=
  ⟨Engine.new s.maxDepth s.retainIntermediate, s⟩

/-- Expands every macro in a source, then runs the compiler passes. -/
def parse (k : Toolkit) (source : Text) :
    Except ExpandError Text × Toolkit :=
  let (result, engine) := k.engine.expand ⟨source, [], .enabled⟩
  let k := { k with engine := engine }
  match result with
  | .error e => (.error e, k)
  | .ok code => (engine.runCompilers code, k)

/-- The final touches to generated code. -/
def finish (k : Toolkit) (format comment : Bool) (code : Text) : Text :=
  let code :=
    if comment then code.insertComment k.settings.comment else code
  if format then code.format else code

/-- Writes a file, after making the directories it needs. -/
def emit (fs : FileSystem) (target : Path) (code : Text) :
    Except ToolkitError Unit × FileSystem :=
  let write := fun fs : FileSystem =>
    match fs.write target code with
    | .ok fs' => (.ok (), fs')
    | .error e => (.error (.file target e), fs)
  match target.parent? with
  | none => write fs
  | some dir =>
    if dir.text.isEmpty then write fs
    else
      match fs.makeDirectories dir with
      | (.error e, fs') => (.error (.file dir e), fs')
      | (.ok (), fs') => write fs'

/-- Compiles the file `source` into the file `target`. -/
def compile (k : Toolkit) (fs : FileSystem) (source target : Path)
    (format comment : Bool) :
    Except ToolkitError Text × Toolkit × FileSystem :=
  match fs.read source with
  | .error e => (.error (.file source e), k, fs)
  | .ok text =>
    match k.parse text with
    | (.error e, k') => (.error (.expand e), k', fs)
    | (.ok code, k') =>
      let code := k'.finish format comment code
      match emit fs target code with
      | (.error e, fs') => (.error e, k', fs')
      | (.ok (), fs') => (.ok code, k', fs')

/-- Compiles a file into its neighbour with the extension of generated
files. -/
def process (k : Toolkit) (fs : FileSystem) (source : Path) :
    Except ToolkitError Path × Toolkit × FileSystem :=
  let target := source.withExtension k.settings.extension
  if target.same source then (.error (.sameTarget target), k, fs)
  else
    match k.compile fs source target true true with
    | (.error e, k', fs') => (.error e, k', fs')
    | (.ok _, k', fs') => (.ok target, k', fs')

/-- The root of the project around a directory. -/
def base (k : Toolkit) (fs : FileSystem) (start : Path) : Option Path :=
  fs.base start k.settings.marker k.settings.searchDepth

end Toolkit

end SourceMacros
