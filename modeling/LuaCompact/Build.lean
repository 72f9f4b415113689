import LuaCompact.Expand
import LuaCompact.FileSystem.Change
import LuaCompact.Minify
import LuaCompact.Terminal.Notice

namespace LuaCompact.Build

/-- Why a build fails. -/
inductive Error where
  | inputNotFound (path : Bytes)
  | notDirectory (path : Bytes)
  | readFailed (cause : PathError)
  | encoding (path : Bytes)
  | writeFailed (cause : PathError)
  | badPattern (cause : Expand.BadPattern)
deriving DecidableEq, Repr

def Error.message : Error → Bytes
  | inputNotFound path => utf8 "input file not found: " ++ path
  | notDirectory path => utf8 "input is not a directory: " ++ path
  | readFailed cause => utf8 "failed to read input: " ++ cause.message
  | encoding path => utf8 "input is not valid UTF-8: " ++ path
  | writeFailed cause => utf8 "failed to write output: " ++ cause.message
  | badPattern cause => utf8 "failed to expand include patterns: " ++ cause.message

/-- The error of an input that cannot be read. -/
def inputError (path : Bytes) (cause : PathError) : Error :=
  if cause.fault = .missing then .inputNotFound path else .readFailed cause

/-- Reads a whole file of UTF-8 text. -/
def readSource (fs : FileSystem) (path : Bytes) : Except Error Bytes :=
  match fs.readFile path with
  | .error cause => .error (inputError path cause)
  | .ok content => if Utf8.isValid content then .ok content else .error (.encoding path)

/-- Writes a file and makes the directories that it needs. -/
def writeOutput (fs : FileSystem) (path content : Bytes) : FileSystem × Except Error Unit :=
  match fs.makeDirectories (Path.dir path) with
  | (fs, .error cause) => (fs, .error (.writeFailed cause))
  | (fs, .ok _) =>
    match fs.writeFile path content with
    | .error cause => (fs, .error (.writeFailed cause))
    | .ok written => (written, .ok ())

/-- Minifies one file into another. -/
def file (fs : FileSystem) (policy : Policy) (input output : Bytes) :
    FileSystem × Except Error Report :=
  match readSource fs input with
  | .error e => (fs, .error e)
  | .ok content =>
    let result := minify policy content
    match writeOutput fs output result with
    | (fs, .error e) => (fs, .error e)
    | (fs, .ok _) => (fs, .ok (Report.ofFile content result))

/-- What a build of many files has come to: the state of the files, the total over the files that
were built, what was printed, and why it stopped early if it did. -/
structure Progress where
  fs : FileSystem
  total : Report
  output : Bytes
  error? : Option Error

/-- What is printed for one file. -/
def fileNotice (palette : Terminal.Palette) (path : Bytes) (r : Report) : Bytes :=
  Terminal.Notice.info.print palette
    (path ++ utf8 ": " ++ byteCount r.before.toInt ++ utf8 " → " ++ byteCount r.after.toInt)

/-- Builds files in order, each from its path under `src` to its path under `out`, up to the
first that fails. -/
def files (palette : Terminal.Palette) (quiet : Bool) (policy : Policy) (src out : Bytes) :
    List Bytes → Progress → Progress
  | [], p => p
  | path :: paths, p =>
    match file p.fs policy (Path.join src path) (Path.join out path) with
    | (fs, .error e) => { p with fs := fs, error? := some e }
    | (fs, .ok r) =>
      files palette quiet policy src out paths
        { p with
          fs := fs
          total := p.total.add r
          output := if quiet then p.output else p.output ++ fileNotice palette path r }

/-- The exclude patterns with one for the output directory, if it lies beneath the source
directory, so that a build never takes its own output as input. -/
def withOwnOutput (src out : Bytes) (exclude : List Bytes) : List Bytes :=
  match Path.relative? src out with
  | some rel => if rel = Path.here || Path.up.isPrefixOf rel then exclude else exclude ++ [rel]
  | none => exclude

/-- The files of a directory that a build takes, or why it cannot start. -/
def select (fs : FileSystem) (src out : Bytes) (include_ exclude : List Bytes) :
    Except Error (List Bytes) :=
  match fs.stat src with
  | .error cause => .error (inputError src cause)
  | .ok node =>
    if !node.isDirectory then .error (.notDirectory src)
    else (Expand.includes fs src include_ (withOwnOutput src out exclude)).mapError .badPattern

/-- What a build of a directory gives: no total if it could not start. -/
structure Result where
  fs : FileSystem
  total? : Option Report
  output : Bytes
  error? : Option Error

/-- Minifies the selected files of a directory into the same paths under another. -/
def directory (fs : FileSystem) (palette : Terminal.Palette) (quiet : Bool) (policy : Policy)
    (src out : Bytes) (include_ exclude : List Bytes) : Result :=
  match select fs src out include_ exclude with
  | .error e => ⟨fs, none, [], some e⟩
  | .ok paths =>
    let p := files palette quiet policy src out paths ⟨fs, .empty, [], none⟩
    ⟨p.fs, some p.total, p.output, p.error?⟩

end LuaCompact.Build
