import LuaCompact.Command.Help
import LuaCompact.Settings
import LuaCompact.Watch

namespace LuaCompact.Command

/-- Why arguments do not fit a command. -/
inductive UsageError where
  | options (cause : Options.Error)
  | count (expected received : Nat)
  | shell (arg : Bytes)
deriving DecidableEq, Repr

def UsageError.message : UsageError → Bytes
  | options cause => cause.message
  | count expected received =>
    utf8 "accepts " ++ Numeral.ofNat expected ++ utf8 " arg(s), received " ++
      Numeral.ofNat received
  | shell arg =>
    utf8 "invalid argument " ++ Quoted.quote arg ++ utf8 " for " ++
      Quoted.quote (programName ++ utf8 " " ++ completion.name)

/-- How a command ends: with an exit code, or by watching a file from then on. -/
inductive Ending where
  | exit (code : Nat)
  | watching (policy : Policy) (input output : Bytes)
deriving DecidableEq, Repr

/-- What a command does: the state of the files after it, what it prints, and how it ends. -/
structure Outcome where
  fs : FileSystem
  output : Bytes
  ending : Ending

/-- A message without colour. -/
def notice (kind : Terminal.Notice) (text : Bytes) : Bytes := kind.print .plain text

/-- The header without colour. -/
def header : Bytes := Terminal.header .plain programVersion

/-- The mode as messages show it. -/
def modeNote (s : Settings) : Bytes := utf8 " (mode: " ++ s.mode ++ utf8 ")"

def printReport (r : Report) : Bytes := Terminal.printStats .plain r.stats

/-- Minifies one file. -/
def runMinify (fs : FileSystem) (s : Settings) (input output : Bytes) : Outcome :=
  let start :=
    if s.quiet then []
    else header ++ notice .info (utf8 "Minifying " ++ input ++ modeNote s)
  match Build.file fs s.policy input output with
  | (fs, .error e) =>
    ⟨fs, start ++ notice .error (utf8 "Minification failed: " ++ e.message), .exit 1⟩
  | (fs, .ok r) =>
    ⟨fs, start ++ [Byte.lf] ++ notice .success (utf8 "Minification completed: " ++ output) ++
      printReport r, .exit 0⟩

/-- Minifies the files of a directory. -/
def runBatch (fs : FileSystem) (s : Settings) (src out : Bytes) : Outcome :=
  let start :=
    if s.quiet then []
    else
      header ++ notice .info (utf8 "Minifying " ++ src ++ utf8 " into " ++ out ++ modeNote s) ++
        [Byte.lf]
  let result := Build.directory fs .plain s.quiet s.policy src out s.includes s.excludes
  let printed := start ++ result.output
  match result.error? with
  | some e =>
    ⟨result.fs, printed ++ notice .error (utf8 "Batch failed: " ++ e.message), .exit 1⟩
  | none =>
    let total := result.total?.getD .empty
    if total.files = 0 then
      ⟨result.fs, printed ++ notice .warning (utf8 "No files matched [" ++
        List.intercalate (utf8 " ") s.includes ++ utf8 "]"), .exit 0⟩
    else
      ⟨result.fs, printed ++ [Byte.lf] ++ notice .success (utf8 "Minified " ++
        Numeral.ofInt total.files.toInt ++ utf8 " files into " ++ out) ++ printReport total,
        .exit 0⟩

/-- Starts to watch a file. -/
def runWatch (fs : FileSystem) (s : Settings) (input output : Bytes) : Outcome :=
  ⟨fs, header ++ notice .info (utf8 "Watching " ++ input ++ utf8 " for changes" ++ modeNote s ++
    utf8 "...") ++ notice .info (utf8 "Press Ctrl+C to stop") ++ [Byte.lf],
    .watching s.policy input output⟩

/-- The variable of the environment that names the working directory. -/
def directoryVariable : Bytes := utf8 "PWD"

/-- Whether a path leads from the root to the working directory. -/
def leadsHere (fs : FileSystem) (path : Bytes) : Bool :=
  Path.isRooted path &&
    match fs.resolve .target path with
    | .ok place => place.location = fs.cwd && place.node?.isSome
    | .error _ => false

/-- The path of the working directory: the one that the environment gives if it leads there, which
may be through links, else the one without links. -/
def workingDirectory (fs : FileSystem) (env : Environment) : Bytes :=
  ((env.lookup directoryVariable).filter (leadsHere fs)).getD (Byte.slash :: Path.ofElements fs.cwd)

/-- A run with the settings of the working directory on two arguments. -/
def runWith (fs : FileSystem) (env : Environment) (o : Options) (args : List Bytes)
    (job : FileSystem → Settings → Bytes → Bytes → Outcome) : Except UsageError Outcome :=
  match args with
  | [first, second] =>
    match Settings.load fs (workingDirectory fs env) env o with
    | .error e =>
      .ok ⟨fs, notice .error (utf8 "Failed to load configuration: " ++ e.message), .exit 1⟩
    | .ok s => .ok (job fs s first second)
  | _ => .error (.count 2 args.length)

/-- The shells that completion knows. -/
def shells : List Bytes := [utf8 "bash", utf8 "zsh", utf8 "fish", utf8 "powershell"]

/-- Runs a command on its plain arguments. -/
def runPlain (fs : FileSystem) (env : Environment) (o : Options) (args : List Bytes) :
    Command → Except UsageError Outcome
  | minify => runWith fs env o args runMinify
  | batch => runWith fs env o args runBatch
  | watch => runWith fs env o args runWatch
  | version => .ok ⟨fs, programName ++ utf8 " " ++ programVersion ++ [Byte.lf], .exit 0⟩
  | help => .ok ⟨fs, (select args).1.helpText, .exit 0⟩
  | completion =>
    match args with
    | [shell] => if shell ∈ shells then .ok ⟨fs, [], .exit 0⟩ else .error (.shell shell)
    | _ => .error (.count 1 args.length)

/-- Runs the command that arguments ask for, or shows its help. -/
def attempt (fs : FileSystem) (env : Environment) (args : List Bytes) :
    Except UsageError Outcome :=
  let (c, own) := select args
  match Options.parse c.switches .empty own with
  | .error e => .error (.options e)
  | .ok (o, plain) => if o.help then .ok ⟨fs, c.helpText, .exit 0⟩ else c.runPlain fs env o plain

/-- Runs the program. Arguments that do not fit are reported, and nothing is done. -/
def run (fs : FileSystem) (env : Environment) (args : List Bytes) : Outcome :=
  match attempt fs env args with
  | .ok outcome => outcome
  | .error e => ⟨fs, e.message ++ [Byte.lf], .exit 1⟩

end LuaCompact.Command
