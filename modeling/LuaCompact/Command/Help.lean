import LuaCompact.Command.Basic
import LuaCompact.Policy
import LuaCompact.Terminal.Notice

namespace LuaCompact

/-- What a help text says in place of the value of an option. -/
def Switch.valueWord : Switch → Bytes
  | mode => utf8 " string"
  | include_ => utf8 " strings"
  | exclude => utf8 " strings"
  | _ => []

namespace Command

/-- A text filled up with spaces on the right. -/
def padTo (n : Nat) (s : Bytes) : Bytes := s ++ List.replicate (n - s.length) Byte.space

/-- What a command does, on one line. -/
def summary : Command → Bytes
  | minify => utf8 "Lua source minifier"
  | batch => utf8 "Minify every matching Lua file in a directory tree"
  | completion => utf8 "Generate shell completion script"
  | help => utf8 "Help about any command"
  | version => utf8 "Print the version number"
  | watch => utf8 "Watch a Lua file and minify it on every change"

/-- What a command does, at length. -/
def description : Command → Bytes
  | minify => Bytes.joinLines [Terminal.divider .plain, Terminal.banner .plain, [],
    Terminal.divider .plain, [],
    utf8 "  Strip comments and redundant whitespace from Lua source"]
  | batch => Bytes.joinLines [
    utf8 "Minify every file under srcdir that matches the include patterns and",
    utf8 "none of the exclude patterns, writing results to the same relative path",
    utf8 "under outdir.",
    [],
    utf8 "Patterns come from --include/--exclude, LUAMIN_INCLUDE/LUAMIN_EXCLUDE or",
    utf8 "luamin.yaml, and default to **/*.lua."]
  | completion => Bytes.joinLines [
    utf8 "Generate shell completion script for luamin.",
    [],
    utf8 "To load completions:",
    [],
    utf8 "Bash:",
    utf8 "  $ source <(luamin completion bash)",
    [],
    utf8 "Zsh:",
    utf8 "  $ luamin completion zsh > \"$\x7bfpath[1]\x7d/_luamin\"",
    [],
    utf8 "Fish:",
    utf8 "  $ luamin completion fish | source",
    [],
    utf8 "PowerShell:",
    utf8 "  PS> luamin completion powershell | Out-String | Invoke-Expression"]
  | help => Bytes.joinLines [
    utf8 "Help provides help for any command in the application.",
    utf8 "Simply type luamin help [path to command] for full details."]
  | c => c.summary

/-- How a command is called. -/
def synopsis : Command → Bytes
  | minify => utf8 "luamin <input> <output> [flags]"
  | batch => utf8 "luamin batch <srcdir> <outdir> [flags]"
  | completion => utf8 "luamin completion [bash|zsh|fish|powershell]"
  | help => utf8 "luamin help [command] [flags]"
  | version => utf8 "luamin version [flags]"
  | watch => utf8 "luamin watch <input> <output> [flags]"

/-- What an option of a command does. -/
def switchSummary (c : Command) : Switch → Bytes
  | .mode =>
    utf8 "Comment policy: literal (string-aware) or faithful (line substring scan) (default " ++
      Quoted.quote Policy.literal.name ++ utf8 ")"
  | .quiet => utf8 "Only print the final report"
  | .include_ => utf8 "Glob patterns of files to minify (default **/*.lua)"
  | .exclude => utf8 "Glob patterns of files to skip"
  | .help => utf8 "help for " ++ c.name

/-- An option as a help text names it, with room for a letter where it has none. -/
def switchHead (s : Switch) : Bytes :=
  utf8 (if s.letter?.isSome then "  " else "      ") ++ s.title ++ s.valueWord

/-- The rows of a help text for options, what they do in one column. -/
def switchRows (c : Command) (switches : List Switch) : List Bytes :=
  let column := (switches.map fun s => (switchHead s).length).foldl max 0 + 3
  switches.map fun s => padTo column (switchHead s) ++ c.switchSummary s

/-- The rows of a help text for commands. -/
def commandRows : List Bytes :=
  named.map fun c => utf8 "  " ++ padTo 12 c.name ++ c.summary

/-- The lines of a help text after the description. -/
def usageLines (c : Command) : List Bytes :=
  if c = minify then
    [utf8 "Usage:", utf8 "  " ++ c.synopsis, utf8 "  luamin [command]", [],
      utf8 "Available Commands:"] ++ commandRows ++
    [[], utf8 "Flags:"] ++ c.switchRows c.switches ++
    [[], utf8 "Use \"luamin [command] --help\" for more information about a command."]
  else
    [utf8 "Usage:", utf8 "  " ++ c.synopsis, [], utf8 "Flags:"] ++ c.switchRows c.ownSwitches ++
    [[], utf8 "Global Flags:"] ++ c.switchRows sharedSwitches

/-- The help text of a command. -/
def helpText (c : Command) : Bytes :=
  Bytes.joinLines ([c.description, []] ++ c.usageLines) ++ [Byte.lf]

end Command

end LuaCompact
