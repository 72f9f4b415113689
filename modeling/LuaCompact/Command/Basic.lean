import LuaCompact.Options

namespace LuaCompact

/-- What the program can be asked to do. -/
inductive Command where
  | minify
  | batch
  | completion
  | help
  | version
  | watch
deriving DecidableEq, Repr

namespace Command

/-- The name of the program. -/
def programName : Bytes := utf8 "luamin"

/-- The version of the program. -/
def programVersion : Bytes := utf8 "dev"

/-- The name of a command; minifying one file goes by the name of the program. -/
def name : Command → Bytes
  | minify => programName
  | batch => utf8 "batch"
  | completion => utf8 "completion"
  | help => utf8 "help"
  | version => utf8 "version"
  | watch => utf8 "watch"

/-- The commands that a word selects, by their names. -/
def named : List Command := [batch, completion, help, version, watch]

/-- The options that every command has. -/
def sharedSwitches : List Switch := [.mode, .quiet]

/-- The options that a command has for itself. -/
def ownSwitches : Command → List Switch
  | batch => [.exclude, .help, .include_]
  | _ => [.help]

/-- The options of a command. -/
def switches (c : Command) : List Switch := c.ownSwitches ++ sharedSwitches

/-- Whether an argument in front of the word of a command is read together with the next one. Only
the shared options are known there, and every other option counts as one with a value. -/
def takesNext (arg : Bytes) : Bool :=
  match arg with
  | first :: second :: body =>
    let isImplied (p : Switch → Bool) := sharedSwitches.any fun s => p s && s.implied?.isSome
    first = Byte.dash && !List.contains arg Byte.equals &&
      if second = Byte.dash then !isImplied (·.name = body)
      else body = [] && !isImplied (·.letter? = some second)
  | _ => false

/-- The command that the first plain word selects, and the arguments without that word. An option
in front that leaves only one argument after it ends the search. -/
def find? : List Bytes → Option (Command × List Bytes)
  | [] => none
  | arg :: rest =>
    if arg = Options.endMark then none
    else if takesNext arg then
      match rest with
      | value :: next :: rest =>
        (find? (next :: rest)).map fun (c, args) => (c, arg :: value :: args)
      | _ => none
    else if arg.head? = none ∨ arg.head? = some Byte.dash then
      (find? rest).map fun (c, args) => (c, arg :: args)
    else (named.find? (·.name = arg)).map fun c => (c, rest)

/-- The command that arguments ask for, and its own arguments. -/
def select (args : List Bytes) : Command × List Bytes := (find? args).getD (minify, args)

end Command

end LuaCompact
