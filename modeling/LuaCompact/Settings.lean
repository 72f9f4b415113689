import LuaCompact.FileSystem.Resolve
import LuaCompact.ListSetting
import LuaCompact.Options
import LuaCompact.Policy
import LuaCompact.Yaml.Document

namespace LuaCompact

/-- What a run is set to. -/
structure Settings where
  mode : Bytes
  policy : Policy
  includes : List Bytes
  excludes : List Bytes
  quiet : Bool
deriving DecidableEq, Repr

/-- The variables of the environment. -/
abbrev Environment := List (Bytes × Bytes)

namespace Settings

open Yaml (Value)

/-- The file of settings that a directory may hold. -/
def fileName : Bytes := utf8 "luamin.yaml"

/-- The keys of settings. -/
inductive Key where
  | mode
  | include_
  | exclude
  | quiet
deriving DecidableEq, Repr

namespace Key

/-- The name of a key in a file of settings. -/
def name : Key → Bytes
  | mode => utf8 "mode"
  | include_ => utf8 "include"
  | exclude => utf8 "exclude"
  | quiet => utf8 "quiet"

/-- The variable of the environment for a key. -/
def variable_ : Key → Bytes
  | mode => utf8 "LUAMIN_MODE"
  | include_ => utf8 "LUAMIN_INCLUDE"
  | exclude => utf8 "LUAMIN_EXCLUDE"
  | quiet => utf8 "LUAMIN_QUIET"

/-- The value of a key that nothing sets. -/
def default : Key → Value
  | mode => .string Policy.literal.name
  | include_ => .string (utf8 "**/*.lua")
  | exclude => .string []
  | quiet => .bool false

end Key

/-- The items of a list option, every line break in them a line feed. -/
def ofItems (items : List Bytes) : Value :=
  .list (items.map fun s => .string (Bytes.replace [Byte.cr, Byte.lf] [Byte.lf] s))

/-- The value that an option of the command line gives a key. -/
def ofOptions (o : Options) : Key → Option Value
  | .mode => o.mode?.map .string
  | .include_ => o.includes?.map ofItems
  | .exclude => o.excludes?.map ofItems
  | .quiet => o.quiet?.map .bool

/-- The value that the environment gives a key; an empty variable gives none. -/
def ofEnvironment (env : Environment) (key : Key) : Option Value :=
  ((env.lookup key.variable_).filter (· ≠ [])).map .string

/-- The value that a file of settings gives a key; null is none. -/
def ofFile (file : List (Bytes × Value)) (key : Key) : Option Value :=
  match file.lookup key.name with
  | some .null => none
  | v? => v?

/-- The value of a key: from the command line, else from the environment, else from the file. -/
def value (o : Options) (env : Environment) (file : List (Bytes × Value)) (key : Key) : Value :=
  (ofOptions o key).getD ((ofEnvironment env key).getD ((ofFile file key).getD key.default))

/-- A value as a list: the items of a list are themselves divided at their commas. -/
def items : Value → List Bytes
  | .list vs => ListSetting.split (ListSetting.join (vs.map Value.text))
  | v => ListSetting.split v.settingText

/-- A value as a truth value: a number other than zero is true, and a text must be a word for
it. -/
def isTrue : Value → Bool
  | .bool b => b
  | .int n => n ≠ 0
  | .float bits => !(Float.ofBits bits == 0)
  | .string s => (truth? s).getD false
  | _ => false

/-- Why settings cannot be loaded. -/
inductive Error where
  | unreadable (cause : PathError)
  | malformed
  | unknownMode (cause : Policy.UnknownMode)
deriving DecidableEq, Repr

def Error.message : Error → Bytes
  | unreadable cause => utf8 "failed to read " ++ fileName ++ utf8 ": " ++ cause.message
  | malformed => utf8 "failed to read " ++ fileName ++ utf8 ": While parsing config: yaml: ..."
  | unknownMode cause => cause.message

/-- The file of settings of a directory. -/
def path (dir : Bytes) : Bytes := Path.join dir fileName

/-- Whether a directory holds a file of settings. -/
def hasFile (fs : FileSystem) (dir : Bytes) : Bool := (fs.stat (path dir)).isOk

/-- The settings in the file of a directory; none without a file. -/
def readFile (fs : FileSystem) (dir : Bytes) : Except Error (List (Bytes × Value)) :=
  if hasFile fs dir then
    match fs.readFile (path dir) with
    | .error cause => .error (.unreadable cause)
    | .ok text =>
      match Yaml.settings? text with
      | some file => .ok file
      | none => .error .malformed
  else .ok []

/-- The settings that the values of the keys amount to. -/
def ofValues (value : Key → Value) : Except Error Settings :=
  let mode := (value .mode).settingText
  match Policy.parse mode with
  | .error cause => .error (.unknownMode cause)
  | .ok policy =>
    .ok ⟨mode, policy, items (value .include_), items (value .exclude), isTrue (value .quiet)⟩

/-- The settings of a run in a directory. -/
def load (fs : FileSystem) (dir : Bytes) (env : Environment) (o : Options) :
    Except Error Settings :=
  match readFile fs dir with
  | .error e => .error e
  | .ok file => ofValues (value o env file)

end Settings

end LuaCompact
