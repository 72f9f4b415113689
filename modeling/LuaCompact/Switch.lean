import LuaCompact.Bytes

namespace LuaCompact

/-- The options that a command may have. -/
inductive Switch where
  | mode
  | quiet
  | include_
  | exclude
  | help
deriving DecidableEq, Repr

namespace Switch

def name : Switch → Bytes
  | mode => utf8 "mode"
  | quiet => utf8 "quiet"
  | include_ => utf8 "include"
  | exclude => utf8 "exclude"
  | help => utf8 "help"

/-- The letter that stands for the name. -/
def letter? : Switch → Option UInt8
  | mode => some 109
  | quiet => some 113
  | help => some 104
  | _ => none

/-- The value of an option that is named without one; the others take the next argument. -/
def implied? : Switch → Option Bytes
  | quiet => some (utf8 "true")
  | help => some (utf8 "true")
  | _ => none

/-- How an option is named in messages. -/
def title (s : Switch) : Bytes :=
  match s.letter? with
  | some c => Byte.dash :: c :: utf8 ", --" ++ s.name
  | none => utf8 "--" ++ s.name

end Switch

end LuaCompact
