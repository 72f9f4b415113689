import LuaCompact.Blank
import LuaCompact.Quoted
import LuaCompact.Unicode.LowerCase

namespace LuaCompact

/-- How comment markers inside string literals are treated. A number that names no policy of its
own acts as the literal-aware one. -/
inductive Policy where
  | literal
  | faithful
  | unnamed (code : Int)
deriving DecidableEq, Repr

namespace Policy

/-- The policy with a number. -/
def ofCode (n : Int) : Policy :=
  if n = 0 then literal else if n = 1 then faithful else unnamed n

/-- The number of a policy. -/
def code : Policy → Int
  | literal => 0
  | faithful => 1
  | unnamed n => n

/-- The name of a policy in settings and reports. -/
def name : Policy → Bytes
  | literal => utf8 "literal"
  | faithful => utf8 "faithful"
  | unnamed n => utf8 "Policy(" ++ Numeral.ofInt n ++ utf8 ")"

/-- A mode that names no policy. -/
structure UnknownMode where
  mode : Bytes
deriving DecidableEq, Repr

def UnknownMode.message (e : UnknownMode) : Bytes :=
  utf8 "unknown mode " ++ Quoted.quote e.mode ++ utf8 " (expected literal or faithful)"

/-- The policy that a mode names, whatever its case and the white space around it. -/
def parse (mode : Bytes) : Except UnknownMode Policy :=
  let key := Unicode.lowerCase (trim mode)
  if key = [] || key = utf8 "literal" || key = utf8 "literal-aware" then .ok literal
  else if key = utf8 "faithful" then .ok faithful
  else .error ⟨mode⟩

end Policy

end LuaCompact
