namespace LuaCompact

/-- Text as the program sees it: any byte string, well-formed UTF-8 or not. -/
abbrev Bytes := List UInt8

/-- The UTF-8 bytes of a string. -/
def utf8 (s : String) : Bytes := s.toByteArray.data.toList

namespace Byte

abbrev tab : UInt8 := 9
abbrev lf : UInt8 := 10
abbrev vt : UInt8 := 11
abbrev ff : UInt8 := 12
abbrev cr : UInt8 := 13
abbrev space : UInt8 := 32
abbrev doubleQuote : UInt8 := 34
abbrev singleQuote : UInt8 := 39
abbrev dash : UInt8 := 45
abbrev slash : UInt8 := 47
abbrev semicolon : UInt8 := 59
abbrev equals : UInt8 := 61
abbrev openBracket : UInt8 := 91
abbrev backslash : UInt8 := 92
abbrev closeBracket : UInt8 := 93

end Byte

namespace Bytes

/-- The text before and after the first occurrence of `mark`. -/
def cut (mark : Bytes) : Bytes → Option (Bytes × Bytes)
  | [] => if mark = [] then some ([], []) else none
  | c :: s =>
    if mark.isPrefixOf (c :: s) then some ([], (c :: s).drop mark.length)
    else (cut mark s).map fun (before, after) => (c :: before, after)

/-- Whether `mark` occurs in `s`. -/
def contains (mark s : Bytes) : Bool := (cut mark s).isSome

/-- The text without a leading `mark`. -/
def dropStart (mark s : Bytes) : Bytes :=
  if mark.isPrefixOf s then s.drop mark.length else s

/-- The text without a trailing `mark`. -/
def dropEnd (mark s : Bytes) : Bytes :=
  if mark.isSuffixOf s then s.take (s.length - mark.length) else s

/-- Replaces every occurrence of the non-empty `old`, from the left. -/
def replace (old new : Bytes) (s : Bytes) : Bytes :=
  match s with
  | [] => []
  | c :: t =>
    if old.isPrefixOf (c :: t) then new ++ replace old new (t.drop (old.length - 1))
    else c :: replace old new t
termination_by s.length
decreasing_by all_goals simp; try omega

/-- The lines of a text: what its line feeds divide, one more than there are line feeds. -/
def lines (s : Bytes) : List Bytes := s.splitOn Byte.lf

/-- The text whose lines are given. -/
def joinLines (ls : List Bytes) : Bytes := List.intercalate [Byte.lf] ls

/-- Byte order, a proper beginning first. -/
def le : Bytes → Bytes → Bool
  | [], _ => true
  | _ :: _, [] => false
  | a :: s, b :: t => if a = b then le s t else a < b

end Bytes

end LuaCompact
