import LuaCompact.Bytes

namespace LuaCompact.Bracket

/-- The long bracket of a level that opens a long string or a block comment. -/
def opener (level : Nat) : Bytes :=
  Byte.openBracket :: (List.replicate level Byte.equals ++ [Byte.openBracket])

/-- The long bracket that closes what the opener of the same level opened. -/
def closer (level : Nat) : Bytes :=
  Byte.closeBracket :: (List.replicate level Byte.equals ++ [Byte.closeBracket])

/-- The level of the long bracket that a text starts with. -/
def level? : Bytes → Option Nat
  | [] => none
  | c :: s =>
    if c = Byte.openBracket then
      if (s.dropWhile (· == Byte.equals)).head? = some Byte.openBracket then
        some (s.takeWhile (· == Byte.equals)).length
      else none
    else none

/-- What stands between a long bracket and its closer. `closed` is false when the closer is
missing, and the body then is all the text there is. -/
structure Body where
  level : Nat
  text : Bytes
  closed : Bool
deriving DecidableEq, Repr

/-- The body as written, with its brackets. -/
def Body.bytes (b : Body) : Bytes :=
  opener b.level ++ b.text ++ if b.closed then closer b.level else []

/-- Reads up to the first closer of the level. -/
def scan (level : Nat) (s : Bytes) : Body × Bytes :=
  match Bytes.cut (closer level) s with
  | some (text, rest) => (⟨level, text, true⟩, rest)
  | none => (⟨level, s, false⟩, [])

/-- The bracketed text that `s` starts with, and the rest. -/
def read? (s : Bytes) : Option (Body × Bytes) :=
  (level? s).map fun level => scan level (s.drop (level + 2))

end LuaCompact.Bracket
