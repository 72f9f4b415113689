import LuaCompact.Utf8
import LuaCompact.Numeral
import LuaCompact.Unicode.Printable

namespace LuaCompact.Quoted

open Utf8 Numeral

/-- The letter that stands after the backslash for a control character that has one. -/
def shortEscape? (n : Nat) : Option UInt8 :=
  match n with
  | 7 => some 97
  | 8 => some 98
  | 9 => some 116
  | 10 => some 110
  | 11 => some 118
  | 12 => some 102
  | 13 => some 114
  | _ => none

/-- A character inside quotes of a kind: as it is when it can be shown, escaped when it cannot. -/
def charBytes (mark : Char) (c : Char) : Bytes :=
  let n := c.toNat
  if c = mark || c = '\\' then [Byte.backslash, n.toUInt8]
  else if Unicode.isPrintable n then encode c
  else match shortEscape? n with
    | some letter => [Byte.backslash, letter]
    | none =>
      if n < 32 || n = 127 then utf8 "\\x" ++ digitsFixed 16 2 n
      else if n < 0x10000 then utf8 "\\u" ++ digitsFixed 16 4 n
      else utf8 "\\U" ++ digitsFixed 16 8 n

/-- A piece inside quotes; a stray byte shows its value. -/
def pieceBytes : Piece → Bytes
  | .char c => charBytes '"' c
  | .stray b => utf8 "\\x" ++ digitsFixed 16 2 b.toNat

/-- A text in double quotes. -/
def quote (s : Bytes) : Bytes :=
  Byte.doubleQuote :: ((pieces s).flatMap pieceBytes ++ [Byte.doubleQuote])

/-- A character in single quotes. -/
def quoteChar (c : Char) : Bytes :=
  Byte.singleQuote :: (charBytes '\x27' c ++ [Byte.singleQuote])

end LuaCompact.Quoted
