import LuaCompact.Utf8

namespace LuaCompact

open Utf8

/-- The white space that minifying collapses: tab, line feed, form feed, carriage return
and space. -/
def isGap (b : UInt8) : Bool :=
  b = Byte.tab || b = Byte.lf || b = Byte.ff || b = Byte.cr || b = Byte.space

/-- The white space trimmed off both ends of the result: that of `isGap` and the vertical tab. -/
def isEdge (b : UInt8) : Bool := isGap b || b = Byte.vt

/-- The characters with the property White_Space. -/
def isWhiteSpace (c : Char) : Bool :=
  let n := c.toNat
  (9 ≤ n && n ≤ 13) || n = 0x20 || n = 0x85 || n = 0xA0 || n = 0x1680 ||
    (0x2000 ≤ n && n ≤ 0x200A) || n = 0x2028 || n = 0x2029 || n = 0x202F || n = 0x205F ||
    n = 0x3000

/-- A stray byte is never white space. -/
def Utf8.Piece.isWhiteSpace : Piece → Bool
  | .char c => LuaCompact.isWhiteSpace c
  | .stray _ => false

/-- Whether a text holds white space only. -/
def isBlank (s : Bytes) : Bool := (pieces s).all Piece.isWhiteSpace

/-- A text without the white space at its ends. -/
def trim (s : Bytes) : Bytes :=
  join (((pieces s).dropWhile Piece.isWhiteSpace).reverse.dropWhile Piece.isWhiteSpace).reverse

/-- A text without what `isEdge` holds of at its start. -/
def trimStart (s : Bytes) : Bytes := s.dropWhile isEdge

/-- A text without what `isEdge` holds of at its end. -/
def trimEnd (s : Bytes) : Bytes := (s.reverse.dropWhile isEdge).reverse

end LuaCompact
