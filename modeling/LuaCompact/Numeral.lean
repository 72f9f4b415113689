import LuaCompact.Bytes

namespace LuaCompact.Numeral

/-- The digit of a value below 36, small letters after nine. -/
def digit (n : Nat) : UInt8 := if n < 10 then (48 + n).toUInt8 else (87 + n).toUInt8

/-- The value of a digit in bases up to 36, in either case. -/
def digitValue? (b : UInt8) : Option Nat :=
  if 48 ≤ b && b ≤ 57 then some (b.toNat - 48)
  else if 97 ≤ b && b ≤ 122 then some (b.toNat - 87)
  else if 65 ≤ b && b ≤ 90 then some (b.toNat - 55)
  else none

/-- The lowest `count` digits of a number, most significant first. -/
def digitsFixed (base : Nat) : Nat → Nat → Bytes
  | 0, _ => []
  | count + 1, n => digitsFixed base count (n / base) ++ [digit (n % base)]

/-- Decimal digits of a natural number. -/
def ofNat (n : Nat) : Bytes := (Nat.toDigits 10 n).map fun c => c.toNat.toUInt8

/-- A decimal integer, the sign first. -/
def ofInt (n : Int) : Bytes :=
  if n < 0 then Byte.dash :: ofNat n.natAbs else ofNat n.natAbs

/-- Digits, given from the last to the first, with a comma before every full group of three. -/
def groupReversed : Bytes → Bytes
  | a :: b :: c :: d :: rest => a :: b :: c :: 44 :: groupReversed (d :: rest)
  | digits => digits

/-- A decimal integer with a comma between groups of three digits. -/
def grouped (n : Int) : Bytes :=
  let digits := (groupReversed (ofNat n.natAbs).reverse).reverse
  if n < 0 then Byte.dash :: digits else digits

/-- The value of a non-empty run of digits of a base; none if a byte is no such digit. -/
def value? (base : Nat) (s : Bytes) : Option Nat :=
  if s = [] then none
  else s.foldl (fun acc b => do
    let n ← acc
    let d ← digitValue? b
    if d < base then some (n * base + d) else none) (some 0)

end LuaCompact.Numeral
