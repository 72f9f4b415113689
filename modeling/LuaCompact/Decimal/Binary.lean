import LuaCompact.Numeral

namespace LuaCompact.Decimal

/-- A double precision number taken apart: a finite one is `mantissa * 2 ^ exponent`. -/
inductive Binary where
  | nan
  | infinite (negative : Bool)
  | finite (negative : Bool) (mantissa : Nat) (exponent : Int)
deriving DecidableEq, Repr

namespace Binary

/-- The number with the given bits. -/
def ofBits (bits : UInt64) : Binary :=
  let n := bits.toNat
  let negative : Bool := n / Nat.pow 2 63 = 1
  let field : Nat := n / Nat.pow 2 52 % 2048
  let fraction : Nat := n % Nat.pow 2 52
  if field = 2047 then if fraction = 0 then infinite negative else nan
  else if field = 0 then finite negative fraction (-1074)
  else finite negative (Nat.pow 2 52 + fraction) (field - 1075)

def isNegative : Binary → Bool
  | nan => false
  | infinite negative => negative
  | finite negative _ _ => negative

end Binary

/-- The quotient rounded to the nearest integer, a half to the even neighbour. -/
def roundDiv (n d : Nat) : Nat :=
  let q := n / d
  let r := n % d
  if d < 2 * r || (d = 2 * r && q % 2 = 1) then q + 1 else q

/-- `mantissa * 2 ^ exponent * scale`, rounded to the nearest integer. -/
def roundScaled (mantissa : Nat) (exponent : Int) (scale : Nat) : Nat :=
  roundDiv (mantissa * Nat.pow 2 exponent.toNat * scale) (Nat.pow 2 (-exponent).toNat)

/-- A point before the last `places` of the digits, with a zero in front if need be. -/
def insertPoint (places : Nat) (n : Nat) : Bytes :=
  let unit := Nat.pow 10 places
  Numeral.ofNat (n / unit) ++ 46 :: Numeral.digitsFixed 10 places (n % unit)

/-- A number with a fixed count of decimal places, the exact value rounded half to even. -/
def fixed (places : Nat) : Binary → Bytes
  | .nan => utf8 "NaN"
  | .infinite negative => utf8 (if negative then "-Inf" else "+Inf")
  | .finite negative m e =>
    (if negative then [Byte.dash] else []) ++
      insertPoint places (roundScaled m e (Nat.pow 10 places))

end LuaCompact.Decimal
