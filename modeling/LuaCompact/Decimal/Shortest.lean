import LuaCompact.Decimal.Binary

namespace LuaCompact.Decimal

/-- The reals that round to one double, in units of a common `scale`: the double is
`value / scale`, and the interval reaches from `value - below` to `value + above`. The ends belong
to it if the mantissa is even. -/
structure Interval where
  value : Nat
  below : Nat
  above : Nat
  scale : Nat
  closed : Bool

/-- The interval of a finite number other than zero. Below a power of two the neighbours lie
twice as close. -/
def interval (m : Nat) (e : Int) : Interval :=
  let unit := Nat.pow 2 e.toNat
  let near := m = Nat.pow 2 52 && e > -1074
  ⟨4 * m * unit, if near then unit else 2 * unit, 2 * unit, 4 * Nat.pow 2 (-e).toNat, m % 2 = 0⟩

/-- Whether the decimal `c * 10 ^ j` lies in the interval. -/
def Interval.holds (i : Interval) (c : Nat) (j : Int) : Bool :=
  let point := c * Nat.pow 10 j.toNat * i.scale
  let grow := Nat.pow 10 (-j).toNat
  let lo := (i.value - i.below) * grow
  let hi := (i.value + i.above) * grow
  if i.closed then lo ≤ point && point ≤ hi else lo < point && point < hi

/-- The largest power of ten that the value reaches. -/
def Interval.magnitude (i : Interval) : Int :=
  if i.scale ≤ i.value then (Numeral.ofNat (i.value / i.scale)).length - 1
  else
    match (List.range 400).find? fun k => i.scale ≤ i.value * Nat.pow 10 k with
    | some k => -(k : Int)
    | none => -400

/-- The neighbour of the value on the grid of `10 ^ j` that lies in the interval, the nearer one
if both do. -/
def Interval.onGrid? (i : Interval) (j : Int) : Option Nat :=
  let step := Nat.pow 10 j.toNat * i.scale
  let value := i.value * Nat.pow 10 (-j).toNat
  let c := value / step
  match i.holds c j, i.holds (c + 1) j with
  | true, true => some (roundDiv value step)
  | true, false => some c
  | false, true => some (c + 1)
  | false, false => none

/-- A decimal `0.d₁d₂… * 10 ^ point` by its digits, the last of them not zero. -/
structure Digits where
  digits : Bytes
  point : Int

/-- Drops the zeros at the end. -/
def dropZeros (s : Bytes) : Bytes := (s.reverse.dropWhile (· == 48)).reverse

/-- The fewest digits that read back as the same double, at most 17. -/
def shortest (m : Nat) (e : Int) : Digits :=
  let i := interval m e
  let top := i.magnitude
  let found := (List.range 17).findSome? fun n : Nat =>
    (i.onGrid? (top - n)).map fun c => (c, top - (n : Int))
  let (c, j) := found.getD (0, 0)
  let digits := Numeral.ofNat c
  ⟨dropZeros digits, digits.length + j⟩

/-- The digits of a number; zero has one. -/
def digitsOf (m : Nat) (e : Int) : Digits := if m = 0 then ⟨[48], 1⟩ else shortest m e

/-- Digits with the point where it belongs and no exponent. -/
def positional (d : Digits) : Bytes :=
  if d.point ≤ 0 then 48 :: 46 :: (List.replicate (-d.point).toNat 48 ++ d.digits)
  else
    let whole := d.digits.take d.point.toNat
    let whole := whole ++ List.replicate (d.point.toNat - whole.length) 48
    let rest := d.digits.drop d.point.toNat
    if rest = [] then whole else whole ++ 46 :: rest

/-- Digits with one before the point and an exponent of at least two digits. -/
def scientific (d : Digits) : Bytes :=
  let exponent := d.point - 1
  let size := Numeral.ofNat exponent.natAbs
  let rest := d.digits.tail
  d.digits.take 1 ++ (if rest = [] then [] else 46 :: rest) ++
    101 :: (if exponent < 0 then Byte.dash else 43) ::
    (List.replicate (2 - size.length) 48 ++ size)

/-- A number by its shortest digits, written as `body` says. -/
def write (body : Digits → Bytes) : Binary → Bytes
  | .nan => utf8 "NaN"
  | .infinite negative => utf8 (if negative then "-Inf" else "+Inf")
  | .finite negative m e =>
    (if negative then [Byte.dash] else []) ++ body (digitsOf m e)

/-- The shortest text of a number without exponent. -/
def plain : Binary → Bytes := write positional

/-- The shortest text of a number. The exponent shows below `10 ^ -4` and from `10 ^ 6` on. -/
def general : Binary → Bytes :=
  write fun d => if d.point - 1 < -4 || d.point - 1 ≥ 6 then scientific d else positional d

end LuaCompact.Decimal
