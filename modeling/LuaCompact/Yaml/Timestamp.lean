import LuaCompact.Numeral

namespace LuaCompact.Yaml.Timestamp

open Numeral

/-- A time as a document gives it, with its distance from universal time in seconds; `none` for
universal time itself. -/
structure Stamp where
  year : Nat
  month : Nat
  day : Nat
  hour : Nat
  minute : Nat
  second : Nat
  nano : Nat
  zone? : Option Int

def isDigit (b : UInt8) : Bool := 48 ≤ b && b ≤ 57

/-- Reads one or two digits. -/
def short? (s : Bytes) : Option (Nat × Bytes) := do
  let digits := (s.takeWhile isDigit).take 2
  return (← value? 10 digits, s.drop digits.length)

/-- Reads exactly `n` digits. -/
def fixed? (n : Nat) (s : Bytes) : Option (Nat × Bytes) := do
  let digits := (s.takeWhile isDigit).take n
  if digits.length ≠ n then none else return (← value? 10 digits, s.drop n)

/-- Reads one given byte. -/
def byte? (b : UInt8) (s : Bytes) : Option Bytes := if s.head? = some b then some s.tail else none

def isLeap (year : Nat) : Bool := year % 4 = 0 && (year % 100 ≠ 0 || year % 400 = 0)

def daysIn (year month : Nat) : Nat :=
  if month = 2 then if isLeap year then 29 else 28
  else if [4, 6, 9, 11].contains month then 30
  else 31

/-- Reads year, month and day. -/
def date? (s : Bytes) : Option ((Nat × Nat × Nat) × Bytes) := do
  let (year, s) ← fixed? 4 s
  let (month, s) ← short? (← byte? Byte.dash s)
  let (day, s) ← short? (← byte? Byte.dash s)
  if month < 1 || 12 < month || day < 1 || daysIn year month < day then none
  else return ((year, month, day), s)

/-- Reads the part of a second after a point or a comma, up to nine digits; it may be missing. -/
def fraction? (s : Bytes) : Option (Nat × Bytes) :=
  match s with
  | p :: t =>
    if (p = 46 || p = 44) && t.head?.any isDigit then do
      let digits := t.takeWhile isDigit
      let n ← value? 10 (digits.take 9)
      return (n * Nat.pow 10 (9 - digits.length), t.drop digits.length)
    else some (0, s)
  | [] => some (0, s)

/-- Reads hour, minute and second. -/
def clock? (s : Bytes) : Option ((Nat × Nat × Nat × Nat) × Bytes) := do
  let (hour, s) ← short? s
  let (minute, s) ← short? (← byte? 58 s)
  let (second, s) ← short? (← byte? 58 s)
  let (nano, s) ← fraction? s
  if 24 ≤ hour || 60 ≤ minute || 60 ≤ second then none
  else return ((hour, minute, second, nano), s)

/-- Reads a zone to the end: `Z`, or a sign with hours and minutes. -/
def zone? (s : Bytes) : Option (Option Int) :=
  match s with
  | [90] => some none
  | sign :: t => do
    let (hours, t) ← fixed? 2 t
    let (minutes, t) ← fixed? 2 (← byte? 58 t)
    if t ≠ [] || 24 < hours || 60 < minutes then none
    else
      let offset : Int := hours * 3600 + minutes * 60
      if sign = 43 then some (if offset = 0 then none else some offset)
      else if sign = Byte.dash then some (if offset = 0 then none else some (-offset))
      else none
  | [] => none

/-- Reads a time: a date alone, a date and a time of day after a space, or both with a zone. -/
def parse? (s : Bytes) : Option Stamp := do
  if (s.takeWhile isDigit).length ≠ 4 then none
  else
    let ((year, month, day), s) ← date? s
    match s with
    | [] => return ⟨year, month, day, 0, 0, 0, 0, none⟩
    | sep :: s =>
      let s := if sep = Byte.space then s.dropWhile (· == sep) else s
      let ((hour, minute, second, nano), s) ← clock? s
      if sep = Byte.space then
        if s = [] then return ⟨year, month, day, hour, minute, second, nano, none⟩ else none
      else if sep = 84 || sep = 116 then
        return ⟨year, month, day, hour, minute, second, nano, ← zone? s⟩
      else none

/-- The digits after the point of a second, without the zeros at the end. -/
def fractionText (nano : Nat) : Bytes :=
  if nano = 0 then []
  else 46 :: ((digitsFixed 10 9 nano).reverse.dropWhile (· == 48)).reverse

/-- A distance from universal time in hours and minutes. -/
def offsetText (offset : Int) : Bytes :=
  (if offset < 0 then Byte.dash else 43) ::
    (digitsFixed 10 2 (offset.natAbs / 3600) ++ digitsFixed 10 2 (offset.natAbs / 60 % 60))

/-- A time as text. -/
def Stamp.text (t : Stamp) : Bytes :=
  digitsFixed 10 4 t.year ++ utf8 "-" ++ digitsFixed 10 2 t.month ++ utf8 "-" ++
    digitsFixed 10 2 t.day ++ utf8 " " ++ digitsFixed 10 2 t.hour ++ utf8 ":" ++
    digitsFixed 10 2 t.minute ++ utf8 ":" ++ digitsFixed 10 2 t.second ++ fractionText t.nano ++
    match t.zone? with
    | none => utf8 " +0000 UTC"
    | some offset => utf8 " " ++ offsetText offset ++ utf8 " " ++ offsetText offset

end LuaCompact.Yaml.Timestamp
