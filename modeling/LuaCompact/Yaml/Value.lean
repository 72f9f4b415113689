import LuaCompact.Yaml.Node
import LuaCompact.Yaml.Timestamp
import LuaCompact.Decimal.Shortest

namespace LuaCompact.Yaml

/-- A value that a document holds. A number with a fraction is kept by the bits of its double, a
time by its text. A map has only strings as keys, a table any scalars. -/
inductive Value where
  | null
  | bool (b : Bool)
  | int (n : Int)
  | float (bits : UInt64)
  | time (text : Bytes)
  | string (s : Bytes)
  | list (items : List Value)
  | map (pairs : List (Bytes × Value))
  | table (pairs : List (Value × Value))

namespace Value

/-- The value of digits with an optional sign in front. -/
def signed? (base : Nat) (s : Bytes) : Option Int :=
  match s with
  | c :: t =>
    if c = Byte.dash then (Numeral.value? base t).map fun n => -(n : Int)
    else if c = 43 then (Numeral.value? base t).map fun n => (n : Int)
    else (Numeral.value? base s).map fun n => (n : Int)
  | [] => none

/-- The base that the start of a number asks for, and the digits after it: `0x`, `0b` and `0o` in
either case, or a zero for base eight. -/
def basedDigits (s : Bytes) : Nat × Bytes :=
  match s with
  | 48 :: c :: t =>
    if c = 120 || c = 88 then (16, t)
    else if c = 98 || c = 66 then (2, t)
    else if c = 111 || c = 79 then (8, t)
    else (8, c :: t)
  | _ => (10, s)

/-- An integer in any base; it has to fit 64 bits, without sign also as an unsigned one. -/
def integer? (s : Bytes) : Option Int :=
  let (negative, hasSign, body) := match s with
    | c :: t =>
      if c = Byte.dash then (true, true, t)
      else if c = 43 then (false, true, t)
      else (false, false, s)
    | [] => (false, false, s)
  let (base, digits) := basedDigits body
  match Numeral.value? base digits with
  | none => none
  | some n =>
    if negative then if n ≤ Nat.pow 2 63 then some (-(n : Int)) else none
    else if n < Nat.pow 2 63 || (!hasSign && n < Nat.pow 2 64) then some n
    else none

/-- The parts of a decimal number: sign, digits before and after the point, and the exponent. -/
structure DecimalText where
  negative : Bool
  whole : Bytes
  fraction : Bytes
  exponent : Int

/-- Reads an exponent to the end; none is zero. -/
def exponent? (s : Bytes) : Option Int :=
  match s with
  | [] => some 0
  | e :: t => if e = 101 || e = 69 then signed? 10 t else none

/-- Reads a decimal number with at least one digit. -/
def decimal? (s : Bytes) : Option DecimalText :=
  let negative := s.head? = some Byte.dash
  let body := if negative || s.head? = some 43 then s.tail else s
  let whole := body.takeWhile Timestamp.isDigit
  let rest := body.drop whole.length
  let (fraction, rest) := match rest with
    | 46 :: t => (t.takeWhile Timestamp.isDigit, t.dropWhile Timestamp.isDigit)
    | _ => ([], rest)
  if whole = [] && fraction = [] then none
  else (exponent? rest).map fun e => ⟨negative, whole, fraction, e⟩

/-- The double nearest to a decimal number; none if it is too large. -/
def DecimalText.bits? (d : DecimalText) : Option UInt64 :=
  let digits := (d.whole ++ d.fraction).dropWhile (· == 48)
  let mantissa := (Numeral.value? 10 (d.whole ++ d.fraction)).getD 0
  let exponent := d.exponent - d.fraction.length
  let top := exponent + digits.length
  let x : Float :=
    if mantissa = 0 || top < -400 then 0
    else if 400 < top then 1 / 0
    else if exponent < 0 then Float.ofScientific mantissa true exponent.natAbs
    else Float.ofScientific mantissa false exponent.natAbs
  if x.isInf then none else some (if d.negative then -x else x).toBits

/-- The double that a text names. -/
def float? (s : Bytes) : Option UInt64 := (decimal? s).bind DecimalText.bits?

/-- The words that stand for values of their own. -/
def words : List (String × Value) :=
  [("", null), ("~", null), ("null", null), ("Null", null), ("NULL", null),
    ("true", bool true), ("True", bool true), ("TRUE", bool true),
    ("false", bool false), ("False", bool false), ("FALSE", bool false),
    (".nan", float 0x7FF8000000000001), (".NaN", float 0x7FF8000000000001),
    (".NAN", float 0x7FF8000000000001),
    (".inf", float 0x7FF0000000000000), (".Inf", float 0x7FF0000000000000),
    (".INF", float 0x7FF0000000000000), ("+.inf", float 0x7FF0000000000000),
    ("+.Inf", float 0x7FF0000000000000), ("+.INF", float 0x7FF0000000000000),
    ("-.inf", float 0xFFF0000000000000), ("-.Inf", float 0xFFF0000000000000),
    ("-.INF", float 0xFFF0000000000000)]

def isSign (b : UInt8) : Bool := b = Byte.dash || b = 43

abbrev underscore : UInt8 := 95

/-- Whether every underscore stands between two digits; `digit` tells whether a digit is before. -/
def dividesDigits (digit : Bool) : Bytes → Bool
  | [] => true
  | b :: s =>
    if b = underscore then digit && s.head?.any Timestamp.isDigit && dividesDigits false s
    else dividesDigits (Timestamp.isDigit b) s

/-- A number that starts with a point. Underscores may divide its digits. -/
def pointed? (s : Bytes) : Option UInt64 :=
  if dividesDigits false s then float? (s.filter (· != underscore)) else none

/-- An integer in base two or eight whose sign stands behind the mark of its base. -/
def innerSigned? (s : Bytes) : Option Int :=
  let n? := match s with
    | 48 :: 98 :: t => signed? 2 t
    | 48 :: 111 :: t => signed? 8 t
    | _ => none
  n?.filter fun n => -Int.ofNat (Nat.pow 2 63) ≤ n && n < Int.ofNat (Nat.pow 2 63)

/-- A number or a time that starts with a sign or a digit. Underscores do not count. -/
def number? (s : Bytes) : Option Value :=
  match Timestamp.parse? s with
  | some t => some (time t.text)
  | none =>
    let s := s.filter (· != underscore)
    match integer? s with
    | some n => some (int n)
    | none =>
      match float? s with
      | some bits => some (float bits)
      | none => (innerSigned? s).map int

/-- The value of a scalar that was not quoted. -/
def ofPlain (s : Bytes) : Value :=
  match words.find? fun (w, _) => utf8 w = s with
  | some (_, v) => v
  | none =>
    match s with
    | [] => null
    | c :: _ =>
      if c = 46 then ((pointed? s).map float).getD (string s)
      else if isSign c || Timestamp.isDigit c then (number? s).getD (string s)
      else string s

/-- The start of the tags that the format itself defines. -/
def standardTag : Bytes := utf8 "tag:yaml.org,2002:"

/-- The short form of that start. -/
def shortStandardTag : Bytes := utf8 "!!"

/-- The name of a tag that the format itself defines. -/
def tagName? (tag : Bytes) : Option Bytes :=
  if standardTag.isPrefixOf tag then some (tag.drop standardTag.length)
  else if shortStandardTag.isPrefixOf tag then some (tag.drop shortStandardTag.length)
  else none

/-- The name of the tag that a plain value has by itself. -/
def kind : Value → String
  | null => "null"
  | bool _ => "bool"
  | int _ => "int"
  | float _ => "float"
  | time _ => "timestamp"
  | string _ => "str"
  | list _ => "seq"
  | map _ => "map"
  | table _ => "map"

/-- The value of a digit of base 64. -/
def sextet? (b : UInt8) : Option Nat :=
  if 65 ≤ b && b ≤ 90 then some (b.toNat - 65)
  else if 97 ≤ b && b ≤ 122 then some (b.toNat - 71)
  else if 48 ≤ b && b ≤ 57 then some (b.toNat + 4)
  else if b = 43 then some 62
  else if b = 47 then some 63
  else none

/-- The bytes that groups of four digits of base 64 stand for; the last may be filled up. -/
def base64? : Bytes → Option Bytes
  | [] => some []
  | a :: b :: c :: d :: rest => do
    let x ← sextet? a
    let y ← sextet? b
    if c = 61 then
      if d = 61 && rest = [] then some [(x * 4 + y / 16).toUInt8] else none
    else
      let z ← sextet? c
      if d = 61 then
        if rest = [] then some [(x * 4 + y / 16).toUInt8, (y % 16 * 16 + z / 4).toUInt8] else none
      else
        let w ← sextet? d
        return (x * 4 + y / 16).toUInt8 :: (y % 16 * 16 + z / 4).toUInt8 ::
          (z % 4 * 64 + w).toUInt8 :: (← base64? rest)
  | _ => none

/-- The kinds of values that a tag can ask for. -/
def taggedKinds : List String := ["bool", "int", "float", "null", "timestamp"]

/-- A value if it is of the kind that a tag asks for. An integer of 64 bits with a sign also is a
number with a fraction. -/
def ofKind? (kind : String) (v : Value) : Option Value :=
  if v.kind = kind then some v
  else
    match kind, v with
    | "float", int n =>
      if n < Int.ofNat (Nat.pow 2 63) then some (float (Float.ofInt n).toBits) else none
    | _, _ => none

/-- The value of a scalar. A quoted one is a string, and a standard tag has to fit. -/
def ofScalar? (tag text : Bytes) (plain : Bool) : Option Value :=
  if tag = [] then some (if plain then ofPlain text else string text)
  else
    match tagName? tag with
    | none => some (string text)
    | some name =>
      if name = utf8 "binary" then
        (base64? (text.filter fun b => b != Byte.lf && b != Byte.cr)).map string
      else
        match taggedKinds.find? fun kind => utf8 kind = name with
        | some kind => ofKind? kind (ofPlain text)
        | none => some (string text)

/-- Whether two scalars are one key. -/
def isSame : Value → Value → Bool
  | null, null => true
  | bool a, bool b => a = b
  | int m, int n => m = n
  | float a, float b => Float.ofBits a == Float.ofBits b
  | time s, time t => s = t
  | string s, string t => s = t
  | _, _ => false

/-- The place of a key among keys of other kinds. -/
def rank : Value → Nat
  | null => 0
  | int _ => 1
  | float _ => 2
  | bool _ => 3
  | string _ => 4
  | time _ => 5
  | _ => 6

/-- The order in which the keys of a table are written: by kind, then by value. -/
def isBefore : Value → Value → Bool
  | bool a, bool b => !a || b
  | int m, int n => m ≤ n
  | float a, float b => (Float.ofBits a).isNaN || Float.ofBits a ≤ Float.ofBits b
  | time s, time t => Bytes.le s t
  | string s, string t => Bytes.le s t
  | v, w => v.rank ≤ w.rank

/-- Texts between brackets, with spaces between them. -/
def bracketed (start : Bytes) (texts : List Bytes) : Bytes :=
  start ++ utf8 "[" ++ List.intercalate (utf8 " ") texts ++ utf8 "]"

mutual

/-- The text of a value inside a list. Pairs are sorted by their keys. -/
def text : Value → Bytes
  | null => utf8 "<nil>"
  | bool b => utf8 (if b then "true" else "false")
  | int n => Numeral.ofInt n
  | float bits => Decimal.general (.ofBits bits)
  | time t => t
  | string s => s
  | list items => bracketed [] (texts items)
  | map pairs =>
    let sorted := (pairTexts pairs).mergeSort fun p q => Bytes.le p.1 q.1
    bracketed (utf8 "map") (sorted.map Prod.snd)
  | table pairs =>
    let sorted := (rowTexts pairs).mergeSort fun p q => p.1.isBefore q.1
    bracketed (utf8 "map") (sorted.map Prod.snd)

def texts : List Value → List Bytes
  | [] => []
  | v :: vs => v.text :: texts vs

def pairTexts : List (Bytes × Value) → List (Bytes × Bytes)
  | [] => []
  | (k, v) :: ps => (k, k ++ utf8 ":" ++ v.text) :: pairTexts ps

def rowTexts : List (Value × Value) → List (Value × Bytes)
  | [] => []
  | (k, v) :: ps => (k, k.text ++ utf8 ":" ++ v.text) :: rowTexts ps

end

/-- A value as one setting: lists and maps have no text. -/
def settingText : Value → Bytes
  | null => []
  | float bits => Decimal.plain (.ofBits bits)
  | list _ => []
  | map _ => []
  | table _ => []
  | v => v.text

end Value

end LuaCompact.Yaml
