import LuaCompact.Utf8

namespace LuaCompact.Yaml

/-- The characters that a document may hold. -/
def isAllowed (c : Char) : Bool :=
  let n := c.toNat
  n = 9 || n = 10 || n = 13 || (0x20 ≤ n && n ≤ 0x7E) || n = 0x85 ||
    (0xA0 ≤ n && n ≤ 0xFFFD) || 0x10000 ≤ n

/-- The bytes of characters. -/
def bytesOf (cs : List Char) : Bytes := cs.flatMap Utf8.encode

/-- How the bytes of a text stand for characters. Units of 16 bits have the low byte first or
last. -/
inductive Encoding where
  | bytes
  | units (lowFirst : Bool)
deriving DecidableEq, Repr

namespace Encoding

/-- What some bytes start with: a character, a part of one, or neither. -/
inductive Front where
  | char (c : Char) (rest : Bytes)
  | part
  | fault
deriving DecidableEq, Repr

/-- How many bytes a character takes, by its first one; zero if none starts so. -/
def width (b : UInt8) : Nat :=
  if b < 0x80 then 1
  else if b < 0xC0 then 0
  else if b < 0xE0 then 2
  else if b < 0xF0 then 3
  else if b < 0xF8 then 4
  else 0

/-- The front of a text in UTF-8. A character with too few bytes counts as a part before its bytes
are looked at. -/
def frontOfBytes (s : Bytes) : Front :=
  match s with
  | [] => .part
  | b :: _ =>
    if width b = 0 then .fault
    else if (s.take (width b)).length < width b then .part
    else
      match Utf8.decode? s with
      | some (c, rest) => .char c rest
      | none => .fault

/-- The number that two bytes stand for. -/
def unit (lowFirst : Bool) (a b : UInt8) : Nat :=
  if lowFirst then b.toNat * 256 + a.toNat else a.toNat * 256 + b.toNat

/-- The front of a text in UTF-16. A character beyond 16 bits takes two units, the high half
first. -/
def frontOfUnits (lowFirst : Bool) : Bytes → Front
  | a :: b :: s =>
    let m := unit lowFirst a b
    if 0xD800 ≤ m && m < 0xDC00 then
      match s with
      | c :: d :: s =>
        let n := unit lowFirst c d
        if 0xDC00 ≤ n && n < 0xE000 then
          .char (Char.ofNat (0x10000 + (m - 0xD800) * 0x400 + (n - 0xDC00))) s
        else .fault
      | _ => .part
    else if 0xDC00 ≤ m && m < 0xE000 then .fault
    else .char (Char.ofNat m) s
  | _ => .part

def front : Encoding → Bytes → Front
  | bytes, s => frontOfBytes s
  | units lowFirst, s => frontOfUnits lowFirst s

/-- The characters of a block and the bytes left of a character that goes on behind it. Fails on
malformed bytes and on characters that are not allowed. -/
def decode (e : Encoding) : Nat → Array Char → Bytes → Option (Array Char × Bytes)
  | 0, cs, s => some (cs, s)
  | fuel + 1, cs, s =>
    match e.front s with
    | .char c rest => if isAllowed c then decode e fuel (cs.push c) rest else none
    | .part => some (cs, s)
    | .fault => none

end Encoding

/-- The part of a text that has not been looked at yet. It is decoded in blocks of `room` bytes, and
a fault shows only when its block is asked for. -/
structure Source where
  encoding : Encoding
  pending : Bytes
  room : Nat
deriving DecidableEq, Repr

namespace Source

/-- How many bytes a block has. -/
def blockSize : Nat := 512

/-- The source of a text. A mark of byte order in front tells the encoding and counts for the size
of the first block. An empty text is read as an empty line. -/
def ofText (s : Bytes) : Source :=
  match s with
  | [] => ⟨.bytes, [Byte.lf], blockSize⟩
  | 0xFF :: 0xFE :: t => ⟨.units true, t, blockSize - 2⟩
  | 0xFE :: 0xFF :: t => ⟨.units false, t, blockSize - 2⟩
  | 0xEF :: 0xBB :: 0xBF :: t => ⟨.bytes, t, blockSize - 3⟩
  | s => ⟨.bytes, s, blockSize⟩

/-- The characters of the next block. Fails if there is not one whole character. -/
def block? (s : Source) : Option (List Char × Source) := do
  let (cs, left) ← s.encoding.decode s.room #[] (s.pending.take s.room)
  if cs.isEmpty then none
  else return (cs.toList, ⟨s.encoding, left ++ s.pending.drop s.room, blockSize⟩)

theorem block?_length_pos {s t : Source} {cs : List Char} (read : s.block? = some (cs, t)) :
    0 < cs.length := by
  obtain ⟨⟨ds, left⟩, _, he⟩ := Option.bind_eq_some_iff.mp read
  by_cases h : ds.isEmpty = true
  · simp [h] at he
  · simp only [h, Bool.false_eq_true, ↓reduceIte, Option.pure_def, Option.some.injEq,
      Prod.mk.injEq] at he
    rw [← he.1, Array.length_toList]
    exact Array.size_pos_iff.mpr (by simpa using h)

end Source

end LuaCompact.Yaml
