import LuaCompact.Bytes

namespace LuaCompact.Utf8

/-- A byte that continues a character. -/
def isTail (b : UInt8) : Bool := 0x80 ≤ b && b ≤ 0xBF

/-- The low six bits that a continuing byte carries. -/
def tailBits (b : UInt8) : Nat := b.toNat % 64

/-- The second byte of a three byte character, after the first byte `a`. Overlong forms and
surrogates are refused. -/
def isSecondOfThree (a b : UInt8) : Bool :=
  if a = 0xE0 then 0xA0 ≤ b && b ≤ 0xBF
  else if a = 0xED then 0x80 ≤ b && b ≤ 0x9F
  else isTail b

/-- The second byte of a four byte character, after the first byte `a`. Overlong forms and
values above the last code point are refused. -/
def isSecondOfFour (a b : UInt8) : Bool :=
  if a = 0xF0 then 0x90 ≤ b && b ≤ 0xBF
  else if a = 0xF4 then 0x80 ≤ b && b ≤ 0x8F
  else isTail b

/-- The character a text starts with, and the rest; none if the text is empty or does not start
with a well-formed character. -/
def decode? : Bytes → Option (Char × Bytes)
  | [] => none
  | a :: s =>
    if a < 0x80 then some (Char.ofNat a.toNat, s)
    else if a < 0xC2 then none
    else if a < 0xE0 then
      match s with
      | b :: r =>
        if isTail b then some (Char.ofNat (a.toNat % 32 * 64 + tailBits b), r) else none
      | _ => none
    else if a < 0xF0 then
      match s with
      | b :: c :: r =>
        if isSecondOfThree a b && isTail c then
          some (Char.ofNat (a.toNat % 16 * 4096 + tailBits b * 64 + tailBits c), r)
        else none
      | _ => none
    else if a < 0xF5 then
      match s with
      | b :: c :: d :: r =>
        if isSecondOfFour a b && isTail c && isTail d then
          some (Char.ofNat
            (a.toNat % 8 * 262144 + tailBits b * 4096 + tailBits c * 64 + tailBits d), r)
        else none
      | _ => none
    else none

theorem decode?_rest_length {s r : Bytes} {c : Char} (decoded : decode? s = some (c, r)) :
    r.length < s.length := by
  cases s with
  | nil => simp [decode?] at decoded
  | cons a s =>
    simp only [decode?] at decoded
    repeat' split at decoded
    all_goals first | contradiction | (simp at decoded; obtain ⟨_, rfl⟩ := decoded; simp; try omega)

/-- A part of a text: a well-formed character, or a byte that belongs to none. -/
inductive Piece where
  | char (c : Char)
  | stray (b : UInt8)
deriving DecidableEq, Repr

/-- The bytes of one character. -/
def encode (c : Char) : Bytes := String.utf8EncodeChar c

/-- The bytes of a piece. -/
def Piece.bytes : Piece → Bytes
  | .char c => encode c
  | .stray b => [b]

/-- A text as characters and stray bytes, from the left. -/
def pieces (s : Bytes) : List Piece :=
  match s with
  | [] => []
  | b :: t =>
    match _decoded : decode? (b :: t) with
    | some (c, r) => .char c :: pieces r
    | none => .stray b :: pieces t
termination_by s.length
decreasing_by
  · exact decode?_rest_length _decoded
  · simp

/-- The first piece of a text and the rest. -/
def piece? : Bytes → Option (Piece × Bytes)
  | [] => none
  | b :: t =>
    match decode? (b :: t) with
    | some (c, r) => some (.char c, r)
    | none => some (.stray b, t)

/-- The text of a list of pieces. -/
def join (ps : List Piece) : Bytes := ps.flatMap Piece.bytes

/-- Whether a text is well-formed UTF-8. -/
def isValid (s : Bytes) : Bool :=
  (pieces s).all fun
    | .char _ => true
    | .stray _ => false

/-- The code point a piece counts as; a stray byte counts as the replacement character. -/
def Piece.code : Piece → Nat
  | .char c => c.toNat
  | .stray _ => 0xFFFD

end LuaCompact.Utf8
