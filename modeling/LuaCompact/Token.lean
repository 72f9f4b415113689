import LuaCompact.Bracket

namespace LuaCompact

/-- The units into which Lua source falls as far as the removal of comments has to tell them
apart. Whatever is neither comment nor literal counts byte by byte as code. -/
inductive Token where
  | shebang (line : Bytes)
  | blockComment (body : Bracket.Body)
  | lineComment (text : Bytes)
  | shortString (text : Bytes)
  | longString (body : Bracket.Body)
  | code (byte : UInt8)
deriving DecidableEq, Repr

namespace Token

/-- The marker that starts a comment. -/
def commentMark : Bytes := [Byte.dash, Byte.dash]

/-- The marker that makes the first line a shebang. -/
def shebangMark : Bytes := utf8 "#!"

theorem shebangMark_eq : shebangMark = [35, 33] := by decide

/-- The token as written. -/
def bytes : Token → Bytes
  | shebang line => line
  | blockComment body => commentMark ++ body.bytes
  | lineComment text => commentMark ++ text
  | shortString text => text
  | longString body => body.bytes
  | code byte => [byte]

/-- Whether a byte can be one half of a line break. -/
def isBreak (b : UInt8) : Bool := b = Byte.lf || b = Byte.cr

/-- How many bytes a backslash escapes: a line break of two different bytes goes as one, any
other byte goes alone. -/
def escapedLength : Bytes → Nat
  | a :: b :: _ => if isBreak a && isBreak b && a != b then 2 else 1
  | _ => 1

/-- The rest of a short string after its opening quote, and what follows the string. It ends with
the quote, before a line feed that no backslash escapes, or at the end of the text. -/
def quoted (quote : UInt8) : Bytes → Bytes × Bytes
  | [] => ([], [])
  | c :: s =>
    if c = Byte.backslash then
      match s with
      | [] => ([c], [])
      | [a] => ([c, a], [])
      | a :: b :: r =>
        if escapedLength (a :: b :: r) = 2 then
          let (text, rest) := quoted quote r
          (c :: a :: b :: text, rest)
        else
          let (text, rest) := quoted quote (b :: r)
          (c :: a :: text, rest)
    else if c = quote then ([c], s)
    else if c = Byte.lf then ([], c :: s)
    else
      let (text, rest) := quoted quote s
      (c :: text, rest)

/-- The comment whose marker has just been read. -/
def comment (s : Bytes) : Token × Bytes :=
  match Bracket.read? s with
  | some (body, rest) => (blockComment body, rest)
  | none => (lineComment (s.takeWhile (· != Byte.lf)), s.dropWhile (· != Byte.lf))

/-- Whether a byte opens a short string. -/
def isQuote (b : UInt8) : Bool := b = Byte.doubleQuote || b = Byte.singleQuote

/-- The token that starts with the byte `c` before the text `s`, and what follows it. -/
def next (c : UInt8) (s : Bytes) : Token × Bytes :=
  if c = Byte.dash ∧ s.head? = some Byte.dash then comment s.tail
  else if isQuote c then
    let (text, rest) := quoted c s
    (shortString (c :: text), rest)
  else
    match Bracket.read? (c :: s) with
    | some (body, rest) => (longString body, rest)
    | none => (code c, s)

theorem cut_rest_length {mark s before rest : Bytes}
    (found : Bytes.cut mark s = some (before, rest)) :
    rest.length ≤ s.length := by
  induction s generalizing before with
  | nil => grind [Bytes.cut]
  | cons c s ih =>
    simp only [Bytes.cut] at found
    split at found
    · simp only [Option.some.injEq, Prod.mk.injEq] at found
      obtain ⟨_, rfl⟩ := found
      simp
    · obtain ⟨p, hp, he⟩ := Option.map_eq_some_iff.mp found
      simp only [Prod.mk.injEq] at he
      obtain ⟨_, rfl⟩ := he
      have := ih hp
      simp; omega

theorem read?_rest_length {s rest : Bytes} {body : Bracket.Body}
    (read : Bracket.read? s = some (body, rest)) : rest.length ≤ s.length - 2 := by
  obtain ⟨level, _, he⟩ := Option.map_eq_some_iff.mp read
  unfold Bracket.scan at he
  split at he
  next text tail found =>
    have := cut_rest_length found
    simp only [Prod.mk.injEq] at he
    obtain ⟨_, rfl⟩ := he
    simp at this
    omega
  next =>
    simp only [Prod.mk.injEq] at he
    obtain ⟨_, rfl⟩ := he
    simp

theorem quoted_rest_length (quote : UInt8) (s : Bytes) : (quoted quote s).2.length ≤ s.length := by
  fun_induction quoted quote s <;> simp_all <;> omega

theorem comment_rest_length (s : Bytes) : (comment s).2.length ≤ s.length := by
  unfold comment
  split
  next read => have := read?_rest_length read; simp; omega
  next => exact (List.dropWhile_suffix _).length_le

/-- A token takes at least its first byte. -/
theorem next_rest_length (c : UInt8) (s : Bytes) : (next c s).2.length ≤ s.length := by
  unfold next
  split
  · have := comment_rest_length s.tail
    simp at this
    omega
  · split
    · exact quoted_rest_length c s
    · split
      next read => have := read?_rest_length read; simp at this ⊢; omega
      next => simp

/-- The tokens of a text that has no first line to treat apart. -/
def scan (s : Bytes) : List Token :=
  match s with
  | [] => []
  | c :: t => (next c t).1 :: scan (next c t).2
termination_by s.length
decreasing_by exact Nat.lt_succ_of_le (next_rest_length c t)

/-- The tokens of a whole source text. Its first line is a shebang if it starts as one. -/
def lex (s : Bytes) : List Token :=
  if shebangMark.isPrefixOf s then
    shebang (s.takeWhile (· != Byte.lf)) :: scan (s.dropWhile (· != Byte.lf))
  else scan s

end Token

end LuaCompact
