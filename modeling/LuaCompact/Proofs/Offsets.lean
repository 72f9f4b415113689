import LuaCompact.Segment
import LuaCompact.Proofs.Grammar

namespace LuaCompact

/-- What can go wrong with an offset: no byte stands there, or it is no place to cut a part of the
text. -/
inductive OutOfBounds where
  | read (offset : Nat)
  | slice (start stop : Nat)
deriving DecidableEq, Repr

/-- A literal by the offsets where it starts and stops. -/
structure Span where
  start : Nat
  stop : Nat
deriving DecidableEq, Repr

namespace Sweep

/-- What reads a text by offsets, each of them checked. -/
abbrev Checked (α : Type) := Except OutOfBounds α

/-- The text from one offset up to another. -/
def between (src : Bytes) (start stop : Nat) : Bytes := (src.take stop).drop start

/-- The byte at an offset. -/
def read (src : Bytes) (offset : Nat) : Checked UInt8 :=
  match src[offset]? with
  | some b => .ok b
  | none => .error (.read offset)

/-- The text from one offset up to another, which follow each other within it. -/
def slice (src : Bytes) (start stop : Nat) : Checked Bytes :=
  if start ≤ stop ∧ stop ≤ src.length then .ok (between src start stop)
  else .error (.slice start stop)

/-- How far into a text the first `mark` starts. -/
def index? (mark s : Bytes) : Option Nat := (Bytes.cut mark s).map fun (before, _) => before.length

/-- The level of a long bracket of which `level` equals signs have been read. -/
def levelFrom (src : Bytes) (level offset : Nat) : Checked (Option Nat) :=
  if _inside : offset < src.length then do
    let c ← read src offset
    if c = Byte.equals then levelFrom src (level + 1) (offset + 1)
    else if c = Byte.openBracket then .ok (some level)
    else .ok none
  else .ok none
termination_by src.length - offset

/-- The level of the long bracket that opens at an offset. -/
def levelAt (src : Bytes) (offset : Nat) : Checked (Option Nat) :=
  if src.length ≤ offset then .ok none
  else do
    let c ← read src offset
    if c = Byte.openBracket then levelFrom src 0 (offset + 1) else .ok none

/-- How many bytes a backslash before an offset escapes. -/
def escapedAt (src : Bytes) (offset : Nat) : Checked Nat :=
  if src.length ≤ offset then .ok 1
  else do
    let a ← read src offset
    if Token.isBreak a ∧ offset + 1 < src.length then do
      let b ← read src (offset + 1)
      .ok (if Token.isBreak b ∧ b ≠ a then 2 else 1)
    else .ok 1

/-- Where a short string stops, read from an offset inside it, and whether its quote or the end of
its line stops it. An escape can lead beyond the end of the text. -/
def quotedFrom (src : Bytes) (quote : UInt8) (offset : Nat) : Checked (Nat × Bool) :=
  if _inside : offset < src.length then do
    let c ← read src offset
    if c = Byte.backslash then do
      let n ← escapedAt src (offset + 1)
      quotedFrom src quote (offset + (1 + n))
    else if c = quote then .ok (offset + 1, true)
    else if c = Byte.lf then .ok (offset, true)
    else quotedFrom src quote (offset + 1)
  else .ok (offset, false)
termination_by src.length - offset

variable {src : Bytes}

/-- Where the text goes on, its next byte can be read. -/
theorem read_of_drop {offset : Nat} {c : UInt8} {s : Bytes} (rest : src.drop offset = c :: s) :
    offset < src.length ∧ read src offset = .ok c ∧ src.drop (offset + 1) = s := by
  have inside : offset < src.length := by
    by_contra beyond
    rw [List.drop_eq_nil_iff.mpr (by omega)] at rest
    contradiction
  have here : src[offset]? = some c := by rw [← List.head?_drop, rest]; rfl
  refine ⟨inside, by rw [read, here], ?_⟩
  rw [← List.tail_drop, rest, List.tail_cons]

theorem drop_of_drop {offset : Nat} {s t : Bytes} (rest : src.drop offset = s ++ t) :
    src.drop (offset + s.length) = t := by
  rw [← List.drop_drop, rest, List.drop_left]

theorem le_length_of_drop {offset : Nat} {s t : Bytes} (inside : offset ≤ src.length)
    (rest : src.drop offset = s ++ t) : offset + s.length ≤ src.length := by
  have := congrArg List.length rest
  simp only [List.length_drop, List.length_append] at this
  omega

theorem add_length_drop {offset : Nat} (inside : offset ≤ src.length) :
    offset + (src.drop offset).length = src.length := by
  rw [List.length_drop, Nat.add_sub_of_le inside]

theorem slice_of_le {start stop : Nat} (order : start ≤ stop) (inside : stop ≤ src.length) :
    slice src start stop = .ok (between src start stop) := if_pos ⟨order, inside⟩

theorem slice_tail {offset : Nat} (inside : offset ≤ src.length) :
    slice src offset src.length = .ok (src.drop offset) := by
  rw [slice_of_le inside (Nat.le_refl _), between, List.take_length]

/-- A part of the text goes on with what follows it. -/
theorem between_add {start offset : Nat} {s t : Bytes} (order : start ≤ offset)
    (inside : offset ≤ src.length) (rest : src.drop offset = s ++ t) :
    between src start (offset + s.length) = between src start offset ++ s := by
  have taken : src.take (offset + s.length) = src.take offset ++ s := by
    rw [List.take_add, rest, List.take_left]
  rw [between, taken, List.drop_append_of_le_length (by simp; omega), between]

theorem between_self (offset : Nat) : between src offset offset = [] := by
  simp [between]

theorem levelFrom_eq (level : Nat) {s : Bytes} :
    ∀ {offset : Nat}, src.drop offset = s → levelFrom src level offset =
      .ok (if (s.dropWhile (· == Byte.equals)).head? = some Byte.openBracket then
        some (level + (s.takeWhile (· == Byte.equals)).length) else none) := by
  induction s generalizing level with
  | nil =>
    intro offset rest
    have beyond := List.drop_eq_nil_iff.mp rest
    rw [levelFrom, dif_neg (by omega)]
    rfl
  | cons c s ih =>
    intro offset rest
    obtain ⟨inside, here, later⟩ := read_of_drop rest
    rw [levelFrom, dif_pos inside, here]
    simp only [bind, Except.bind]
    by_cases equals : c = Byte.equals
    · have shift (n : Nat) : level + 1 + n = level + (n + 1) := by omega
      rw [if_pos equals, ih (level + 1) later, shift]
      simp [equals]
    · rw [if_neg equals]
      by_cases bracket : c = Byte.openBracket
      · simp [bracket, show Byte.openBracket ≠ Byte.equals by decide]
      · simp [bracket, equals]

/-- The bracket found by offsets is the one that the rest of the text starts with. -/
theorem levelAt_eq (offset : Nat) :
    levelAt src offset = .ok (Bracket.level? (src.drop offset)) := by
  cases rest : src.drop offset with
  | nil => rw [levelAt, if_pos (List.drop_eq_nil_iff.mp rest)]; rfl
  | cons c s =>
    obtain ⟨inside, here, later⟩ := read_of_drop rest
    rw [levelAt, if_neg (by omega), here, Bracket.level?]
    simp only [bind, Except.bind]
    split
    · rw [levelFrom_eq 0 later, Nat.zero_add]
    · rfl

theorem escapedAt_eq (offset : Nat) :
    escapedAt src offset = .ok (Token.escapedLength (src.drop offset)) := by
  cases rest : src.drop offset with
  | nil => rw [escapedAt, if_pos (List.drop_eq_nil_iff.mp rest)]; rfl
  | cons a s =>
    obtain ⟨inside, here, later⟩ := read_of_drop rest
    rw [escapedAt, if_neg (by omega), here]
    simp only [bind, Except.bind]
    cases s with
    | nil =>
      have last := List.drop_eq_nil_iff.mp later
      rw [if_neg (by omega)]
      rfl
    | cons b s =>
      obtain ⟨inside', here', -⟩ := read_of_drop later
      simp only [here', inside', and_true, Token.escapedLength]
      by_cases first : Token.isBreak a
      · by_cases second : Token.isBreak b
        · by_cases same : b = a <;> simp [first, second, same, Ne.symm]
        · simp [first, second]
      · simp [first]

theorem quotedFrom_of_beyond (quote : UInt8) {offset : Nat} (beyond : src.length ≤ offset) :
    quotedFrom src quote offset = .ok (offset, false) := by
  rw [quotedFrom, dif_neg (by omega)]

theorem quotedFrom_of_backslash (quote : UInt8) {offset : Nat} {s : Bytes}
    (rest : src.drop offset = Byte.backslash :: s) : quotedFrom src quote offset =
      quotedFrom src quote (offset + (1 + Token.escapedLength s)) := by
  obtain ⟨inside, here, later⟩ := read_of_drop rest
  rw [quotedFrom, dif_pos inside, here]
  simp only [bind, Except.bind, if_true]
  rw [escapedAt_eq, later]

/-- Where a short string stops is where the string read off the rest of the text ends. An escape at
the end of the text leads one byte beyond it at most. -/
theorem quotedFrom_eq (quote : UInt8) {s : Bytes} :
    ∀ {offset : Nat}, offset ≤ src.length → src.drop offset = s →
      ∃ stop ended, quotedFrom src quote offset = .ok (stop, ended) ∧
        (if ended then stop else src.length) = offset + (Token.quoted quote s).1.length := by
  fun_induction Token.quoted quote s with
  | case1 =>
    intro offset inside rest
    have beyond := List.drop_eq_nil_iff.mp rest
    exact ⟨_, _, quotedFrom_of_beyond quote beyond, by simp; omega⟩
  | case2 =>
    intro offset _ rest
    obtain ⟨inside, -, later⟩ := read_of_drop rest
    have beyond := List.drop_eq_nil_iff.mp later
    have alone : Token.escapedLength [] = 1 := rfl
    rw [quotedFrom_of_backslash quote rest, alone, quotedFrom_of_beyond quote (by omega)]
    exact ⟨_, _, rfl, by simp; omega⟩
  | case3 a =>
    intro offset _ rest
    obtain ⟨-, -, later⟩ := read_of_drop rest
    obtain ⟨inside, -, later⟩ := read_of_drop later
    have beyond := List.drop_eq_nil_iff.mp later
    have alone : Token.escapedLength [a] = 1 := rfl
    rw [quotedFrom_of_backslash quote rest, alone, quotedFrom_of_beyond quote (by omega)]
    exact ⟨_, _, rfl, by simp; omega⟩
  | case4 a b r double text tail hr ih =>
    intro offset inside rest
    have whole : src.drop offset = [Byte.backslash, a, b] ++ r := rest
    obtain ⟨stop, ended, run, same⟩ := ih (le_length_of_drop inside whole) (drop_of_drop whole)
    rw [quotedFrom_of_backslash quote rest, double]
    exact ⟨stop, ended, run, by rw [same, hr]; simp; omega⟩
  | case5 a b r single text tail hr ih =>
    intro offset inside rest
    have whole : src.drop offset = [Byte.backslash, a] ++ b :: r := rest
    have alone : Token.escapedLength (a :: b :: r) = 1 := by
      rw [Token.escapedLength] at single ⊢
      split <;> simp_all
    obtain ⟨stop, ended, run, same⟩ := ih (le_length_of_drop inside whole) (drop_of_drop whole)
    rw [quotedFrom_of_backslash quote rest, alone]
    exact ⟨stop, ended, run, by rw [same, hr]; simp; omega⟩
  | case6 s other =>
    intro offset _ rest
    obtain ⟨inside, here, -⟩ := read_of_drop rest
    rw [quotedFrom, dif_pos inside, here]
    simp only [bind, Except.bind, if_neg other, if_true]
    exact ⟨_, _, rfl, rfl⟩
  | case7 s other unquoted =>
    intro offset _ rest
    obtain ⟨inside, here, -⟩ := read_of_drop rest
    rw [quotedFrom, dif_pos inside, here]
    simp only [bind, Except.bind, if_neg other, if_neg unquoted, if_true]
    exact ⟨_, _, rfl, rfl⟩
  | case8 c s other unquoted inLine text tail hr ih =>
    intro offset _ rest
    obtain ⟨inside, here, later⟩ := read_of_drop rest
    obtain ⟨stop, ended, run, same⟩ := ih (by omega) later
    rw [quotedFrom, dif_pos inside, here]
    simp only [bind, Except.bind, if_neg other, if_neg unquoted, if_neg inLine]
    exact ⟨stop, ended, run, by rw [same, hr]; simp; omega⟩

/-- The first line feed is where the line ends. -/
theorem getD_index?_lf (s : Bytes) :
    (index? [Byte.lf] s).getD s.length = (s.takeWhile (· != Byte.lf)).length := by
  induction s with
  | nil => rfl
  | cons c s ih =>
    by_cases feed : c = Byte.lf
    · simp [index?, Bytes.cut, feed]
    · have later : index? [Byte.lf] (c :: s) = (index? [Byte.lf] s).map (· + 1) := by
        rw [index?, Bytes.cut, if_neg (by simp [Ne.symm feed])]
        simp [index?, Function.comp_def]
      rw [later, List.takeWhile_cons_of_pos (by simpa using feed), List.length_cons,
        List.length_cons, ← ih]
      cases index? [Byte.lf] s <;> rfl

theorem scan_of_index?_eq_some {level i : Nat} {s : Bytes}
    (found : index? (Bracket.closer level) s = some i) :
    ∃ text rest, Bracket.scan level s = (⟨level, text, true⟩, rest) ∧ text.length = i ∧
      s = text ++ (Bracket.closer level ++ rest) := by
  obtain ⟨⟨text, rest⟩, cut, length⟩ := Option.map_eq_some_iff.mp found
  obtain ⟨whole, -⟩ := Bytes.upToFirst_of_cut cut
  exact ⟨text, rest, by rw [Bracket.scan, cut], length, by rw [whole, List.append_assoc]⟩

theorem scan_of_index?_eq_none {level : Nat} {s : Bytes}
    (missing : index? (Bracket.closer level) s = none) :
    Bracket.scan level s = (⟨level, s, false⟩, []) := by
  rw [index?, Option.map_eq_none_iff] at missing
  rw [Bracket.scan, missing]

end Sweep

end LuaCompact
