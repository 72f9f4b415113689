import LuaCompact.Proofs.LineCursor
import Mathlib

namespace LuaCompact

namespace Numeral

theorem digitValue?_digit {n : Nat} (small : n < 36) : digitValue? (digit n) = some n := by
  revert n
  decide

/-- Digits are read back as the number that they are the lowest digits of. -/
theorem value?_digitsFixed {base : Nat} (pos : 0 < base) (small : base ≤ 36) {count : Nat}
    (some : count ≠ 0) (n : Nat) :
    value? base (digitsFixed base count n) = .some (n % base ^ count) := by
  have nonempty : digitsFixed base count n ≠ [] := by
    cases count <;> simp [digitsFixed] at some ⊢
  rw [value?, if_neg nonempty]
  clear some nonempty
  induction count generalizing n with
  | zero => simp [digitsFixed, Nat.mod_one]
  | succ count ih =>
    have last : n % base < base := Nat.mod_lt n pos
    rw [digitsFixed, List.foldl_append, ih]
    simp [digitValue?_digit (Nat.lt_of_lt_of_le last small), last, Nat.pow_succ', Nat.mod_mul,
      Nat.mul_comm, Nat.add_comm]

end Numeral

namespace Yaml

/-- The characters that stand for themselves between double quotes. -/
def isBare (c : Char) : Bool := isPrintable c && c ≠ ' ' && c ≠ '"' && c ≠ '\\'

/-- Eight hexadecimal digits for the number of a character. -/
def hexDigits (c : Char) : List Char :=
  (Numeral.digitsFixed 16 8 c.toNat).map fun b => Char.ofNat b.toNat

/-- A character as it is written between double quotes. -/
def written (c : Char) : List Char :=
  if isBare c then [c] else '\\' :: 'U' :: hexDigits c

/-- A text in double quotes. -/
def quoted (cs : List Char) : List Char := '"' :: (cs.flatMap written ++ ['"'])

theorem length_hexDigits (c : Char) : (hexDigits c).length = 8 := rfl

theorem digitsFixed_bounds (count n : Nat) :
    ∀ b ∈ Numeral.digitsFixed 16 count n, 0x30 ≤ b.toNat ∧ b.toNat ≤ 0x66 := by
  induction count generalizing n with
  | zero => simp [Numeral.digitsFixed]
  | succ count ih =>
    have last : ∀ d < 16, 0x30 ≤ (Numeral.digit d).toNat ∧ (Numeral.digit d).toNat ≤ 0x66 := by
      decide
    intro b mem
    rcases List.mem_append.mp mem with mem | mem
    · exact ih _ b mem
    · rw [List.mem_singleton.mp mem]
      exact last _ (Nat.mod_lt n (by decide))

theorem toNat_ofNat_digit {b : UInt8} (small : b.toNat ≤ 0x66) :
    (Char.ofNat b.toNat).toNat = b.toNat :=
  Utf8.toNat_ofNat (.inl (by omega))

theorem isLine_hexDigits (c : Char) : IsLine (hexDigits c) := by
  intro d mem
  obtain ⟨b, digit, rfl⟩ := List.mem_map.mp mem
  obtain ⟨low, high⟩ := digitsFixed_bounds 8 c.toNat b digit
  simp [isPrintable, toNat_ofNat_digit high]
  omega

theorem bytesOf_hexDigits (c : Char) :
    bytesOf (hexDigits c) = Numeral.digitsFixed 16 8 c.toNat := by
  rw [bytesOf_line (isLine_hexDigits c), hexDigits, List.map_map]
  conv_rhs => rw [← List.map_id (Numeral.digitsFixed 16 8 c.toNat)]
  refine List.map_congr_left fun b digit => ?_
  simp [toNat_ofNat_digit (digitsFixed_bounds 8 c.toNat b digit).2]

theorem codePoint?_hexDigits (c : Char) : codePoint? (hexDigits c) = some c := by
  have small : c.toNat < 16 ^ 8 := by
    have := c.valid
    simp only [UInt32.isValidChar, Nat.isValidChar] at this
    rw [Char.toNat]
    omega
  have valid : c.toNat.isValidChar := c.valid
  rw [codePoint?, bytesOf_hexDigits, Numeral.value?_digitsFixed (by decide) (by decide) (by decide),
    Nat.mod_eq_of_lt small]
  simp [valid]

theorem isLine_written (c : Char) : IsLine (written c) := by
  rw [written]
  split
  next bare =>
    intro d mem
    rw [List.mem_singleton.mp mem]
    simp [isBare] at bare
    exact bare.1.1.1
  next =>
    refine List.forall_mem_cons.mpr ⟨by decide, List.forall_mem_cons.mpr ⟨by decide, ?_⟩⟩
    exact isLine_hexDigits c

theorem isLine_quoted (cs : List Char) : IsLine (quoted cs) := by
  intro d mem
  simp only [quoted, List.mem_cons, List.mem_append, List.mem_flatMap, List.not_mem_nil,
    or_false] at mem
  rcases mem with rfl | ⟨c, -, inside⟩ | rfl
  · decide
  · exact isLine_written c d inside
  · decide

open Scan Cursor

variable {p : Place} {rest : List Char} {c : Cursor}

theorem gives_escape {ch : Char} (ready : c.Ready 2 p ('\\' :: 'U' :: (hexDigits ch ++ rest))) :
    Gives escape c ch (At (p.forward 10) rest) := by
  have letter : c.ahead[1]? = some 'U' := by
    rw [ready.sees.getElem? (by decide)]
    rfl
  refine gives_get_bind ?_
  rw [letter]
  refine (gives_some 'U').bind fun d same => ?_
  subst same
  have marked : Ready (2 + 0) p (['\\', 'U'] ++ (hexDigits ch ++ rest)) d := ready
  refine (gives_skip ['\\', 'U'] marked).bind fun d behind => ?_
  simp only [simpleEscape?, escapeDigits?]
  refine (gives_some 8).bind fun e same => ?_
  subst same
  refine (gives_need 8 behind.toAt).bind fun e ready => gives_get_bind ?_
  have digits : e.ahead.take 8 = hexDigits ch := by
    rw [ready.sees, List.take_append_of_le_length (Nat.le_of_eq (length_hexDigits ch).symm),
      List.take_of_length_le (Nat.le_of_eq (length_hexDigits ch))]
  rw [digits, length_hexDigits]
  simp only [lt_irrefl, ↓reduceIte, codePoint?_hexDigits]
  refine (gives_some ch).bind fun f same => ?_
  subst same
  refine (gives_skip (n := 0) (hexDigits ch) ready).bind fun f behind => ?_
  exact gives_pure (by simpa [length_hexDigits] using behind.toAt)

/-- The next character stands ahead of a cursor that sees it. -/
theorem ahead_eq {n : Nat} {ch : Char} (ready : c.Ready (n + 1) p (ch :: rest)) :
    ∃ later, c.ahead = ch :: later := by
  have next := ready.sees.next
  rw [Cursor.next, List.head?_cons] at next
  exact ⟨_, List.eq_cons_of_mem_head? next⟩

theorem not_isSpace_of_isBare {ch : Char} (bare : isBare ch) : ¬ isSpace ch := by
  simp only [isBare, Bool.and_eq_true, decide_eq_true_eq] at bare
  obtain ⟨⟨⟨printable, space⟩, -⟩, -⟩ := bare
  have tab : ch ≠ '\t' := by
    rintro rfl
    revert printable
    decide
  simp [isSpace, isBlank, space, tab, not_isBreak_of_isPrintable printable]

theorem isBare_ne {ch : Char} (bare : isBare ch) : ch ≠ '"' ∧ ch ≠ '\\' := by
  simp only [isBare, Bool.and_eq_true, decide_eq_true_eq] at bare
  exact ⟨bare.1.2, bare.2⟩

/-- One character between double quotes. -/
theorem gives_quotedRun_succ {ch : Char} {fuel : Nat} {more : List Char} {before : Array Char}
    {result : Array Char × Bool} {after : Cursor → Prop}
    (ready : c.Ready 2 p (written ch ++ more))
    (next : ∀ d, d.Ready 2 (p.forward (written ch).length) more →
      Gives (quotedRun false fuel (before.push ch)) d result after) :
    Gives (quotedRun false (fuel + 1) before) c result after := by
  rw [written] at ready next
  split at ready
  next bare =>
    obtain ⟨later, ahead⟩ := ahead_eq ready
    obtain ⟨quote, backslash⟩ := isBare_ne bare
    refine gives_get_bind ?_
    rw [ahead]
    simp only [not_isSpace_of_isBare bare, quote, backslash]
    refine (gives_skip_one ready).bind fun d moved => ?_
    refine (gives_need 2 moved.toAt).bind fun e ready => ?_
    exact next e (by simpa [bare] using ready)
  next bare =>
    obtain ⟨later, ahead⟩ := ahead_eq ready
    have letter : later.head? = some 'U' := by
      have second := ready.sees.getElem? (i := 1) (by decide)
      rw [ahead] at second
      simpa [List.head?_eq_getElem?] using second
    refine gives_get_bind ?_
    rw [ahead]
    simp only [letter]
    refine (gives_escape ready).bind fun d moved => ?_
    refine (gives_need 2 moved).bind fun e ready => ?_
    exact next e (by simpa [bare, length_hexDigits] using ready)

/-- Characters between double quotes are read as they were written, up to the closing quote. -/
theorem gives_quotedRun {cs : List Char} {fuel : Nat}
    (ready : c.Ready 2 p (cs.flatMap written ++ '"' :: rest)) (enough : cs.length < fuel)
    (before : Array Char) :
    Gives (quotedRun false fuel before) c (before ++ cs.toArray, false)
      (At (p.forward (cs.flatMap written).length) ('"' :: rest)) := by
  -- Each turn leaves two characters seen, which tells an escape from a bare character.
  induction cs generalizing p c fuel before with
  | nil =>
    obtain ⟨fuel, rfl⟩ := Nat.exists_eq_succ_of_ne_zero (Nat.ne_of_gt enough)
    obtain ⟨later, ahead⟩ := ahead_eq ready
    refine gives_get_bind ?_
    rw [ahead]
    exact gives_pure (by simpa using ready.toAt)
  | cons ch cs ih =>
    obtain ⟨fuel, rfl⟩ : ∃ m, fuel = m + 1 := ⟨fuel - 1, by omega⟩
    rw [List.flatMap_cons, List.append_assoc] at ready
    refine gives_quotedRun_succ ready fun d ready => ?_
    have more := ih ready (by simpa using enough) (before.push ch)
    simpa using more

theorem length_le_flatMap_written (cs : List Char) : cs.length ≤ (cs.flatMap written).length := by
  induction cs with
  | nil => exact Nat.le_refl 0
  | cons ch cs ih =>
    have some : 0 < (written ch).length := by rw [written]; split <;> simp
    rw [List.flatMap_cons, List.length_append, List.length_cons]
    omega

/-- A text in double quotes is read as the text. -/
theorem gives_quotedScalar {cs : List Char} (ready : c.Ready 1 p (quoted cs ++ rest)) :
    Gives (quotedScalar false) c (bytesOf cs) (At (p.forward (quoted cs).length) rest) := by
  have shape : quoted cs ++ rest = '"' :: (cs.flatMap written ++ '"' :: rest) := by simp [quoted]
  have length : (quoted cs).length = 1 + (cs.flatMap written).length + 1 := by
    simp [quoted, Nat.add_comm]
  rw [shape] at ready
  refine (gives_skip_one ready).bind fun d inside => gives_get_bind ?_
  refine (gives_need 4 inside.toAt).bind fun e ready => gives_get_bind ?_
  have column : e.column ≠ 0 := by rw [ready.column_eq]; exact Nat.succ_ne_zero _
  have next : e.next.isNone = false := by
    rw [ready.sees.next]
    cases cs.flatMap written <;> rfl
  simp only [atDocumentMark, atMark, column, next]
  have enough : cs.length < e.size + 1 := by
    have fits := ready.size_gt
    have longer := length_le_flatMap_written cs
    rw [List.length_append] at fits
    omega
  refine (gives_quotedRun (ready.of_le (by decide)) enough #[]).bind fun f behind => ?_
  refine (gives_need 1 behind).bind fun g ready => gives_get_bind ?_
  have closes : g.sees '"' = true := by simp [Cursor.sees, ready.sees.next]
  rw [if_neg Bool.false_ne_true, if_pos closes]
  refine (gives_skip_one ready).bind fun k behind => ?_
  have there : k.At (p.forward (quoted cs).length) rest := by
    rw [length]
    simpa using behind.toAt
  simpa using gives_pure there

end Yaml

end LuaCompact
