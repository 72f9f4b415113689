import LuaCompact.Proofs.BlankLines
import LuaCompact.Proofs.Utf8Text
import Mathlib

namespace LuaCompact.Utf8

theorem toNat_ofNat_of_lt {n : Nat} (h : n < 256) : (UInt8.ofNat n).toNat = n := by
  simpa using h

theorem isTail_of_toNat {b : UInt8} (low : 0x80 ≤ b.toNat) (high : b.toNat ≤ 0xBF) : isTail b := by
  simpa [isTail, UInt8.le_iff_toNat_le] using ⟨low, high⟩

theorem isSecondOfThree_of_toNat {a b : UInt8} (low : 0x80 ≤ b.toNat) (high : b.toNat ≤ 0xBF)
    (least : a.toNat = 0xE0 → 0xA0 ≤ b.toNat) (most : a.toNat = 0xED → b.toNat ≤ 0x9F) :
    isSecondOfThree a b := by
  unfold isSecondOfThree
  split
  next first => simpa [UInt8.le_iff_toNat_le] using ⟨least (by rw [first]; rfl), high⟩
  next =>
    split
    next first => simpa [UInt8.le_iff_toNat_le] using ⟨low, most (by rw [first]; rfl)⟩
    next => exact isTail_of_toNat low high

theorem isSecondOfFour_of_toNat {a b : UInt8} (low : 0x80 ≤ b.toNat) (high : b.toNat ≤ 0xBF)
    (least : a.toNat = 0xF0 → 0x90 ≤ b.toNat) (most : a.toNat = 0xF4 → b.toNat ≤ 0x8F) :
    isSecondOfFour a b := by
  unfold isSecondOfFour
  split
  next first => simpa [UInt8.le_iff_toNat_le] using ⟨least (by rw [first]; rfl), high⟩
  next =>
    split
    next first => simpa [UInt8.le_iff_toNat_le] using ⟨low, most (by rw [first]; rfl)⟩
    next => exact isTail_of_toNat low high

theorem decode?_one {a : UInt8} (low : a.toNat < 0x80) (s : Bytes) :
    decode? (a :: s) = some (Char.ofNat a.toNat, s) := by
  simp only [decode?, UInt8.lt_iff_toNat_lt]
  exact if_pos low

theorem decode?_two {a b : UInt8} (low : 0xC2 ≤ a.toNat) (high : a.toNat < 0xE0) (hb : isTail b)
    (s : Bytes) :
    decode? (a :: b :: s) = some (Char.ofNat (a.toNat % 32 * 64 + tailBits b), s) := by
  have one : ¬ a.toNat < (0x80 : UInt8).toNat := Nat.not_lt.mpr (Nat.le_trans (by decide) low)
  have stray : ¬ a.toNat < (0xC2 : UInt8).toNat := Nat.not_lt.mpr low
  have two : a.toNat < (0xE0 : UInt8).toNat := high
  simp only [decode?, UInt8.lt_iff_toNat_lt, if_neg one, if_neg stray, if_pos two, if_pos hb]

theorem decode?_three {a b d : UInt8} (low : 0xE0 ≤ a.toNat) (high : a.toNat < 0xF0)
    (hb : isSecondOfThree a b) (hd : isTail d) (s : Bytes) :
    decode? (a :: b :: d :: s) =
      some (Char.ofNat (a.toNat % 16 * 4096 + tailBits b * 64 + tailBits d), s) := by
  have one : ¬ a.toNat < (0x80 : UInt8).toNat := Nat.not_lt.mpr (Nat.le_trans (by decide) low)
  have stray : ¬ a.toNat < (0xC2 : UInt8).toNat := Nat.not_lt.mpr (Nat.le_trans (by decide) low)
  have two : ¬ a.toNat < (0xE0 : UInt8).toNat := Nat.not_lt.mpr low
  have three : a.toNat < (0xF0 : UInt8).toNat := high
  have rest : (isSecondOfThree a b && isTail d) = true := by rw [hb, hd]; rfl
  simp only [decode?, UInt8.lt_iff_toNat_lt, if_neg one, if_neg stray, if_neg two, if_pos three,
    if_pos rest]

theorem decode?_four {a b d e : UInt8} (low : 0xF0 ≤ a.toNat) (high : a.toNat < 0xF5)
    (hb : isSecondOfFour a b) (hd : isTail d) (he : isTail e) (s : Bytes) :
    decode? (a :: b :: d :: e :: s) = some (Char.ofNat
      (a.toNat % 8 * 262144 + tailBits b * 4096 + tailBits d * 64 + tailBits e), s) := by
  have one : ¬ a.toNat < (0x80 : UInt8).toNat := Nat.not_lt.mpr (Nat.le_trans (by decide) low)
  have stray : ¬ a.toNat < (0xC2 : UInt8).toNat := Nat.not_lt.mpr (Nat.le_trans (by decide) low)
  have two : ¬ a.toNat < (0xE0 : UInt8).toNat := Nat.not_lt.mpr (Nat.le_trans (by decide) low)
  have three : ¬ a.toNat < (0xF0 : UInt8).toNat := Nat.not_lt.mpr low
  have four : a.toNat < (0xF5 : UInt8).toNat := high
  have rest : (isSecondOfFour a b && isTail d && isTail e) = true := by rw [hb, hd, he]; rfl
  simp only [decode?, UInt8.lt_iff_toNat_lt, if_neg one, if_neg stray, if_neg two, if_neg three,
    if_pos four, if_pos rest]

/-- A continuing byte as it is written from the bits of a character. -/
theorem isTail_ofNat (n : Nat) : isTail (UInt8.ofNat (n % 0x40 + 0x80)) := by
  have same : (UInt8.ofNat (n % 0x40 + 0x80)).toNat = n % 0x40 + 0x80 :=
    toNat_ofNat_of_lt (by omega)
  exact isTail_of_toNat (by omega) (by omega)

theorem tailBits_ofNat (n : Nat) : tailBits (UInt8.ofNat (n % 0x40 + 0x80)) = n % 64 := by
  rw [tailBits, toNat_ofNat_of_lt (by omega)]
  omega

/-- A character is read back from the bytes that it is written with. -/
theorem decode?_encode (c : Char) (s : Bytes) : decode? (encode c ++ s) = some (c, s) := by
  have valid : c.toNat < 0xD800 ∨ 0xDFFF < c.toNat ∧ c.toNat < 0x110000 := c.valid
  have same {n : Nat} (h : n = c.toNat) : Char.ofNat n = c := by rw [h, Char.ofNat_toNat]
  rw [encode_eq]
  split_ifs with one two three
  · have first : (UInt8.ofNat c.toNat).toNat = c.toNat := toNat_ofNat_of_lt (by omega)
    rw [List.singleton_append, decode?_one (by omega), first, same rfl]
  · have first : (UInt8.ofNat (c.toNat / 64 % 0x20 + 0xc0)).toNat = c.toNat / 64 + 0xc0 := by
      rw [toNat_ofNat_of_lt] <;> omega
    rw [List.cons_append, List.singleton_append,
      decode?_two (by omega) (by omega) (isTail_ofNat _), first, tailBits_ofNat, same (by omega)]
  · have first : (UInt8.ofNat (c.toNat / 4096 % 0x10 + 0xe0)).toNat = c.toNat / 4096 + 0xe0 := by
      rw [toNat_ofNat_of_lt] <;> omega
    have second : (UInt8.ofNat (c.toNat / 64 % 0x40 + 0x80)).toNat = c.toNat / 64 % 64 + 0x80 :=
      toNat_ofNat_of_lt (by omega)
    rw [List.cons_append, List.cons_append, List.singleton_append,
      decode?_three (by omega) (by omega)
        (isSecondOfThree_of_toNat (by omega) (by omega) (by omega) (by omega)) (isTail_ofNat _),
      first, tailBits_ofNat, tailBits_ofNat, same (by omega)]
  · have first : (UInt8.ofNat (c.toNat / 262144 % 0x08 + 0xf0)).toNat =
        c.toNat / 262144 + 0xf0 := by
      rw [toNat_ofNat_of_lt] <;> omega
    have second : (UInt8.ofNat (c.toNat / 4096 % 0x40 + 0x80)).toNat =
        c.toNat / 4096 % 64 + 0x80 := toNat_ofNat_of_lt (by omega)
    rw [List.cons_append, List.cons_append, List.cons_append, List.singleton_append,
      decode?_four (by omega) (by omega)
        (isSecondOfFour_of_toNat (by omega) (by omega) (by omega) (by omega)) (isTail_ofNat _)
        (isTail_ofNat _),
      first, tailBits_ofNat, tailBits_ofNat, tailBits_ofNat, same (by omega)]

/-- A character at the start of a text is read there whatever follows the text. -/
theorem decode?_append {s rest : Bytes} {c : Char} (read : decode? s = some (c, rest)) (t : Bytes) :
    decode? (s ++ t) = some (c, rest ++ t) := by
  rw [encode_of_decode? read, List.append_assoc, decode?_encode]

/-- Behind its first byte, a character is written with bytes that no character starts with. -/
theorem isTail_of_encode_eq_cons {c : Char} {a : UInt8} {s : Bytes} (h : encode c = a :: s) :
    ∀ b ∈ s, isTail b := by
  intro b mem
  rw [encode_eq] at h
  split_ifs at h
  all_goals
    obtain ⟨-, rfl⟩ := List.cons.inj h
    simp only [List.mem_cons, List.not_mem_nil, or_false] at mem
  · rw [mem]
    exact isTail_ofNat _
  · rcases mem with rfl | rfl <;> exact isTail_ofNat _
  · rcases mem with rfl | rfl | rfl <;> exact isTail_ofNat _

theorem pieces_encode_append (c : Char) (s : Bytes) :
    pieces (encode c ++ s) = .char c :: pieces s := by
  obtain ⟨b, t, written⟩ := List.exists_cons_of_ne_nil (encode_ne_nil c)
  have decoded : decode? (b :: (t ++ s)) = some (c, s) := by
    rw [← List.cons_append, ← written, decode?_encode]
  rw [written, List.cons_append, pieces.eq_def]
  simp only
  split
  next c' r read =>
    obtain ⟨rfl, rfl⟩ := Prod.mk.inj (Option.some.inj (read.symm.trans decoded))
    rfl
  next unread => simp [decoded] at unread

/-- A text is valid if characters are all that is written in it. -/
theorem isValid_iff {s : Bytes} : isValid s ↔ ∃ cs : List Char, s = cs.flatMap encode := by
  constructor
  · intro valid
    obtain ⟨cs, all⟩ : ∃ cs : List Char, pieces s = cs.map Piece.char := by
      rw [isValid] at valid
      revert valid
      induction pieces s with
      | nil => exact fun _ => ⟨[], rfl⟩
      | cons piece ps ih =>
        intro valid
        rw [List.all_cons, Bool.and_eq_true_iff] at valid
        obtain ⟨cs, rfl⟩ := ih valid.2
        cases piece with
        | char c => exact ⟨c :: cs, rfl⟩
        | stray b => simp at valid
    refine ⟨cs, ?_⟩
    rw [← join_pieces s, all, join, List.flatMap_map]
    rfl
  · rintro ⟨cs, rfl⟩
    induction cs with
    | nil => simp [isValid, pieces]
    | cons c cs ih => simpa [isValid, pieces_encode_append] using ih

@[simp] theorem isValid_nil : isValid [] := by simp [isValid, pieces]

theorem isValid_encode_append (c : Char) (s : Bytes) : isValid (encode c ++ s) = isValid s := by
  simp [isValid, pieces_encode_append]

/-- Behind a valid text another one is valid if the two together are. -/
theorem isValid_append_iff_right {s : Bytes} (valid : isValid s) (t : Bytes) :
    isValid (s ++ t) ↔ isValid t := by
  obtain ⟨cs, rfl⟩ := isValid_iff.mp valid
  clear valid
  induction cs with
  | nil => simp
  | cons c cs ih => rw [List.flatMap_cons, List.append_assoc, isValid_encode_append, ih]

/-- A byte that is a character by itself. -/
def IsAscii (b : UInt8) : Prop := b.toNat < 0x80

instance : DecidablePred IsAscii := fun b => inferInstanceAs (Decidable (b.toNat < 0x80))

theorem isAscii_head {b : UInt8} (ascii : IsAscii b) (s : Bytes) :
    ∀ c ∈ (b :: s).head?, IsAscii c := by
  simpa using ascii

theorem not_isTail_of_isAscii {b : UInt8} (ascii : IsAscii b) : ¬ isTail b := by
  intro tail
  have := toNat_of_isTail tail
  unfold IsAscii at ascii
  omega

theorem exists_encode_of_isAscii {b : UInt8} (ascii : IsAscii b) : ∃ c, encode c = [b] := by
  refine ⟨Char.ofNat b.toNat, ?_⟩
  have decoded := encode_of_decode? (decode?_one ascii [])
  simpa using decoded.symm

theorem isValid_of_isAscii {s : Bytes} (ascii : ∀ b ∈ s, IsAscii b) : isValid s := by
  induction s with
  | nil => exact isValid_nil
  | cons b s ih =>
    obtain ⟨c, written⟩ := exists_encode_of_isAscii (ascii b (by simp))
    rw [← List.singleton_append, ← written, isValid_encode_append]
    exact ih fun d hd => ascii d (by simp [hd])

/-- What a text starts with does not depend on what stands from a character of one byte on. -/
theorem decode?_append_cons {s : Bytes} (nonempty : s ≠ []) {b : UInt8} (ascii : IsAscii b)
    (t : Bytes) :
    decode? (s ++ b :: t) = (decode? s).map fun (c, rest) => (c, rest ++ b :: t) := by
  cases decoded : decode? s with
  | some found =>
    obtain ⟨c, rest⟩ := found
    rw [encode_of_decode? decoded, List.append_assoc, decode?_encode]
    rfl
  | none =>
    cases read : decode? (s ++ b :: t) with
    | none => rfl
    | some found =>
      obtain ⟨c, rest⟩ := found
      rcases List.append_eq_append_iff.mp (encode_of_decode? read) with
        ⟨more, hc, ht⟩ | ⟨more, rfl, -⟩
      · obtain ⟨a, s, rfl⟩ := List.exists_cons_of_ne_nil nonempty
        cases more with
        | nil =>
          rw [List.append_nil] at hc
          rw [← hc, ← List.append_nil (encode c), decode?_encode] at decoded
          contradiction
        | cons d more =>
          obtain ⟨rfl, -⟩ := List.cons.inj ht
          exact absurd (isTail_of_encode_eq_cons hc b (by simp)) (not_isTail_of_isAscii ascii)
      · rw [decode?_encode] at decoded
        contradiction

/-- A character of one byte divides the pieces of a text. -/
theorem pieces_append_cons {b : UInt8} (ascii : IsAscii b) (s t : Bytes) :
    pieces (s ++ b :: t) = pieces s ++ pieces (b :: t) := by
  fun_induction pieces s with
  | case1 => rfl
  | case2 a s c rest decoded ih =>
    have read := decode?_append_cons (List.cons_ne_nil a s) ascii t
    rw [decoded] at read
    rw [encode_of_decode? read, pieces_encode_append, ih, List.cons_append]
  | case3 a s undecoded ih =>
    have read := decode?_append_cons (List.cons_ne_nil a s) ascii t
    rw [undecoded] at read
    rw [List.cons_append, pieces.eq_def]
    simp only
    split
    next c rest found => cases read.symm.trans found
    next => rw [ih, List.cons_append]

/-- Where a character of one byte stands, the text before it is one of whole characters. -/
theorem isValid_of_append_cons {s t : Bytes} {b : UInt8} (ascii : IsAscii b)
    (valid : isValid (s ++ b :: t)) : isValid s := by
  rw [isValid, pieces_append_cons ascii, List.all_append, Bool.and_eq_true_iff] at valid
  exact valid.1

/-- A text falls into two that divide no character, as one of them has a character of one byte where
they meet, or is empty. -/
def Meets (s t : Bytes) : Prop :=
  (∀ b ∈ s.getLast?, IsAscii b) ∨ ∀ b ∈ t.head?, IsAscii b

theorem meets_concat {b : UInt8} (ascii : IsAscii b) (s t : Bytes) : Meets (s ++ [b]) t :=
  .inl (by simpa using ascii)

theorem Meets.append_left {s t : Bytes} (meet : Meets s t) (nonempty : s ≠ []) (more : Bytes) :
    Meets (more ++ s) t := by
  rwa [Meets, List.getLast?_append_of_ne_nil _ nonempty]

theorem Meets.append_right {s t : Bytes} (meet : Meets s t) (nonempty : t ≠ []) (more : Bytes) :
    Meets s (t ++ more) := by
  rwa [Meets, List.head?_append_of_ne_nil _ nonempty]

theorem pieces_cons {b : UInt8} (ascii : IsAscii b) (t : Bytes) :
    pieces (b :: t) = pieces [b] ++ pieces t := by
  obtain ⟨c, written⟩ := exists_encode_of_isAscii ascii
  have single := pieces_encode_append c []
  rw [List.append_nil, written] at single
  rw [← List.singleton_append, ← written, pieces_encode_append, written, single]
  simp [pieces]

theorem pieces_append {s t : Bytes} (meet : Meets s t) : pieces (s ++ t) = pieces s ++ pieces t := by
  rcases meet with last | head
  · rcases List.eq_nil_or_concat' s with rfl | ⟨s, b, rfl⟩
    · simp [pieces]
    · have ascii : IsAscii b := last b (by simp)
      rw [List.append_assoc, List.singleton_append, pieces_append_cons ascii,
        pieces_append_cons ascii, pieces_cons ascii t, List.append_assoc]
  · cases t with
    | nil => simp [pieces]
    | cons b t => exact pieces_append_cons (head b rfl) s t

theorem isValid_append {s t : Bytes} (hs : isValid s) (ht : isValid t) : isValid (s ++ t) :=
  (isValid_append_iff_right hs t).mpr ht

theorem isValid_append_iff {s t : Bytes} (meet : Meets s t) :
    isValid (s ++ t) ↔ isValid s ∧ isValid t := by
  rw [isValid, pieces_append meet, List.all_append, Bool.and_eq_true_iff]
  rfl

theorem isValid_cons_iff {b : UInt8} (ascii : IsAscii b) (s : Bytes) :
    isValid (b :: s) ↔ isValid s := by
  have single : isValid [b] := isValid_of_isAscii (by simpa using ascii)
  exact isValid_append_iff_right single s

theorem isValid_append_cons_iff {b : UInt8} (ascii : IsAscii b) (s t : Bytes) :
    isValid (s ++ b :: t) ↔ isValid s ∧ isValid t := by
  rw [isValid_append_iff (.inr (by simpa using ascii)), isValid_cons_iff ascii]

/-- The line feeds of a text divide no character. -/
theorem isValid_joinLines_iff (ls : List Bytes) :
    isValid (Bytes.joinLines ls) ↔ ∀ line ∈ ls, isValid line := by
  have ascii : IsAscii Byte.lf := by decide
  induction ls with
  | nil => simp [Bytes.joinLines]
  | cons line ls ih =>
    cases ls with
    | nil => simp [Bytes.joinLines]
    | cons next ls =>
      rw [Bytes.joinLines] at ih ⊢
      rw [List.intercalate_cons_cons, List.append_assoc, List.singleton_append,
        isValid_append_cons_iff ascii, List.forall_mem_cons]
      exact and_congr_right fun _ => ih

end LuaCompact.Utf8
