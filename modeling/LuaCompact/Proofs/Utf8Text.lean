import LuaCompact.Blank
import Mathlib.Data.List.Infix

namespace LuaCompact.Utf8

theorem encode_eq (c : Char) :
    encode c =
      if c.toNat ≤ 0x7f then [UInt8.ofNat c.toNat]
      else if c.toNat ≤ 0x7ff then
        [UInt8.ofNat (c.toNat / 64 % 0x20 + 0xc0), UInt8.ofNat (c.toNat % 0x40 + 0x80)]
      else if c.toNat ≤ 0xffff then
        [UInt8.ofNat (c.toNat / 4096 % 0x10 + 0xe0), UInt8.ofNat (c.toNat / 64 % 0x40 + 0x80),
          UInt8.ofNat (c.toNat % 0x40 + 0x80)]
      else
        [UInt8.ofNat (c.toNat / 262144 % 0x08 + 0xf0), UInt8.ofNat (c.toNat / 4096 % 0x40 + 0x80),
          UInt8.ofNat (c.toNat / 64 % 0x40 + 0x80), UInt8.ofNat (c.toNat % 0x40 + 0x80)] := rfl

theorem encode_ne_nil (c : Char) : encode c ≠ [] := by
  rw [encode_eq]
  split
  · simp
  · split
    · simp
    · split <;> simp

theorem toNat_ofNat {n : Nat} (valid : n.isValidChar) : (Char.ofNat n).toNat = n := by
  rw [Char.ofNat, dif_pos valid]
  rfl

theorem ofNat_eq {n : Nat} {b : UInt8} (h : n = b.toNat) : UInt8.ofNat n = b := by
  rw [h, UInt8.ofNat_toNat]

theorem toNat_of_isTail {b : UInt8} (h : isTail b) : 0x80 ≤ b.toNat ∧ b.toNat ≤ 0xBF := by
  simpa [isTail, UInt8.le_iff_toNat_le] using h

theorem toNat_of_isSecondOfThree {a b : UInt8} (h : isSecondOfThree a b) :
    0x80 ≤ b.toNat ∧ b.toNat ≤ 0xBF ∧ (a.toNat = 0xE0 → 0xA0 ≤ b.toNat) ∧
      (a.toNat = 0xED → b.toNat ≤ 0x9F) := by
  simp only [isSecondOfThree, isTail, ← UInt8.toNat_inj, UInt8.le_iff_toNat_le] at h
  split at h
  · simp_all
    omega
  · split at h
    · simp_all
      omega
    · simp_all

theorem toNat_of_isSecondOfFour {a b : UInt8} (h : isSecondOfFour a b) :
    0x80 ≤ b.toNat ∧ b.toNat ≤ 0xBF ∧ (a.toNat = 0xF0 → 0x90 ≤ b.toNat) ∧
      (a.toNat = 0xF4 → b.toNat ≤ 0x8F) := by
  simp only [isSecondOfFour, isTail, ← UInt8.toNat_inj, UInt8.le_iff_toNat_le] at h
  split at h
  · simp_all
    omega
  · split at h
    · simp_all
      omega
    · simp_all

theorem tailBits_eq {b : UInt8} (h : 0x80 ≤ b.toNat ∧ b.toNat ≤ 0xBF) :
    tailBits b = b.toNat - 0x80 := by
  unfold tailBits
  omega

theorem encode_two {a b : UInt8} (low : 0xC2 ≤ a.toNat) (high : a.toNat < 0xE0) (hb : isTail b) :
    encode (Char.ofNat (a.toNat % 32 * 64 + tailBits b)) = [a, b] := by
  have boundB := toNat_of_isTail hb
  rw [tailBits_eq boundB, encode_eq, toNat_ofNat (.inl (by omega)), if_neg (by omega), if_pos (by omega),
    ofNat_eq (b := a) (by omega), ofNat_eq (b := b) (by omega)]

theorem encode_three {a b c : UInt8} (low : 0xE0 ≤ a.toNat) (high : a.toNat < 0xF0)
    (hb : isSecondOfThree a b) (hc : isTail c) :
    encode (Char.ofNat (a.toNat % 16 * 4096 + tailBits b * 64 + tailBits c)) = [a, b, c] := by
  have boundB := toNat_of_isSecondOfThree hb
  have boundC := toNat_of_isTail hc
  have valid : (a.toNat % 16 * 4096 + (b.toNat - 0x80) * 64 + (c.toNat - 0x80)).isValidChar := by
    unfold Nat.isValidChar
    omega
  rw [tailBits_eq ⟨boundB.1, boundB.2.1⟩, tailBits_eq boundC, encode_eq,
    toNat_ofNat valid,
    if_neg (by omega), if_neg (by omega), if_pos (by omega), ofNat_eq (b := a) (by omega),
    ofNat_eq (b := b) (by omega), ofNat_eq (b := c) (by omega)]

theorem encode_four {a b c d : UInt8} (low : 0xF0 ≤ a.toNat) (high : a.toNat < 0xF5)
    (hb : isSecondOfFour a b) (hc : isTail c) (hd : isTail d) :
    encode (Char.ofNat
      (a.toNat % 8 * 262144 + tailBits b * 4096 + tailBits c * 64 + tailBits d)) =
        [a, b, c, d] := by
  have boundB := toNat_of_isSecondOfFour hb
  have boundC := toNat_of_isTail hc
  have boundD := toNat_of_isTail hd
  have valid : (a.toNat % 8 * 262144 + (b.toNat - 0x80) * 4096 + (c.toNat - 0x80) * 64 +
      (d.toNat - 0x80)).isValidChar := by
    unfold Nat.isValidChar
    omega
  rw [tailBits_eq ⟨boundB.1, boundB.2.1⟩, tailBits_eq boundC, tailBits_eq boundD, encode_eq,
    toNat_ofNat valid,
    if_neg (by omega), if_neg (by omega), if_neg (by omega), ofNat_eq (b := a) (by omega),
    ofNat_eq (b := b) (by omega), ofNat_eq (b := c) (by omega), ofNat_eq (b := d) (by omega)]

/-- What is read as a character is its encoding. -/
theorem encode_of_decode? {s r : Bytes} {c : Char} (h : decode? s = some (c, r)) :
    s = encode c ++ r := by
  cases s with
  | nil => simp [decode?] at h
  | cons a s =>
    simp only [decode?, UInt8.lt_iff_toNat_lt] at h
    split at h
    next one =>
      cases Option.some.inj h
      have one : a.toNat < 0x80 := one
      rw [encode_eq, toNat_ofNat (.inl (by omega)), if_pos (by omega), ofNat_eq rfl]
      rfl
    · split at h
      · simp at h
      next low =>
        have low : 0xC2 ≤ a.toNat := Nat.le_of_not_lt low
        split at h
        next high =>
          split at h
          · split at h
            next hb =>
              cases Option.some.inj h
              rw [encode_two low high hb]
              rfl
            · simp at h
          · simp at h
        next low =>
          have low : 0xE0 ≤ a.toNat := Nat.le_of_not_lt low
          split at h
          next high =>
            split at h
            · split at h
              next hbc =>
                simp only [Bool.and_eq_true] at hbc
                cases Option.some.inj h
                rw [encode_three low high hbc.1 hbc.2]
                rfl
              · simp at h
            · simp at h
          next low =>
            have low : 0xF0 ≤ a.toNat := Nat.le_of_not_lt low
            split at h
            next high =>
              split at h
              · split at h
                next hbcd =>
                  simp only [Bool.and_eq_true] at hbcd
                  cases Option.some.inj h
                  rw [encode_four low high hbcd.1.1 hbcd.1.2 hbcd.2]
                  rfl
                · simp at h
              · simp at h
            · simp at h

/-- A text is its pieces, in order. -/
theorem join_pieces (s : Bytes) : join (pieces s) = s := by
  fun_induction pieces s with
  | case1 => rfl
  | case2 b t c r decoded ih =>
    rw [encode_of_decode? decoded]
    simpa [join, Piece.bytes] using ih
  | case3 b t _ ih => simpa [join, Piece.bytes] using ih

end LuaCompact.Utf8
