import LuaCompact.Proofs.BlankLines
import LuaCompact.Proofs.Utf8Text

namespace LuaCompact

/-- The only white space in a text is tab, line feed, form feed, carriage return and space. -/
def PlainSpace (t : Bytes) : Prop :=
  ∀ c : Char, isWhiteSpace c → Utf8.encode c <:+: t → c ∈ ['\t', '\n', '\x0c', '\r', ' ']

theorem PlainSpace.of_part {s t : Bytes} (plain : PlainSpace t) (h : s <:+: t) : PlainSpace s :=
  fun c white inside => plain c white (inside.trans h)

theorem isGap_of_mem_encode {c : Char} (h : c ∈ ['\t', '\n', '\x0c', '\r', ' ']) {b : UInt8}
    (hb : b ∈ Utf8.encode c) : isGap b := by
  simp only [List.mem_cons, List.not_mem_nil, or_false] at h
  rcases h with rfl | rfl | rfl | rfl | rfl <;>
    · rw [List.mem_singleton.mp hb]
      decide

/-- Where white space is plain, a blank text is a gap. -/
theorem isGap_of_isBlank {t : Bytes} (plain : PlainSpace t) (blank : isBlank t) :
    ∀ b ∈ t, isGap b := by
  intro b hb
  rw [← Utf8.join_pieces t] at hb
  obtain ⟨piece, hpiece, hbytes⟩ := List.mem_flatMap.mp hb
  have white := List.all_eq_true.mp blank piece hpiece
  cases piece with
  | stray => simp [Utf8.Piece.isWhiteSpace] at white
  | char c =>
    obtain ⟨before, after, hsplit⟩ := List.append_of_mem hpiece
    have inside : Utf8.encode c <:+: t := by
      refine ⟨Utf8.join before, Utf8.join after, ?_⟩
      rw [← Utf8.join_pieces t, hsplit]
      simp [Utf8.join, Utf8.Piece.bytes]
    exact isGap_of_mem_encode (plain c white inside) hbytes

theorem isGap_of_isEdge {t : Bytes} (plain : PlainSpace t) {b : UInt8} (mem : b ∈ t)
    (h : isEdge b) : isGap b := by
  rcases Bool.or_eq_true_iff.mp h with h | h
  · exact h
  · obtain rfl := of_decide_eq_true h
    obtain ⟨before, after, rfl⟩ := List.append_of_mem mem
    have inside : Utf8.encode '\x0b' <:+: before ++ Byte.vt :: after := by
      refine ⟨before, after, ?_⟩
      rw [List.append_assoc]
      rfl
    exact absurd (plain '\x0b' (by decide) inside) (by decide)

theorem encode_eq_of_ascii {c : Char} (h : ∀ b ∈ Utf8.encode c, b.toNat < 0x80) :
    c.toNat < 0x80 ∧ Utf8.encode c = [UInt8.ofNat c.toNat] := by
  rw [Utf8.encode_eq] at h ⊢
  split at h
  next one => exact ⟨by omega, if_pos one⟩
  next =>
    exfalso
    split at h
    · have := h _ List.mem_cons_self
      simp at this
      omega
    · split at h
      · have := h _ List.mem_cons_self
        simp at this
        omega
      · have := h _ List.mem_cons_self
        simp at this
        omega

/-- A text of ASCII without vertical tabs has plain white space only. -/
theorem plainSpace_of_ascii {t : Bytes} (ascii : ∀ b ∈ t, b.toNat < 0x80) (novt : Byte.vt ∉ t) :
    PlainSpace t := by
  intro c white inside
  obtain ⟨low, single⟩ := encode_eq_of_ascii fun b hb => ascii b (inside.subset hb)
  have absent : c.toNat ≠ 11 := by
    intro h
    rw [single, h] at inside
    exact novt (inside.subset List.mem_cons_self)
  have known : c.toNat ∈ [9, 10, 12, 13, 32] := by
    simp only [isWhiteSpace, Bool.or_eq_true, Bool.and_eq_true, decide_eq_true_eq] at white
    simp only [List.mem_cons, List.not_mem_nil, or_false]
    omega
  have mem {n : Nat} (h : c.toNat = n) : c = Char.ofNat n := by rw [← h, Char.ofNat_toNat]
  simp only [List.mem_cons, List.not_mem_nil, or_false] at known ⊢
  rcases known with h | h | h | h | h
  · exact .inl (mem h)
  · exact .inr (.inl (mem h))
  · exact .inr (.inr (.inl (mem h)))
  · exact .inr (.inr (.inr (.inl (mem h))))
  · exact .inr (.inr (.inr (.inr (mem h))))

end LuaCompact
