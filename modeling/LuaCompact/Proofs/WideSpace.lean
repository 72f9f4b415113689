import LuaCompact.Proofs.Settled

namespace LuaCompact

/-- Bytes that stay apart as they are: no white space is ever taken out between two of them. -/
def Gap.isInert (b : UInt8) : Bool := !isGap b && !isOperator b

theorem Gap.isInert_of_high {b : UInt8} (high : 0x80 ≤ b.toNat) : isInert b := by
  have gap : isGap b = false := by
    by_contra h
    simp only [isGap, Bool.not_eq_false, Bool.or_eq_true, decide_eq_true_eq] at h
    rcases h with (((rfl | rfl) | rfl) | rfl) | rfl <;> exact absurd high (by decide)
  have operator : isOperator b = false := by
    by_contra h
    have := toNat_lt_of_isOperator (by simpa using h)
    omega
  simp [isInert, gap, operator]

/-- White space beyond the plain is written with inert bytes. -/
theorem isInert_of_mem_encode {c : Char} (white : isWhiteSpace c)
    (wide : c ∉ ['\t', '\n', '\x0c', '\r', ' ']) : ∀ b ∈ Utf8.encode c, Gap.isInert b := by
  have other {n : Nat} (h : Char.ofNat n ∈ ['\t', '\n', '\x0c', '\r', ' ']) : c.toNat ≠ n := by
    rintro rfl
    rw [Char.ofNat_toNat] at h
    exact wide h
  have ascii : c.toNat ≤ 0x7f → c.toNat = 11 := by
    intro low
    have tab := other (n := 9) (by decide)
    have feed := other (n := 10) (by decide)
    have form := other (n := 12) (by decide)
    have ret := other (n := 13) (by decide)
    have space := other (n := 32) (by decide)
    simp only [isWhiteSpace, Bool.or_eq_true, Bool.and_eq_true, decide_eq_true_eq] at white
    omega
  have high {n : Nat} (h : 0x80 ≤ n % 256) : Gap.isInert (UInt8.ofNat n) := by
    apply Gap.isInert_of_high
    simpa using h
  intro b hb
  rw [Utf8.encode_eq] at hb
  split at hb
  next low =>
    rw [ascii low, List.mem_singleton] at hb
    rw [hb]
    decide
  next =>
    split at hb
    · simp only [List.mem_cons, List.not_mem_nil, or_false] at hb
      rcases hb with rfl | rfl <;> exact high (by omega)
    · split at hb
      · simp only [List.mem_cons, List.not_mem_nil, or_false] at hb
        rcases hb with rfl | rfl | rfl <;> exact high (by omega)
      · simp only [List.mem_cons, List.not_mem_nil, or_false] at hb
        rcases hb with rfl | rfl | rfl | rfl <;> exact high (by omega)

namespace Atom

theorem isInert_iff {b : UInt8} : Gap.isInert b ↔ ¬ (code b).isSpace ∧ ¬ Gap.isOperator b := by
  simp [Gap.isInert, isSpace]

theorem prefix_of_prefix_weave {d : UInt8} {u : Bytes} (inert : ∀ b ∈ d :: u, Gap.isInert b)
    {prev : Option UInt8} (loose : ¬ prev.any Gap.isOperator) {run : Bytes} {as : List Atom}
    (start : (d :: u).map code <+: weave prev run as) : run = [] ∧ (d :: u).map code <+: as := by
  induction as generalizing d u prev run with
  | nil =>
    have head := (isInert_iff.mp (inert d (by simp))).1
    obtain ⟨c, hc, same⟩ := List.mem_map.mp (start.subset (List.mem_cons_self))
    rw [← same] at head
    exact absurd (Gap.isGap_of_mem_separator _ _ _ c hc) head
  | cons c as ih =>
    obtain ⟨head, unary⟩ := isInert_iff.mp (inert d (by simp))
    by_cases space : c.isSpace
    · obtain ⟨e, rfl, _⟩ := exists_code_of_isSpace space
      rw [weave_cons_of_isSpace space] at start
      have empty := (ih inert loose start).1
      simp [bytes] at empty
    · rw [weave_cons_of_not_isSpace space] at start
      cases hsep : Gap.separator prev run c.byte? with
      | cons g sep =>
        rw [hsep] at start
        have gap := Gap.isGap_of_mem_separator prev run c.byte? g (by simp [hsep])
        rw [(List.cons_prefix_cons.mp start).1] at head
        exact absurd gap head
      | nil =>
        rw [hsep] at start
        obtain ⟨rfl, tail⟩ := List.cons_prefix_cons.mp start
        have empty : run = [] := by
          by_contra nonempty
          have := (Gap.separator_eq_nil nonempty hsep).2
          simp_all [byte?]
        refine ⟨empty, List.cons_prefix_cons.mpr ⟨rfl, ?_⟩⟩
        cases u with
        | nil => exact List.nil_prefix
        | cons e u =>
          have rest : ∀ b ∈ e :: u, Gap.isInert b := fun b hb => inert b (by simp [hb])
          exact (ih rest (by simpa [byte?] using unary) tail).2

/-- Inert bytes that stand together in the result do so in the source. -/
theorem infix_of_infix_weave {d : UInt8} {u : Bytes} (inert : ∀ b ∈ d :: u, Gap.isInert b)
    {prev : Option UInt8} {run : Bytes} {as : List Atom}
    (inside : (d :: u).map code <:+: weave prev run as) : (d :: u).map code <:+: as := by
  obtain ⟨head, unary⟩ := isInert_iff.mp (inert d (by simp))
  induction as generalizing prev run with
  | nil =>
    have mem : code d ∈ (Gap.separator prev run none).map code := inside.subset (by simp)
    obtain ⟨c, hc, same⟩ := List.mem_map.mp mem
    rw [← same] at head
    exact absurd (Gap.isGap_of_mem_separator _ _ _ c hc) head
  | cons c as ih =>
    by_cases space : c.isSpace
    · rw [weave_cons_of_isSpace space] at inside
      exact (ih inside).trans (List.suffix_cons c as).isInfix
    · have filled := Gap.isGap_of_mem_separator prev run c.byte?
      rw [weave_cons_of_not_isSpace space] at inside
      have behind := infix_of_spaces_append filled head inside
      rcases List.infix_cons_iff.mp behind with start | inside
      · obtain ⟨rfl, tail⟩ := List.cons_prefix_cons.mp start
        refine (List.cons_prefix_cons.mpr ⟨rfl, ?_⟩).isInfix
        cases u with
        | nil => exact List.nil_prefix
        | cons e u =>
          have rest : ∀ b ∈ e :: u, Gap.isInert b := fun b hb => inert b (by simp [hb])
          exact (prefix_of_prefix_weave rest (by simpa [byte?] using unary) tail).2
      · exact (ih inside).trans (List.suffix_cons c as).isInfix

theorem infix_of_infix_dropBlank {u as : List Atom} (nonempty : u ≠ []) (free : lineFeed ∉ u)
    (inside : u <:+: dropBlank as) : u <:+: as := by
  have line (l : List Atom) (ls : List (List Atom))
      (inside : u <:+: l ++ ls.flatMap (lineFeed :: ·)) : ∃ k ∈ l :: ls, u <:+: k := by
    induction ls generalizing l with
    | nil => exact ⟨l, by simp, by simpa using inside⟩
    | cons next ls ih =>
      rw [List.flatMap_cons, List.cons_append] at inside
      rcases infix_or_infix_of_notMem free inside with here | later
      · exact ⟨l, by simp, here⟩
      · obtain ⟨k, hk, within⟩ := ih next later
        exact ⟨k, List.mem_cons_of_mem l hk, within⟩
  have kept (k : List Atom) (mem : k ∈ keptLines as) : k <:+: as :=
    infix_of_mem_splitOn (List.mem_of_mem_filter mem)
  rw [dropBlank] at inside
  cases hkept : keptLines as with
  | nil => simp [hkept, nonempty] at inside
  | cons l ls =>
    rw [hkept, intercalate_cons_eq] at inside
    obtain ⟨k, hk, within⟩ := line l ls inside
    exact within.trans (kept k (hkept ▸ hk))

/-- Where the white space of the source is plain, that of the result is too. -/
theorem plainSpace_of_infix_minified {s t : Bytes}
    (plain : ∀ u, Segment.code u ∈ Segment.ofTokens (Token.lex s) → PlainSpace u)
    (inside : t.map code <:+: minified s) : PlainSpace t := by
  intro c white within
  by_contra wide
  have inert := isInert_of_mem_encode white wide
  obtain ⟨d, u, hc⟩ := List.exists_cons_of_ne_nil (Utf8.encode_ne_nil c)
  rw [hc] at inert within
  have source : (d :: u).map code <:+: ofTokens (Token.lex s) := by
    refine infix_of_infix_dropBlank (by simp) ?_ (infix_of_infix_weave inert
      ((within.map code).trans (inside.trans (isInfix_trim _))))
    intro feed
    obtain ⟨b, hb, same⟩ := List.mem_map.mp feed
    rw [code.inj same] at hb
    exact absurd (inert _ hb) (by decide)
  rw [← Segment.ofSegments_ofTokens] at source
  obtain ⟨v, hv, whole⟩ := Segment.exists_code_of_infix (Segment.separated_ofTokens _) (by simp) source
  exact wide (plain v hv c white (hc ▸ whole))

theorem unblank_minified {s : Bytes}
    (plain : ∀ t, Segment.code t ∈ Segment.ofTokens (Token.lex s) → PlainSpace t) :
    Unblank (minified s) := by
  by_cases empty : minified s = []
  · exact .inl empty
  · refine .inr fun line mem blank => empty (eq_nil_of_line_minified mem ?_)
    obtain ⟨t, rfl⟩ := exists_map_code_of_isBlankLine blank
    rw [isBlankLine_map_code] at blank
    have gaps := isGap_of_isBlank
      (plainSpace_of_infix_minified plain (infix_of_mem_splitOn mem)) blank
    intro a ha
    obtain ⟨b, hb, rfl⟩ := List.mem_map.mp ha
    exact gaps b hb

end Atom

end LuaCompact
