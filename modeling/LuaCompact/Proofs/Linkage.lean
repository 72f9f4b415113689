import LuaCompact.Proofs.Adjacency

namespace LuaCompact

namespace Gap

theorem separator_eq_nil {a b : Option UInt8} {run : Bytes} (nonempty : run ≠ [])
    (h : separator a run b = []) :
    ¬ (a = some Byte.dash ∧ b = some Byte.dash) ∧ (a.any isOperator || b.any isOperator) := by
  unfold separator at h
  split at h
  · simp at h
  · split at h
    · simp at h
    · split at h
      · simp at h
      next dashes =>
        split at h
        next operator => exact ⟨dashes, operator⟩
        next => simp at h

theorem separator_none_lf (run : Bytes) (b : Option UInt8) :
    separator none (Byte.lf :: run) b = [Byte.lf] := by
  simp [separator, Token.isBreak]

end Gap

namespace Atom

/-- Dropping lines leaves no two atoms side by side that were not so before. -/
theorem isChain_filter_lines {R : Atom → Atom → Prop} {ls : List (List Atom)}
    (keep : List Atom → Bool) (pre : List Atom)
    (chain : List.IsChain R (pre ++ ls.flatMap (lineFeed :: ·))) :
    List.IsChain R (pre ++ (ls.filter keep).flatMap (lineFeed :: ·)) := by
  induction ls generalizing pre with
  | nil => exact chain
  | cons line ls ih =>
    rw [List.flatMap_cons] at chain
    by_cases stays : keep line
    · rw [List.filter_cons_of_pos stays, List.flatMap_cons, ← List.append_assoc]
      rw [← List.append_assoc] at chain
      exact ih _ chain
    · rw [List.filter_cons_of_neg stays]
      apply ih
      cases ls with
      | nil => simpa using chain.left_of_append
      | cons next ls =>
        obtain ⟨before, tail, joint⟩ := List.isChain_append.mp chain
        refine before.append tail.right_of_append fun x hx y hy => joint x hx y ?_
        simpa using hy

theorem isChain_dropBlank {R : Atom → Atom → Prop} {as : List Atom} (chain : List.IsChain R as) :
    List.IsChain R (dropBlank as) := by
  obtain ⟨line, ls, hlines, whole⟩ := exists_lines_eq_cons as
  rw [← whole] at chain
  rw [dropBlank, keptLines, hlines]
  by_cases blank : isBlankLine line
  · rw [List.filter_cons_of_neg (by simp [blank])]
    have tail := isChain_filter_lines (fun line => !isBlankLine line) [] chain.right_of_append
    cases hkept : ls.filter fun line => !isBlankLine line with
    | nil => exact .nil
    | cons kept rest =>
      rw [hkept] at tail
      rw [intercalate_cons_eq]
      exact tail.tail
  · rw [List.filter_cons_of_pos (by simp [blank]), intercalate_cons_eq]
    exact isChain_filter_lines _ line chain

/-- No bracket opens before an equals sign, at once or behind white space. -/
def Apart (as : List Atom) : Prop :=
  ∀ run : Bytes, (∀ b ∈ run, isGap b) →
    ¬ (Byte.openBracket :: run ++ [Byte.equals]).map code <:+: as

theorem Apart.of_part {as bs : List Atom} (apart : Apart bs) (h : as <:+: bs) : Apart as :=
  fun run gaps inside => apart run gaps (inside.trans h)

/-- A literal that fits before white space fits before what takes its place. -/
theorem fits_literal_of_run {t : Bytes} {e : UInt8} (fits : Fits (literal t) (code e)) (run : Bytes) :
    (∀ b, Fits (literal t) b) ∨
      Fits (literal t) lineFeed ∧ ∀ b, Gap.separator none (e :: run) b = [Byte.lf] := by
  rcases (fits []).literal_ends with closed | ⟨⟨r, hr⟩, lineEnd⟩ | empty
  · exact .inl fun b other => closed _
  · obtain rfl : e = Byte.lf := (List.cons.inj hr).1
    exact .inr ⟨fits, Gap.separator_none_lf run⟩
  · simp [bytes] at empty

theorem fits_of_meets_literal {t : Bytes} {b : Atom} (meets : Meets (literal t) b) :
    Fits (literal t) b := by
  rcases meets with fits | ⟨h, _⟩
  · exact fits
  · simp at h

theorem fits_separator {a : Atom} {run : Bytes} {as : List Atom} (sits : a.Sits [])
    (chain : List.IsChain Meets (a :: (run.map code ++ as))) {b : Option UInt8} {c : UInt8}
    (mem : c ∈ Gap.separator a.byte? run b) : Fits a (code c) := by
  have space : (code c).isSpace := Gap.isGap_of_mem_separator _ _ _ c mem
  cases a with
  | code d => exact fits_code_of_isSpace sits space
  | literal t =>
    cases run with
    | nil => simp [byte?, Gap.separator] at mem
    | cons e run =>
      have fits := fits_of_meets_literal (chain.rel_head? rfl)
      rcases fits_literal_of_run fits run with closed | ⟨feed, sep⟩
      · exact closed (code c)
      · rw [byte?, sep, List.mem_singleton] at mem
        rwa [mem]

/-- Two atoms come together only where they can stand side by side. -/
theorem fits_of_separator_eq_nil {a b : Atom} {run : Bytes} {as : List Atom}
    (gaps : ∀ c ∈ run, isGap c) (sits : a.Sits []) (follows : b.Sits [])
    (chain : List.IsChain Meets (a :: (run.map code ++ b :: as)))
    (apart : Apart (a :: (run.map code ++ b :: as)))
    (h : Gap.separator a.byte? run b.byte? = []) : Fits a b := by
  have unleveled : ¬ (a = code Byte.openBracket ∧ b = code Byte.equals) := by
    rintro ⟨rfl, rfl⟩
    refine apart run gaps ⟨[], as, ?_⟩
    simp
  cases run with
  | nil =>
    rcases chain.rel_head? rfl with fits | level
    · exact fits
    · exact absurd level unleveled
  | cons e run =>
    have nonempty : e :: run ≠ [] := by simp
    obtain ⟨dashes, operator⟩ := Gap.separator_eq_nil nonempty h
    cases a with
    | literal t =>
      have fits := fits_of_meets_literal (chain.rel_head? rfl)
      rcases fits_literal_of_run fits run with closed | ⟨_, sep⟩
      · exact closed b
      · rw [byte?, sep] at h
        simp at h
    | code c =>
      obtain ⟨d, u, hd⟩ := List.exists_cons_of_ne_nil follows.bytes_ne_nil
      refine fits_code sits hd ?_ ?_
      · rintro ⟨rfl, rfl⟩
        rw [follows.eq_code hd (.inl rfl)] at dashes
        exact dashes ⟨rfl, rfl⟩
      · rintro ⟨rfl, rfl | rfl⟩
        · cases b with
          | code f =>
            obtain rfl : f = Byte.openBracket := (List.cons.inj hd).1
            exact absurd operator (by decide)
          | literal t =>
            rw [byte?, byte?] at operator
            exact absurd operator (by decide)
        · exact unleveled ⟨rfl, follows.eq_code hd (.inr rfl)⟩

theorem isGap_of_mem_concat {run : Bytes} {c : UInt8} (gaps : ∀ d ∈ run, isGap d)
    (h : isGap c) : ∀ d ∈ run ++ [c], isGap d := by
  intro d hd
  rcases List.mem_append.mp hd with hd | hd
  · exact gaps d hd
  · rwa [List.mem_singleton.mp hd]

theorem isChain_spaces_append {run : Bytes} (gaps : ∀ c ∈ run, isGap c) {as : List Atom}
    (chain : List.IsChain Fits as) : List.IsChain Fits (run.map code ++ as) := by
  induction run with
  | nil => exact chain
  | cons c run ih =>
    have space : (code c).isSpace := gaps c (by simp)
    exact (ih fun d hd => gaps d (by simp [hd])).cons fun b _ => fits_of_isSpace space b

/-- Behind an atom, weaving leaves each atom where it reads as itself. -/
theorem isChain_cons_weave {a : Atom} {run : Bytes} {as : List Atom}
    (gaps : ∀ c ∈ run, isGap c) (sits : ∀ b ∈ a :: as, b.Sits [])
    (chain : List.IsChain Meets (a :: (run.map code ++ as)))
    (apart : Apart (a :: (run.map code ++ as))) :
    List.IsChain Fits (a :: weave a.byte? run as) := by
  induction as generalizing a run with
  | nil =>
    have filled := Gap.isGap_of_mem_separator a.byte? run none
    have spaces := isChain_spaces_append filled List.isChain_nil
    rw [List.append_nil] at spaces
    refine spaces.cons fun b hb => ?_
    obtain ⟨c, hc, rfl⟩ := List.mem_map.mp (List.mem_of_mem_head? hb)
    exact fits_separator (sits a (by simp)) chain hc
  | cons b as ih =>
    by_cases space : b.isSpace
    · obtain ⟨c, rfl, gap⟩ := exists_code_of_isSpace space
      have shift : run.map code ++ code c :: as = (run ++ [c]).map code ++ as := by simp
      rw [weave_cons_of_isSpace space, bytes]
      rw [shift] at chain apart
      refine ih (isGap_of_mem_concat gaps gap) (fun d hd => sits d ?_) chain apart
      rcases List.mem_cons.mp hd with rfl | hd
      · simp
      · simp [hd]
    · have inside : b :: as <:+: a :: (run.map code ++ b :: as) := ⟨a :: run.map code, [], by simp⟩
      have none : ∀ c ∈ ([] : Bytes), isGap c := by simp
      have tail := ih none (fun d hd => sits d (List.mem_cons_of_mem a hd))
        ( List.IsChain.infix chain inside) (apart.of_part inside)
      have filled := Gap.isGap_of_mem_separator a.byte? run b.byte?
      rw [weave_cons_of_not_isSpace space]
      refine (isChain_spaces_append filled tail).cons fun d hd => ?_
      cases hsep : Gap.separator a.byte? run b.byte? with
      | nil =>
        rw [hsep] at hd
        obtain rfl := Option.some.inj hd
        exact fits_of_separator_eq_nil gaps (sits a (by simp)) (sits b (by simp)) chain apart hsep
      | cons c sep =>
        rw [hsep] at hd
        obtain rfl := Option.some.inj hd
        exact fits_separator (b := b.byte?) (sits a (by simp)) chain (by simp [hsep])

theorem isChain_weave {run : Bytes} {as : List Atom}
    (sits : ∀ b ∈ as, b.Sits []) (chain : List.IsChain Meets as) (apart : Apart as) :
    List.IsChain Fits (weave none run as) := by
  induction as generalizing run with
  | nil =>
    have spaces := isChain_spaces_append (Gap.isGap_of_mem_separator none run none) List.isChain_nil
    rwa [List.append_nil] at spaces
  | cons b as ih =>
    by_cases space : b.isSpace
    · rw [weave_cons_of_isSpace space]
      have inside : as <:+: b :: as := ⟨[b], [], by simp⟩
      exact ih (fun d hd => sits d (by simp [hd])) chain.tail (apart.of_part inside)
    · rw [weave_cons_of_not_isSpace space]
      refine isChain_spaces_append (Gap.isGap_of_mem_separator none run b.byte?) ?_
      exact isChain_cons_weave (by simp) sits chain apart

theorem isInfix_trim (as : List Atom) : trim as <:+: as :=
  (List.rdropWhile_prefix isTrimmed _).isInfix.trans (List.dropWhile_suffix isTrimmed).isInfix

theorem mem_weave {prev : Option UInt8} {run : Bytes} {as : List Atom} {a : Atom}
    (mem : a ∈ weave prev run as) : a.isSpace ∨ a ∈ as := by
  have filled (prev : Option UInt8) (run : Bytes) (next : Option UInt8)
      (mem : a ∈ (Gap.separator prev run next).map code) : a.isSpace := by
    obtain ⟨c, hc, rfl⟩ := List.mem_map.mp mem
    exact Gap.isGap_of_mem_separator _ _ _ c hc
  induction as generalizing prev run with
  | nil => exact .inl (filled _ _ _ mem)
  | cons b as ih =>
    by_cases space : b.isSpace
    · rw [weave_cons_of_isSpace space] at mem
      exact (ih mem).imp_right (List.mem_cons_of_mem b)
    · rw [weave_cons_of_not_isSpace space] at mem
      rcases List.mem_append.mp mem with mem | mem
      · exact .inl (filled _ _ _ mem)
      · rcases List.mem_cons.mp mem with rfl | mem
        · exact .inr (by simp)
        · exact (ih mem).imp_right (List.mem_cons_of_mem b)

end Atom

end LuaCompact
