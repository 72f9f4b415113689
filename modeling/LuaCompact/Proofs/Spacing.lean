import LuaCompact.Gap
import Mathlib.Data.Bool.AllAny
import Mathlib.Data.List.TakeWhile

namespace LuaCompact.Gap

/-- Rewrites white space in one pass. All other bytes stay; `fill` says what takes the place of the
run between two of them, or between one and an end of the text. -/
def respace (fill : Option UInt8 → Bytes → Option UInt8 → Bytes) (prev : Option UInt8)
    (run : Bytes) : Bytes → Bytes
  | [] => fill prev run none
  | c :: s =>
    if isGap c then respace fill prev (run ++ [c]) s
    else fill prev run (some c) ++ c :: respace fill (some c) [] s

/-- What stands between two neighbouring bytes of code with a run of white space between them. A
missing neighbour is an end of the code. -/
def separator (a : Option UInt8) (run : Bytes) (b : Option UInt8) : Bytes :=
  if a = some Byte.semicolon then [Byte.lf]
  else if run = [] then []
  else if run.any Token.isBreak then [Byte.lf]
  else if a = some Byte.dash ∧ b = some Byte.dash then [Byte.space]
  else if a.any isOperator || b.any isOperator then []
  else [Byte.space]

/-- What the first rule puts for a run. -/
def collapseFill (_ : Option UInt8) (run : Bytes) (_ : Option UInt8) : Bytes :=
  if run = [] then [] else [collapsed run]

/-- What the first two rules put for a run. -/
def semicolonFill (a : Option UInt8) (run : Bytes) (b : Option UInt8) : Bytes :=
  if a = some Byte.semicolon then [] else collapseFill a run b

/-- What the first three rules put for a run. -/
def operatorFill (a : Option UInt8) (run : Bytes) (b : Option UInt8) : Bytes :=
  if semicolonFill a run b = [Byte.space] ∧ (a.any isOperator || b.any isOperator) ∧
      ¬ (a = some Byte.dash ∧ b = some Byte.dash) then []
  else semicolonFill a run b

theorem dropWhile_of_stop {p : UInt8 → Bool} {s : Bytes} (stop : ∀ c ∈ s.head?, ¬ p c) :
    s.dropWhile p = s := by
  cases s with
  | nil => rfl
  | cons c s => exact List.dropWhile_cons_of_neg (stop c (by simp))

theorem dropWhile_append_of_stop {p : UInt8 → Bool} {run s : Bytes} (inside : ∀ b ∈ run, p b)
    (stop : ∀ c ∈ s.head?, ¬ p c) : (run ++ s).dropWhile p = s := by
  rw [List.dropWhile_append_of_pos inside, dropWhile_of_stop stop]

theorem toNat_lt_of_isOperator {b : UInt8} (operator : isOperator b) : b.toNat < 0x80 := by
  have low : ∀ c ∈ utf8 "=+-*/<>()", c.toNat < 0x80 := List.all_iff_forall_prop.mp (by decide)
  exact low b (List.mem_of_elem_eq_true operator)

theorem isGap_collapsed (run : Bytes) : isGap (collapsed run) := by
  unfold collapsed
  split <;> decide

theorem collapse_run_append {run s : Bytes} (nonempty : run ≠ []) (gaps : ∀ b ∈ run, isGap b)
    (stop : ∀ c ∈ s.head?, ¬ isGap c) : collapse (run ++ s) = collapsed run :: collapse s := by
  obtain ⟨c, run, rfl⟩ := List.exists_cons_of_ne_nil nonempty
  have hc : isGap c := gaps c (by simp)
  have tail : ∀ b ∈ run, isGap b = true := fun b hb => gaps b (by simp [hb])
  rw [List.cons_append, collapse, if_pos hc, dropWhile_append_of_stop tail stop,
    List.takeWhile_append_of_pos tail]
  cases s with
  | nil => simp
  | cons d s => rw [List.takeWhile_cons_of_neg (stop d (by simp)), List.append_nil]

theorem collapse_eq_respace (prev : Option UInt8) (run s : Bytes)
    (gaps : ∀ b ∈ run, isGap b) : collapse (run ++ s) = respace collapseFill prev run s := by
  induction s generalizing prev run with
  | nil =>
    by_cases empty : run = []
    · simp [empty, respace, collapse, collapseFill]
    · rw [collapse_run_append empty gaps (by simp)]
      simp [empty, respace, collapse, collapseFill]
  | cons c s ih =>
    by_cases hc : isGap c
    · have more : ∀ b ∈ run ++ [c], isGap b := by
        intro b hb
        rcases List.mem_append.mp hb with hb | hb
        · exact gaps b hb
        · rwa [List.mem_singleton.mp hb]
      rw [respace, if_pos hc, ← ih prev (run ++ [c]) more, List.append_assoc, List.singleton_append]
    · have next : collapse (c :: s) = c :: respace collapseFill (some c) [] s := by
        rw [collapse, if_neg hc, ← ih (some c) [] (by simp), List.nil_append]
      rw [respace, if_neg hc]
      by_cases empty : run = []
      · simp [empty, next, collapseFill]
      · rw [collapse_run_append empty gaps (by simpa using hc), next]
        simp [collapseFill, empty]

/-- The second rule behind the byte `prev`. -/
def semicolonsAfter (prev : Option UInt8) (s : Bytes) : Bytes :=
  if prev = some Byte.semicolon then tightenSemicolons (s.dropWhile isGap) else tightenSemicolons s

theorem tightenSemicolons_cons (c : UInt8) (s : Bytes) :
    tightenSemicolons (c :: s) = c :: semicolonsAfter (some c) s := by
  rw [tightenSemicolons, semicolonsAfter]
  by_cases hc : c = Byte.semicolon <;> simp [hc]

theorem tightenSemicolons_append {gaps : Bytes} (h : ∀ b ∈ gaps, isGap b) (s : Bytes) :
    tightenSemicolons (gaps ++ s) = gaps ++ tightenSemicolons s := by
  induction gaps with
  | nil => rfl
  | cons b gaps ih =>
    have hb : b ≠ Byte.semicolon := by
      rintro rfl
      exact absurd (h Byte.semicolon (by simp)) (by decide)
    rw [List.cons_append, tightenSemicolons, if_neg hb, ih (fun d hd => h d (by simp [hd]))]
    rfl

theorem semicolonsAfter_append {gaps s : Bytes} (prev : Option UInt8) (h : ∀ b ∈ gaps, isGap b)
    (stop : ∀ c ∈ s.head?, ¬ isGap c) :
    semicolonsAfter prev (gaps ++ s) =
      (if prev = some Byte.semicolon then [] else gaps) ++ tightenSemicolons s := by
  unfold semicolonsAfter
  split
  · rw [dropWhile_append_of_stop h stop, List.nil_append]
  · exact tightenSemicolons_append h s

theorem semicolonsAfter_respace (prev : Option UInt8) (run s : Bytes) :
    semicolonsAfter prev (respace collapseFill prev run s) = respace semicolonFill prev run s := by
  have gaps (a : Option UInt8) (w : Bytes) (b : Option UInt8) : ∀ x ∈ collapseFill a w b, isGap x := by
    intro x hx
    unfold collapseFill at hx
    split at hx
    · simp at hx
    · rw [List.mem_singleton.mp hx]
      exact isGap_collapsed w
  induction s generalizing prev run with
  | nil =>
    have := semicolonsAfter_append prev (gaps prev run none) (s := []) (by simp)
    simpa [respace, semicolonFill, tightenSemicolons] using this
  | cons c s ih =>
    rw [respace, respace]
    by_cases hc : isGap c
    · rw [if_pos hc, if_pos hc, ih]
    · rw [if_neg hc, if_neg hc, semicolonsAfter_append prev (gaps _ _ _) (by simpa using hc),
        tightenSemicolons_cons, ih]
      rfl

/-- The third rule behind the byte `prev`. -/
def operatorsAfter (prev : Option UInt8) (s : Bytes) : Bytes :=
  match prev with
  | none => tightenOperators s
  | some op =>
    if isOperator op then afterOperator op s ++ tightenOperators (s.dropWhile isInline)
    else tightenOperators s

theorem isGap_of_isInline {b : UInt8} (h : isInline b) : isGap b := by
  simp only [isInline, Bool.or_eq_true, decide_eq_true_eq] at h
  rcases h with rfl | rfl <;> decide

theorem tightenOperators_cons {c : UInt8} (h : ¬ isGap c) (s : Bytes) :
    tightenOperators (c :: s) = c :: operatorsAfter (some c) s := by
  have inline : isInline c = false := by
    simpa using fun hi => h (isGap_of_isInline hi)
  rw [tightenOperators, operatorsAfter]
  by_cases hc : isOperator c <;> simp [hc, inline]

theorem dropWhile_isInline_of_stop {s : Bytes} (stop : ∀ c ∈ s.head?, ¬ isGap c) :
    s.dropWhile isInline = s :=
  dropWhile_of_stop fun c hc hi => stop c hc (isGap_of_isInline hi)

theorem operatorsAfter_of_stop (prev : Option UInt8) {s : Bytes}
    (stop : ∀ c ∈ s.head?, ¬ isGap c) : operatorsAfter prev s = tightenOperators s := by
  have first : ¬ s.head?.any isInline := by
    cases s with
    | nil => simp
    | cons c s => simpa using fun hi => stop c (by simp) (isGap_of_isInline hi)
  cases prev with
  | none => rfl
  | some op => simp [operatorsAfter, afterOperator, dropWhile_isInline_of_stop stop, first]

theorem operatorsAfter_lf (prev : Option UInt8) (s : Bytes) :
    operatorsAfter prev (Byte.lf :: s) = Byte.lf :: tightenOperators s := by
  have inline : isInline Byte.lf = false := by decide
  have plain : tightenOperators (Byte.lf :: s) = Byte.lf :: tightenOperators s := by
    rw [tightenOperators, if_neg (by decide), if_neg (by simp [inline])]
  cases prev with
  | none => exact plain
  | some op => simp [operatorsAfter, afterOperator, inline, plain]

theorem operatorsAfter_space (prev : Option UInt8) {s : Bytes}
    (stop : ∀ c ∈ s.head?, ¬ isGap c) :
    operatorsAfter prev (Byte.space :: s) =
      (if (prev.any isOperator || s.head?.any isOperator) ∧
          ¬ (prev = some Byte.dash ∧ s.head? = some Byte.dash) then [] else [Byte.space]) ++
        tightenOperators s := by
  have same := dropWhile_isInline_of_stop stop
  have inline : isInline Byte.space = true := by decide
  have dash : isOperator Byte.dash = true := by decide
  have plain : tightenOperators (Byte.space :: s) =
      if s.head?.any isOperator then tightenOperators s else Byte.space :: tightenOperators s := by
    rw [tightenOperators, if_neg (by decide)]
    simp [same, inline]
  cases prev with
  | none =>
    rw [operatorsAfter, plain]
    by_cases hs : s.head?.any isOperator <;> simp [hs]
  | some op =>
    by_cases hop : isOperator op
    · by_cases dashes : op = Byte.dash ∧ s.head? = some Byte.dash
      · simp [operatorsAfter, afterOperator, dashes, dash, inline, same]
      · simp [operatorsAfter, afterOperator, hop, dashes, inline, same]
    · have hne : op ≠ Byte.dash := by
        rintro rfl
        exact hop dash
      rw [operatorsAfter, if_neg hop, plain]
      by_cases hs : s.head?.any isOperator <;> simp [hop, hs, hne]

theorem semicolonFill_cases (a : Option UInt8) (run : Bytes) (b : Option UInt8) :
    semicolonFill a run b = [] ∨ semicolonFill a run b = [Byte.lf] ∨
      semicolonFill a run b = [Byte.space] := by
  unfold semicolonFill collapseFill collapsed
  split
  · exact .inl rfl
  · split
    · exact .inl rfl
    · split
      · exact .inr (.inl rfl)
      · exact .inr (.inr rfl)

theorem operatorsAfter_fill (prev : Option UInt8) (run : Bytes) {s : Bytes}
    (stop : ∀ c ∈ s.head?, ¬ isGap c) :
    operatorsAfter prev (semicolonFill prev run s.head? ++ s) =
      operatorFill prev run s.head? ++ tightenOperators s := by
  unfold operatorFill
  rcases semicolonFill_cases prev run s.head? with h | h | h
  · rw [h, if_neg (by simp)]
    exact operatorsAfter_of_stop prev stop
  · rw [h, if_neg (by simp [show Byte.lf ≠ Byte.space by decide])]
    exact operatorsAfter_lf prev s
  · rw [h]
    simpa using operatorsAfter_space prev stop

theorem operatorsAfter_respace (prev : Option UInt8) (run s : Bytes) :
    operatorsAfter prev (respace semicolonFill prev run s) = respace operatorFill prev run s := by
  induction s generalizing prev run with
  | nil => simpa [respace, tightenOperators] using operatorsAfter_fill prev run (s := []) (by simp)
  | cons c s ih =>
    rw [respace, respace]
    by_cases hc : isGap c
    · rw [if_pos hc, if_pos hc, ih]
    · have := operatorsAfter_fill prev run (s := c :: respace semicolonFill (some c) [] s)
        (by simpa using hc)
      rw [if_neg hc, if_neg hc, ← ih, ← tightenOperators_cons hc]
      exact this

/-- The fourth rule behind the byte `prev`. -/
def breaksAfter (prev : Option UInt8) (s : Bytes) : Bytes :=
  if prev = some Byte.semicolon then Byte.lf :: breakStatements (s.dropWhile isGap)
  else breakStatements s

theorem breakStatements_cons {c : UInt8} (h : ¬ isGap c) (s : Bytes) :
    breakStatements (c :: s) = c :: breaksAfter (some c) s := by
  have hline : c ≠ Byte.lf := by
    rintro rfl
    exact h (by decide)
  rw [breakStatements, breaksAfter]
  by_cases hc : c = Byte.semicolon <;> simp [hc, hline]

theorem operatorFill_cases (a : Option UInt8) (run : Bytes) (b : Option UInt8) :
    operatorFill a run b = [] ∨ operatorFill a run b = [Byte.lf] ∨
      operatorFill a run b = [Byte.space] := by
  unfold operatorFill
  split
  · exact .inl rfl
  · exact semicolonFill_cases a run b

/-- Behind any byte but a semicolon the fourth rule changes nothing. -/
theorem separator_eq_operatorFill {a : Option UInt8} (h : a ≠ some Byte.semicolon) (run : Bytes)
    (b : Option UInt8) : separator a run b = operatorFill a run b := by
  have breaks : (run.any fun x => decide (x = Byte.lf) || decide (x = Byte.cr)) =
      run.any Token.isBreak := rfl
  simp only [separator, operatorFill, semicolonFill, collapseFill, collapsed, h, if_false, breaks]
  by_cases empty : run = []
  · simp [empty]
  · by_cases crosses : run.any Token.isBreak
    · simp [empty, crosses, show Byte.lf ≠ Byte.space by decide]
    · by_cases dashes : a = some Byte.dash ∧ b = some Byte.dash
      · simp [empty, crosses, dashes]
      · simp [empty, crosses, dashes]

theorem breaksAfter_fill (prev : Option UInt8) (run : Bytes) {s : Bytes}
    (stop : ∀ c ∈ s.head?, ¬ isGap c) :
    breaksAfter prev (operatorFill prev run s.head? ++ s) =
      separator prev run s.head? ++ breakStatements s := by
  have same : s.dropWhile isGap = s := dropWhile_of_stop stop
  unfold breaksAfter
  split
  next hp =>
    have empty : operatorFill prev run s.head? = [] := by simp [operatorFill, semicolonFill, hp]
    rw [empty, List.nil_append, same]
    simp [separator, hp]
  next hp =>
    rw [separator_eq_operatorFill hp]
    rcases operatorFill_cases prev run s.head? with h | h | h
    · rw [h]
      rfl
    · rw [h, List.singleton_append, breakStatements, if_neg (by decide), if_pos rfl, same]
      rfl
    · rw [h, List.singleton_append, breakStatements, if_neg (by decide), if_neg (by decide)]
      rfl

theorem breaksAfter_respace (prev : Option UInt8) (run s : Bytes) :
    breaksAfter prev (respace operatorFill prev run s) = respace separator prev run s := by
  induction s generalizing prev run with
  | nil => simpa [respace, breakStatements] using breaksAfter_fill prev run (s := []) (by simp)
  | cons c s ih =>
    rw [respace, respace]
    by_cases hc : isGap c
    · rw [if_pos hc, if_pos hc, ih]
    · have := breaksAfter_fill prev run (s := c :: respace operatorFill (some c) [] s)
        (by simpa using hc)
      rw [if_neg hc, if_neg hc, ← ih, ← breakStatements_cons hc]
      exact this

/-- The four rules together are one pass. -/
theorem tighten_eq_respace (s : Bytes) : tighten s = respace separator none [] s := by
  have first : collapse s = respace collapseFill none [] s :=
    collapse_eq_respace none [] s (by simp)
  calc tighten s = breakStatements (tightenOperators (tightenSemicolons (collapse s))) := rfl
    _ = breaksAfter none (operatorsAfter none (semicolonsAfter none (collapse s))) := rfl
    _ = respace separator none [] s := by
      rw [first, semicolonsAfter_respace, operatorsAfter_respace, breaksAfter_respace]

end LuaCompact.Gap
