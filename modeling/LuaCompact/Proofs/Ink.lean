import LuaCompact.Proofs.Linkage
import LuaCompact.Proofs.Utf8Closure

namespace LuaCompact

open Utf8

/-- How many characters and stray bytes of a text are no white space. -/
def ink (s : Bytes) : Nat := (pieces s).countP fun p => !p.isWhiteSpace

@[simp] theorem ink_nil : ink [] = 0 := by simp [ink, pieces]

theorem ink_eq_zero_iff {s : Bytes} : ink s = 0 ↔ isBlank s := by
  simp [ink, isBlank, List.countP_eq_zero]

theorem ink_append {s t : Bytes} (meet : Meets s t) : ink (s ++ t) = ink s + ink t := by
  rw [ink, pieces_append meet, List.countP_append]
  rfl

theorem isBlank_singleton_of_isEdge {b : UInt8} (edge : isEdge b) : isBlank [b] := by
  simp only [isEdge, isGap, Bool.or_eq_true, decide_eq_true_eq] at edge
  rcases edge with ((((rfl | rfl) | rfl) | rfl) | rfl) | rfl <;> decide_cbv

/-- What is trimmed off the ends of a text has no ink. -/
theorem ink_of_isEdge {s : Bytes} (edges : ∀ b ∈ s, isEdge b) : ink s = 0 := by
  induction s with
  | nil => simp
  | cons b s ih =>
    obtain ⟨edge, rest⟩ := List.forall_mem_cons.mp edges
    have meet : Meets [b] s := .inl (by simpa using isAscii_of_isEdge edge)
    rw [← List.singleton_append, ink_append meet, ih rest,
      ink_eq_zero_iff.mpr (isBlank_singleton_of_isEdge edge)]

theorem isBlank_of_isEdge {s : Bytes} (edges : ∀ b ∈ s, isEdge b) : isBlank s :=
  ink_eq_zero_iff.mp (ink_of_isEdge edges)

theorem isEdge_of_isGap {b : UInt8} (gap : isGap b) : isEdge b := by simp [isEdge, gap]

/-- White space between two texts has no ink, and makes no new characters of theirs. -/
theorem ink_append_run {s run t : Bytes} (edges : ∀ b ∈ run, isEdge b)
    (apart : run = [] → Meets s t) : ink (s ++ (run ++ t)) = ink s + ink t := by
  cases run with
  | nil => exact ink_append (apart rfl)
  | cons b run =>
    have ascii : ∀ c ∈ b :: run, IsAscii c := fun c mem => isAscii_of_isEdge (edges c mem)
    have before : Meets s (b :: run ++ t) := .inr (isAscii_head (ascii b (by simp)) _)
    have behind : Meets (b :: run) t := .inl fun c last => ascii c (List.mem_of_getLast? last)
    rw [ink_append before, ink_append behind, ink_of_isEdge edges, Nat.zero_add]

theorem ink_flatMap_cons {c : UInt8} (edge : isEdge c) (ls : List Bytes) :
    ink (ls.flatMap (c :: ·)) = (ls.map ink).sum := by
  have edges : ∀ b ∈ [c], isEdge b := List.forall_mem_singleton.mpr edge
  induction ls with
  | nil => simp
  | cons line ls ih =>
    have behind : Meets line (ls.flatMap (c :: ·)) := by
      cases ls with
      | nil => exact .inr (by simp)
      | cons next ls => exact .inr (isAscii_head (isAscii_of_isEdge edge) _)
    have here := @ink_append_run [] [c] (line ++ ls.flatMap (c :: ·)) edges (by simp)
    rw [List.flatMap_cons, List.map_cons, List.sum_cons, ← ih, ← ink_append behind]
    simpa using here

theorem sum_ink_filter (ls : List Bytes) :
    ((ls.filter fun line => !isBlank line).map ink).sum = (ls.map ink).sum := by
  induction ls with
  | nil => rfl
  | cons line ls ih =>
    by_cases blank : isBlank line
    · rw [List.filter_cons_of_neg (by simp [blank]), ih, List.map_cons, List.sum_cons,
        ink_eq_zero_iff.mpr blank, Nat.zero_add]
    · rw [List.filter_cons_of_pos (by simp [blank]), List.map_cons, List.map_cons, List.sum_cons,
        List.sum_cons, ih]

/-- Lines that are not blank have ink. -/
theorem eq_nil_of_sum_ink {ls : List Bytes} (content : ∀ line ∈ ls, isBlank line = false)
    (none : (ls.map ink).sum = 0) : ls = [] := by
  refine List.eq_nil_iff_forall_not_mem.mpr fun line mem => ?_
  have zero := List.sum_eq_zero_iff.mp none (ink line) (List.mem_map_of_mem mem)
  exact Bool.eq_false_iff.mp (content line mem) (ink_eq_zero_iff.mp zero)

namespace Gap

/-- The rules take white space out only where a character of one byte stands beside it. -/
theorem ink_append_separator {s run t : Bytes} (gaps : ∀ b ∈ run, isGap b) :
    ink (s ++ (separator s.getLast? run t.head? ++ t)) = ink (s ++ (run ++ t)) := by
  have edges (b) (mem : b ∈ separator s.getLast? run t.head?) : isEdge b :=
    isEdge_of_isGap (isGap_of_mem_separator _ _ _ b mem)
  have last {c : UInt8} (h : s.getLast? = some c) (ascii : IsAscii c) : Meets s t :=
    .inl (by simpa [h] using ascii)
  by_cases same : run = [] ∧ separator s.getLast? run t.head? = []
  · rw [same.1, ← same.1, same.2, same.1]
  · have filled : separator s.getLast? run t.head? = [] → Meets s t := by
      intro empty
      have operator := (separator_eq_nil (fun none => same ⟨none, empty⟩) empty).2
      rw [Bool.or_eq_true, Option.any_eq_true, Option.any_eq_true] at operator
      rcases operator with ⟨c, h, operator⟩ | ⟨c, h, operator⟩
      · exact last h (toNat_lt_of_isOperator operator)
      · exact .inr (by simpa [h, IsAscii] using toNat_lt_of_isOperator operator)
    have parted : run = [] → Meets s t := by
      rintro rfl
      by_cases semicolon : s.getLast? = some Byte.semicolon
      · exact last semicolon (by decide)
      · exact absurd ⟨rfl, by simp [separator, semicolon]⟩ same
    rw [ink_append_run edges filled,
      ink_append_run (fun b mem => isEdge_of_isGap (gaps b mem)) parted]

theorem ink_append_respace {s run t : Bytes} (gaps : ∀ b ∈ run, isGap b) :
    ink (s ++ respace separator s.getLast? run t) = ink (s ++ (run ++ t)) := by
  induction t generalizing s run with
  | nil => simpa [respace] using @ink_append_separator s run [] gaps
  | cons c t ih =>
    rw [respace]
    split
    next gap =>
      have more : ∀ b ∈ run ++ [c], isGap b := by simpa [or_imp, forall_and, gap] using gaps
      rw [ih more, List.append_assoc, List.singleton_append]
    next =>
      have filled := @ink_append_separator s run (c :: t) gaps
      have later := @ih (s ++ separator s.getLast? run (some c) ++ [c]) [] (by simp)
      rw [← filled]
      simpa using later

theorem ink_tighten (t : Bytes) : ink (tighten t) = ink t := by
  rw [tighten_eq_respace]
  exact @ink_append_respace [] [] t (by simp)

theorem ink_trimStart (t : Bytes) : ink (trimStart t) = ink t := by
  have edges : ∀ b ∈ t.takeWhile isEdge, isEdge b := fun b mem => List.mem_takeWhile_imp mem
  have whole : t.takeWhile isEdge ++ trimStart t = t := List.takeWhile_append_dropWhile
  have parts := @ink_append_run [] (t.takeWhile isEdge) (trimStart t) edges
    (fun _ => .inl (by simp))
  rw [List.nil_append, whole] at parts
  simpa using parts.symm

theorem ink_trimEnd (t : Bytes) : ink (trimEnd t) = ink t := by
  have edges : ∀ b ∈ (t.reverse.takeWhile isEdge).reverse, isEdge b :=
    fun b mem => List.mem_takeWhile_imp (List.mem_reverse.mp mem)
  have whole : trimEnd t ++ (t.reverse.takeWhile isEdge).reverse = t := by
    rw [trimEnd, ← List.reverse_append, List.takeWhile_append_dropWhile, List.reverse_reverse]
  have parts := @ink_append_run (trimEnd t) (t.reverse.takeWhile isEdge).reverse [] edges
    (fun _ => .inr (by simp))
  rw [List.append_nil, whole] at parts
  simpa using parts.symm

end Gap

end LuaCompact
