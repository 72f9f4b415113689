import LuaCompact.Proofs.NormalizedCode
import LuaCompact.Proofs.Settled

namespace LuaCompact

/-- Apart from lines of which all is trimmed, at the beginning and at the end, the blank ones among
these lines hold nothing but white space that is collapsed. -/
def Traceless (ls : List Bytes) : Prop :=
  ∃ before middle after, ls = before ++ middle ++ after ∧
    (∀ line ∈ before ++ after, ∀ b ∈ line, isEdge b) ∧
    ∀ line ∈ middle, isBlank line → ∀ b ∈ line, isGap b

theorem exists_of_dropWhile_eq_append {α : Type} {p : α → Bool} {xs before after : List α} {x : α}
    (h : xs.dropWhile p = before ++ x :: after) (hx : p x) : ∃ y ∈ before, ¬ p y := by
  have first : ∀ y ∈ (xs.dropWhile p).head?, ¬ p y := by
    intro y hy
    have stop := List.head?_dropWhile_not p xs
    rw [hy] at stop
    simpa using stop
  rw [h] at first
  cases before with
  | nil => exact absurd hx (first x rfl)
  | cons y before => exact ⟨y, List.mem_cons_self, first y rfl⟩

/-- A list without what `p` holds of at its two ends. -/
theorem exists_middle {α : Type} (p : α → Bool) (xs : List α) :
    ∃ before middle after, xs = before ++ middle ++ after ∧ (∀ x ∈ before ++ after, p x) ∧
      ∀ above x below, middle = above ++ x :: below → p x →
        (∃ y ∈ above, ¬ p y) ∧ ∃ y ∈ below, ¬ p y := by
  have start : ∀ x ∈ xs.takeWhile p, p x := fun x mem => List.mem_takeWhile_imp mem
  have whole : xs.takeWhile p ++ xs.dropWhile p = xs := List.takeWhile_append_dropWhile
  have stop : ∀ x ∈ (xs.dropWhile p).rtakeWhile p, p x := fun x mem => List.mem_rtakeWhile_imp mem
  have rest : (xs.dropWhile p).rdropWhile p ++ (xs.dropWhile p).rtakeWhile p = xs.dropWhile p :=
    List.rdropWhile_append_rtakeWhile
  refine ⟨xs.takeWhile p, (xs.dropWhile p).rdropWhile p, (xs.dropWhile p).rtakeWhile p, ?_,
    List.forall_mem_append.mpr ⟨start, stop⟩, ?_⟩
  · rw [List.append_assoc, rest, whole]
  · intro above x below inside hx
    constructor
    · rw [inside, List.append_assoc, List.cons_append] at rest
      exact exists_of_dropWhile_eq_append rest.symm hx
    · have reversed := congrArg List.reverse inside
      rw [List.rdropWhile, List.reverse_reverse, List.reverse_append, List.reverse_cons,
        List.append_assoc, List.singleton_append] at reversed
      obtain ⟨y, hy, other⟩ := exists_of_dropWhile_eq_append reversed hx
      exact ⟨y, List.mem_reverse.mp hy, other⟩

theorem exists_solid_of_not_isBlank {ls : List Bytes} {line : Bytes} (mem : line ∈ ls)
    (content : ¬ isBlank line) : ∃ b ∈ ls.flatMap Bytes.solid, ¬ isEdge b := by
  by_contra none
  refine content (isBlank_of_isEdge fun b hb => ?_)
  by_contra edge
  have kept := Bytes.mem_solid_of_not_isEdge hb edge
  exact none ⟨b, List.mem_flatMap.mpr ⟨line, mem, kept⟩, edge⟩

theorem filter_trimEdges (s : Bytes) :
    (trimEdges s).filter (fun b => !isEdge b) = s.filter fun b => !isEdge b := by
  have none (b : UInt8) (edge : isEdge b) : Option.guard (fun b => !isEdge b) b = none := by
    simp [edge]
  have start := filterMap_dropWhile (p := isEdge) none
  unfold trimEdges trimEnd trimStart
  rw [← List.filterMap_eq_filter, List.filterMap_reverse, start, ← List.filterMap_reverse,
    List.reverse_reverse, start]

section

variable {ls : List Bytes}
  (same : trimEdges ((ls.filter fun line => !isBlank line).flatMap Bytes.solid) =
    trimEdges (ls.flatMap Bytes.solid))

include same

/-- Where nothing is lost with the blank lines, they hold nothing but what the ends are trimmed
of. -/
theorem isEdge_of_trimEdges_eq {line : Bytes} (mem : line ∈ ls) (blank : isBlank line) :
    ∀ b ∈ line, isEdge b := by
  have lengths := congrArg (fun s => (s.filter fun b => !isEdge b).length) same
  simp only [filter_trimEdges, List.filter_flatMap] at lengths
  have none := eq_nil_of_length_flatMap_filter lengths line mem (by simp [blank])
  intro b hb
  by_contra edge
  have kept := Bytes.mem_solid_of_not_isEdge hb edge
  exact List.filter_eq_nil_iff.mp none b kept (by simp [edge])

/-- Nor do they hold anything that is not collapsed between two lines with content. -/
theorem isGap_of_trimEdges_eq {above below : List Bytes} {line : Bytes}
    (whole : ls = above ++ line :: below) (blank : isBlank line)
    (first : ∃ l ∈ above, ¬ isBlank l) (last : ∃ l ∈ below, ¬ isBlank l) :
    ∀ b ∈ line, isGap b := by
  have kept {ls : List Bytes} (some : ∃ l ∈ ls, ¬ isBlank l) :
      ∃ b ∈ (ls.filter fun line => !isBlank line).flatMap Bytes.solid, ¬ isEdge b := by
    obtain ⟨l, mem, content⟩ := some
    exact exists_solid_of_not_isBlank (List.mem_filter.mpr ⟨mem, by simp [content]⟩) content
  have all {ls : List Bytes} (some : ∃ l ∈ ls, ¬ isBlank l) :
      ∃ b ∈ ls.flatMap Bytes.solid, ¬ isEdge b := by
    obtain ⟨l, mem, content⟩ := some
    exact exists_solid_of_not_isBlank mem content
  have sub (ls : List Bytes) : ((ls.filter fun line => !isBlank line).flatMap Bytes.solid).Sublist
      (ls.flatMap Bytes.solid) := List.filter_sublist.flatMap Bytes.solid
  have written := trimEdges_append_append (all first) (all last) (Bytes.solid line)
  have written' := trimEdges_append_append (kept first) (kept last) []
  have parts : ls.flatMap Bytes.solid =
      above.flatMap Bytes.solid ++ Bytes.solid line ++ below.flatMap Bytes.solid := by
    simp [whole]
  have parts' : (ls.filter fun line => !isBlank line).flatMap Bytes.solid =
      (above.filter fun line => !isBlank line).flatMap Bytes.solid ++ [] ++
        (below.filter fun line => !isBlank line).flatMap Bytes.solid := by
    simp [whole, blank]
  rw [← parts] at written
  rw [← parts', same, written] at written'
  have lengths := congrArg List.length written'
  have start := (dropWhile_sublist_dropWhile isEdge (sub above)).length_le
  have stop := (dropWhile_sublist_dropWhile isEdge (sub below).reverse).length_le
  simp only [trimStart, trimEnd, List.length_append, List.length_reverse,
    List.length_nil] at lengths
  have empty : Bytes.solid line = [] := List.eq_nil_of_length_eq_zero (by omega)
  intro b hb
  by_contra gap
  exact List.filter_eq_nil_iff.mp empty b hb (by simp [gap])

theorem traceless_of_trimEdges_eq : Traceless ls := by
  obtain ⟨before, middle, after, whole, ends, inner⟩ := exists_middle isBlank ls
  refine ⟨before, middle, after, whole, ?_, ?_⟩
  · intro line mem
    refine isEdge_of_trimEdges_eq same ?_ (ends line mem)
    rcases List.mem_append.mp mem with mem | mem <;> simp [whole, mem]
  · intro line mem blank
    obtain ⟨above, below, rfl⟩ := List.append_of_mem mem
    obtain ⟨⟨f, hf, first⟩, g, hg, last⟩ := inner above line below rfl blank
    have parts : ls = (before ++ above) ++ line :: (below ++ after) := by simp [whole]
    exact isGap_of_trimEdges_eq same parts blank ⟨f, List.mem_append_right _ hf, first⟩
      ⟨g, List.mem_append_left _ hg, last⟩

end

namespace Gap

theorem normalizeCode_of_traceless {ls : List Bytes} (traceless : Traceless ls) :
    normalizeCode ((ls.filter fun line => !isBlank line).flatMap (Byte.lf :: ·)) =
      normalizeCode (ls.flatMap (Byte.lf :: ·)) := by
  obtain ⟨before, middle, after, rfl, ends, inner⟩ := traceless
  obtain ⟨start, stop⟩ := List.forall_mem_append.mp ends
  have edges {ls : List Bytes} (h : ∀ line ∈ ls, ∀ b ∈ line, isEdge b) :
      ∀ b ∈ ls.flatMap (Byte.lf :: ·), isEdge b := by
    intro b hb
    obtain ⟨line, mem, hb⟩ := List.mem_flatMap.mp hb
    rcases List.mem_cons.mp hb with rfl | hb
    · decide
    · exact h line mem b hb
  have dropped {ls : List Bytes} (h : ∀ line ∈ ls, ∀ b ∈ line, isEdge b) :
      (ls.filter fun line => !isBlank line) = [] := by
    refine List.filter_eq_nil_iff.mpr fun line mem => ?_
    simp [isBlank_of_isEdge (h line mem)]
  rw [List.filter_append, List.filter_append, dropped start, dropped stop, List.nil_append,
    List.append_nil, normalizeCode_filter inner, List.flatMap_append, List.flatMap_append,
    normalizeCode_append_append (edges start) (edges stop)]

/-- Blank lines can be left in code that is normalized exactly if they leave no trace. -/
theorem normalizeCode_filter_isBlank_iff (ls : List Bytes) :
    normalizeCode ((ls.filter fun line => !isBlank line).flatMap (Byte.lf :: ·)) =
      normalizeCode (ls.flatMap (Byte.lf :: ·)) ↔ Traceless ls := by
  refine ⟨fun same => traceless_of_trimEdges_eq ?_, normalizeCode_of_traceless⟩
  have solids := congrArg Bytes.solid same
  rwa [solid_normalizeCode, solid_normalizeCode, Bytes.solid_flatMap_lines,
    Bytes.solid_flatMap_lines] at solids

theorem normalizeCode_joinLines_eq_nil_iff {ls : List Bytes}
    (content : ∀ line ∈ ls, isBlank line = false) :
    normalizeCode (Bytes.joinLines ls) = [] ↔ ls = [] := by
  constructor
  · intro empty
    refine eq_nil_of_sum_ink content ?_
    rw [← ink_joinLines, ← ink_normalizeCode, empty, ink_nil]
  · rintro rfl
    exact normalizeCode_nil

/-- Code comes to the same as its lines with content and some more lines exactly if there are no
more and its blank lines leave no trace. -/
theorem normalizeCode_eq_iff (t : Bytes) {more : List Bytes}
    (content : ∀ line ∈ more, isBlank line = false) :
    normalizeCode t = normalizeCode
        (Bytes.joinLines (((Bytes.lines t).filter fun line => !isBlank line) ++ more)) ↔
      more = [] ∧ Traceless (Bytes.lines t) := by
  have whole : Bytes.joinLines (Bytes.lines t) = t := Atom.joinLines_lines t
  have trace : normalizeCode t = normalizeCode
        (Bytes.joinLines ((Bytes.lines t).filter fun line => !isBlank line)) ↔
      Traceless (Bytes.lines t) := by
    rw [← normalizeCode_filter_isBlank_iff, ← normalizeCode_joinLines, ← normalizeCode_joinLines,
      whole, eq_comm]
  constructor
  · intro same
    have inks := congrArg ink same
    rw [ink_normalizeCode, ink_normalizeCode, ink_joinLines, List.map_append, List.sum_append,
      sum_ink_filter, ← ink_joinLines, whole] at inks
    have none : more = [] := eq_nil_of_sum_ink content (by omega)
    rw [none, List.append_nil] at same
    exact ⟨none, trace.mp same⟩
  · rintro ⟨rfl, traceless⟩
    rw [List.append_nil]
    exact trace.mpr traceless

/-- A blank text has no lines with content. -/
theorem filter_lines_of_isBlank {s : Bytes} (blank : isBlank s) :
    ((Bytes.lines s).filter fun line => !isBlank line) = [] := by
  have whole : Bytes.joinLines (Bytes.lines s) = s := Atom.joinLines_lines s
  have none : ((Bytes.lines s).map ink).sum = 0 := by
    rw [← ink_joinLines, whole, ink_eq_zero_iff.mpr blank]
  refine List.filter_eq_nil_iff.mpr fun line mem => ?_
  have zero := List.sum_eq_zero_iff.mp none (ink line) (List.mem_map_of_mem mem)
  simp [ink_eq_zero_iff.mp zero]

end Gap

end LuaCompact
