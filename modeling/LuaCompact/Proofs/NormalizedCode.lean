import LuaCompact.Proofs.Ink
import LuaCompact.Proofs.Weave

namespace LuaCompact

theorem filter_dropWhile {α : Type} {p q : α → Bool} (h : ∀ x, ¬ q x → p x) (xs : List α) :
    (xs.dropWhile p).filter q = (xs.filter q).dropWhile p := by
  induction xs with
  | nil => rfl
  | cons x xs ih =>
    by_cases keep : q x
    · by_cases drop : p x
      · rw [List.dropWhile_cons_of_pos drop, List.filter_cons_of_pos keep,
          List.dropWhile_cons_of_pos drop, ih]
      · rw [List.dropWhile_cons_of_neg drop, List.filter_cons_of_pos keep,
          List.dropWhile_cons_of_neg drop]
    · rw [List.dropWhile_cons_of_pos (h x keep), List.filter_cons_of_neg keep, ih]

theorem dropWhile_sublist_dropWhile {α : Type} (p : α → Bool) {xs ys : List α}
    (sub : xs.Sublist ys) : (xs.dropWhile p).Sublist (ys.dropWhile p) := by
  induction sub with
  | slnil => exact .slnil
  | @cons xs ys y sub ih =>
    by_cases drop : p y
    · rwa [List.dropWhile_cons_of_pos drop]
    · rw [List.dropWhile_cons_of_neg drop]
      exact ((List.dropWhile_suffix p).sublist.trans sub).cons y
  | @cons_cons xs ys y sub ih =>
    by_cases drop : p y
    · rwa [List.dropWhile_cons_of_pos drop, List.dropWhile_cons_of_pos drop]
    · rw [List.dropWhile_cons_of_neg drop, List.dropWhile_cons_of_neg drop]
      exact sub.cons_cons y

/-- The bytes of a text that are no white space, in their order. -/
def Bytes.solid (s : Bytes) : Bytes := s.filter fun b => !isGap b

theorem Bytes.mem_solid_of_not_isEdge {s : Bytes} {b : UInt8} (mem : b ∈ s) (edge : ¬ isEdge b) :
    b ∈ solid s := by
  have gap : ¬ isGap b := fun gap => edge (isEdge_of_isGap gap)
  exact List.mem_filter.mpr ⟨mem, by simp [gap]⟩

/-- A text without what `isEdge` holds of at its two ends. -/
def trimEdges (s : Bytes) : Bytes := trimEnd (trimStart s)

theorem trimEdges_append_left {e : Bytes} (edges : ∀ b ∈ e, isEdge b) (s : Bytes) :
    trimEdges (e ++ s) = trimEdges s := by
  rw [trimEdges, trimStart, List.dropWhile_append_of_pos edges]
  rfl

theorem trimEdges_append_right {e : Bytes} (edges : ∀ b ∈ e, isEdge b) (s : Bytes) :
    trimEdges (s ++ e) = trimEdges s := rdropWhile_dropWhile_append edges s

/-- Between two texts that do not vanish at the ends, everything stays. -/
theorem trimEdges_append_append {s t : Bytes} (first : ∃ b ∈ s, ¬ isEdge b)
    (last : ∃ b ∈ t, ¬ isEdge b) (m : Bytes) :
    trimEdges (s ++ m ++ t) = trimStart s ++ m ++ trimEnd t := by
  obtain ⟨a, ha, solid⟩ := first
  obtain ⟨b, hb, solid'⟩ := last
  have start : ¬ (s.dropWhile isEdge).isEmpty := fun empty =>
    solid (List.dropWhile_eq_nil_iff.mp (List.isEmpty_iff.mp empty) a ha)
  have stop : ¬ (t.reverse.dropWhile isEdge).isEmpty := fun empty =>
    solid' (List.dropWhile_eq_nil_iff.mp (List.isEmpty_iff.mp empty) b (List.mem_reverse.mpr hb))
  rw [trimEdges, trimStart, List.append_assoc, List.dropWhile_append, if_neg start, trimEnd,
    List.reverse_append, List.reverse_append, List.append_assoc, List.dropWhile_append, if_neg stop]
  simp [trimStart, trimEnd]

theorem solid_trimEdges (s : Bytes) : Bytes.solid (trimEdges s) = trimEdges (Bytes.solid s) := by
  have gap (b : UInt8) (h : ¬ (!isGap b)) : isEdge b := isEdge_of_isGap (by simpa using h)
  unfold trimEdges trimEnd trimStart Bytes.solid
  rw [List.filter_reverse, filter_dropWhile gap, List.filter_reverse, filter_dropWhile gap]

namespace Gap

/-- Code that is the whole text, with its white space brought to a minimum. -/
def normalizeCode (t : Bytes) : Bytes := trimEdges (tighten t)

theorem normalize_ofCode (t : Bytes) : normalize (Segment.ofCode t) = normalizeCode t := by
  unfold Segment.ofCode
  split
  next empty =>
    rw [empty]
    decide_cbv
  next => simp [normalize, normalizeFrom, normalizeCode, trimEdges]

theorem normalizeCode_nil : normalizeCode [] = [] := (normalize_ofCode []).symm

/-- Normalizing code loses no ink. -/
theorem ink_normalizeCode (t : Bytes) : ink (normalizeCode t) = ink t := by
  rw [normalizeCode, trimEdges, ink_trimEnd, ink_trimStart, ink_tighten]

theorem solid_respace (prev : Option UInt8) (run s : Bytes) :
    Bytes.solid (respace separator prev run s) = Bytes.solid s := by
  have none (a run b) : Bytes.solid (separator a run b) = [] := by
    refine List.filter_eq_nil_iff.mpr fun c mem => ?_
    simp [isGap_of_mem_separator a run b c mem]
  induction s generalizing prev run with
  | nil => exact none prev run _
  | cons c s ih =>
    by_cases gap : isGap c
    · rw [respace, if_pos gap, ih]
      simp [Bytes.solid, gap]
    · have here := none prev run (some c)
      have later := ih (some c) []
      simp only [Bytes.solid] at here later ⊢
      rw [respace, if_neg gap, List.filter_append, here, List.nil_append,
        List.filter_cons_of_pos (by simp [gap]), List.filter_cons_of_pos (by simp [gap]), later]

/-- All but the white space stays in its order, up to what is trimmed. -/
theorem solid_normalizeCode (t : Bytes) :
    Bytes.solid (normalizeCode t) = trimEdges (Bytes.solid t) := by
  rw [normalizeCode, solid_trimEdges, tighten_eq_respace, solid_respace]

end Gap

theorem Bytes.solid_flatMap_lines (ls : List Bytes) :
    solid (ls.flatMap (Byte.lf :: ·)) = ls.flatMap solid := by
  simp only [solid, List.filter_flatMap]
  congr 1

namespace Atom

theorem isEdge_of_mem_gap {prev : Option Atom} {run : Bytes} {a : Atom} {b : UInt8}
    (mem : b ∈ gap prev run a) : isEdge b := by
  cases prev with
  | none => simp [gap] at mem
  | some p => exact isEdge_of_isGap (Gap.isGap_of_mem_separator _ _ _ b mem)

theorem flow_isEdge {e : Bytes} (edges : ∀ b ∈ e, isEdge b) (prev : Option Atom) (run : Bytes) :
    ∀ b ∈ flow prev run (e.map code), isEdge b := by
  induction e generalizing prev run with
  | nil => simp [flow]
  | cons c e ih =>
    obtain ⟨edge, rest⟩ := List.forall_mem_cons.mp edges
    by_cases space : (code c).isSpace
    · rw [List.map_cons, flow_cons_of_isSpace space]
      exact ih rest _ _
    · rw [List.map_cons, flow_cons_of_not_isSpace space]
      refine List.forall_mem_append.mpr ⟨List.forall_mem_append.mpr ⟨?_, ?_⟩, ih rest _ _⟩
      · exact fun b mem => isEdge_of_mem_gap mem
      · exact List.forall_mem_singleton.mpr edge

/-- Trimmed, the text of atoms does not tell what stood before them. -/
theorem trimStart_flow (prev : Option Atom) (run : Bytes) (as : List Atom) :
    trimStart (flow prev run as) = trimStart (flow none [] as) := by
  induction as generalizing run with
  | nil => rfl
  | cons a as ih =>
    by_cases space : a.isSpace
    · rw [flow_cons_of_isSpace space, flow_cons_of_isSpace space, ih, flow_none_run []]
    · rw [flow_cons_of_not_isSpace space, flow_cons_of_not_isSpace space, List.append_assoc,
        trimStart, List.dropWhile_append_of_pos fun b mem => isEdge_of_mem_gap mem]
      rfl

theorem trimStart_flow_append {e : Bytes} (edges : ∀ b ∈ e, isEdge b) (prev : Option Atom)
    (run : Bytes) (as : List Atom) :
    trimStart (flow prev run (e.map code ++ as)) = trimStart (flow none [] as) := by
  induction e generalizing prev run with
  | nil => exact trimStart_flow prev run as
  | cons c e ih =>
    obtain ⟨edge, rest⟩ := List.forall_mem_cons.mp edges
    by_cases space : (code c).isSpace
    · rw [List.map_cons, List.cons_append, flow_cons_of_isSpace space, ih rest]
    · have trimmed : ∀ b ∈ gap prev run (code c) ++ (code c).bytes, isEdge b :=
        List.forall_mem_append.mpr
          ⟨fun b mem => isEdge_of_mem_gap mem, List.forall_mem_singleton.mpr edge⟩
      have later := ih rest (some (code c)) []
      rw [trimStart] at later
      rw [List.map_cons, List.cons_append, flow_cons_of_not_isSpace space, trimStart,
        List.dropWhile_append_of_pos trimmed, later]

theorem exists_flow_append {e : Bytes} (edges : ∀ b ∈ e, isEdge b) (prev : Option Atom)
    (run : Bytes) (as : List Atom) :
    ∃ tail, (∀ b ∈ tail, isEdge b) ∧
      flow prev run (as ++ e.map code) = flow prev run as ++ tail := by
  induction as generalizing prev run with
  | nil => exact ⟨_, flow_isEdge edges prev run, rfl⟩
  | cons a as ih =>
    by_cases space : a.isSpace
    · obtain ⟨tail, trimmed, same⟩ := ih prev (run ++ a.bytes)
      exact ⟨tail, trimmed, by rw [List.cons_append, flow_cons_of_isSpace space,
        flow_cons_of_isSpace space, same]⟩
    · obtain ⟨tail, trimmed, same⟩ := ih (some a) []
      refine ⟨tail, trimmed, ?_⟩
      rw [List.cons_append, flow_cons_of_not_isSpace space, flow_cons_of_not_isSpace space, same,
        List.append_assoc _ _ tail]

end Atom

namespace Gap

theorem exists_respace_some (c : UInt8) (run s : Bytes) :
    ∃ tail, (∀ b ∈ tail, isEdge b) ∧ respace separator (some c) run s =
      Atom.flow (some (.code c)) run (s.map .code) ++ tail := by
  induction s generalizing c run with
  | nil =>
    exact ⟨_, fun b mem => isEdge_of_isGap (isGap_of_mem_separator (some c) run none b mem), rfl⟩
  | cons d s ih =>
    by_cases gap : isGap d
    · obtain ⟨tail, trimmed, same⟩ := ih c (run ++ [d])
      refine ⟨tail, trimmed, ?_⟩
      rw [respace, if_pos gap, List.map_cons, Atom.flow_cons_of_isSpace (a := .code d) gap, same]
      rfl
    · obtain ⟨tail, trimmed, same⟩ := ih d []
      refine ⟨tail, trimmed, ?_⟩
      rw [respace, if_neg gap, List.map_cons, Atom.flow_cons_of_not_isSpace (a := .code d) gap,
        same]
      simp [Atom.gap, Atom.byte?, Atom.bytes]

theorem exists_respace_none (run s : Bytes) :
    ∃ lead tail, (∀ b ∈ lead, isEdge b) ∧ (∀ b ∈ tail, isEdge b) ∧
      respace separator none run s = lead ++ Atom.flow none run (s.map .code) ++ tail := by
  have edges (b : Option UInt8) (run : Bytes) : ∀ c ∈ separator none run b, isEdge c :=
    fun c mem => isEdge_of_isGap (isGap_of_mem_separator none run b c mem)
  induction s generalizing run with
  | nil => exact ⟨_, [], edges none run, by simp, by simp [respace, Atom.flow]⟩
  | cons d s ih =>
    by_cases gap : isGap d
    · obtain ⟨lead, tail, trimmed, trimmed', same⟩ := ih (run ++ [d])
      refine ⟨lead, tail, trimmed, trimmed', ?_⟩
      rw [respace, if_pos gap, List.map_cons, Atom.flow_cons_of_isSpace (a := .code d) gap, same]
      rfl
    · obtain ⟨tail, trimmed, same⟩ := exists_respace_some d [] s
      refine ⟨_, tail, edges (some d) run, trimmed, ?_⟩
      rw [respace, if_neg gap, List.map_cons, Atom.flow_cons_of_not_isSpace (a := .code d) gap,
        same]
      simp [Atom.gap, Atom.bytes]

theorem normalizeCode_eq_flow (t : Bytes) :
    normalizeCode t = trimEdges (Atom.flow none [] (t.map .code)) := by
  obtain ⟨lead, tail, trimmed, trimmed', same⟩ := exists_respace_none [] t
  rw [normalizeCode, tighten_eq_respace, same, trimEdges_append_right trimmed',
    trimEdges_append_left trimmed]

/-- What is trimmed off the ends in any case changes nothing before the white space is treated. -/
theorem normalizeCode_append_append {e e' : Bytes} (edges : ∀ b ∈ e, isEdge b)
    (edges' : ∀ b ∈ e', isEdge b) (t : Bytes) :
    normalizeCode (e ++ t ++ e') = normalizeCode t := by
  obtain ⟨tail, trimmed, same⟩ := Atom.exists_flow_append edges' none [] ((e ++ t).map .code)
  rw [normalizeCode_eq_flow, normalizeCode_eq_flow, List.map_append, same,
    trimEdges_append_right trimmed, trimEdges, trimEdges, List.map_append,
    Atom.trimStart_flow_append edges]

theorem normalizeCode_joinLines (ls : List Bytes) :
    normalizeCode (Bytes.joinLines ls) = normalizeCode (ls.flatMap (Byte.lf :: ·)) := by
  cases ls with
  | nil => rfl
  | cons line ls =>
    have feed : ∀ b ∈ [Byte.lf], isEdge b := List.forall_mem_singleton.mpr (by decide)
    have none : ∀ b ∈ ([] : Bytes), isEdge b := by simp
    have same := normalizeCode_append_append feed none (line ++ ls.flatMap (Byte.lf :: ·))
    rw [Bytes.joinLines, intercalate_cons_eq, ← same]
    simp

theorem ink_joinLines (ls : List Bytes) : ink (Bytes.joinLines ls) = (ls.map ink).sum := by
  have feed : isEdge Byte.lf := by decide
  rw [← ink_normalizeCode, normalizeCode_joinLines, ink_normalizeCode, ink_flatMap_cons feed]

/-- Lines that hold nothing but what is collapsed leave no trace. -/
theorem normalizeCode_filter {ls : List Bytes} {drops : Bytes → Bool}
    (gaps : ∀ line ∈ ls, drops line → ∀ b ∈ line, isGap b) :
    normalizeCode ((ls.filter fun line => !drops line).flatMap (Byte.lf :: ·)) =
      normalizeCode (ls.flatMap (Byte.lf :: ·)) := by
  have lines (ls : List Bytes) : (ls.flatMap (Byte.lf :: ·)).map Atom.code =
      (ls.map (List.map Atom.code)).flatMap (Atom.lineFeed :: ·) := by
    simp [List.map_flatMap, List.flatMap_map]
  have spaces : ∀ line ∈ ls.map (List.map Atom.code),
      drops (Atom.join line) → ∀ a ∈ line, a.isSpace := by
    intro line mem goes a ha
    obtain ⟨bytes, hbytes, rfl⟩ := List.mem_map.mp mem
    rw [Atom.join_map_code] at goes
    obtain ⟨b, hb, rfl⟩ := List.mem_map.mp ha
    exact gaps bytes hbytes goes b hb
  rw [normalizeCode_eq_flow, normalizeCode_eq_flow, lines, lines,
    ← Atom.flow_filter_lines spaces none [], List.filter_map]
  simp [Function.comp_def]

end Gap

end LuaCompact
