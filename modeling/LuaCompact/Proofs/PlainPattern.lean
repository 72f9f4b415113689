import LuaCompact.Selection
import LuaCompact.Proofs.LongBracket
import LuaCompact.Proofs.Route
import Mathlib.Data.Bool.AllAny

namespace LuaCompact

namespace Pattern

theorem hasMeta_cons_eq_false_iff {c : UInt8} {s : Bytes} :
    hasMeta (c :: s) = false ↔ c ≠ star ∧ c ≠ question ∧ c ≠ Byte.openBracket ∧
      c ≠ Byte.backslash ∧ hasMeta s = false := by
  have escape : List.elem Byte.backslash (c :: s) = (decide (c = Byte.backslash) ||
      List.elem Byte.backslash s) := by
    by_cases same : c = Byte.backslash
    · simp [same]
    · simp [same, Ne.symm same]
  simp only [hasMeta, hasWildcard, List.any_cons, escape, Bool.or_eq_false_iff,
    decide_eq_false_iff_not]
  constructor
  · rintro ⟨⟨⟨⟨star, question⟩, bracket⟩, plain⟩, backslash, unescaped⟩
    exact ⟨star, question, bracket, backslash, plain, unescaped⟩
  · rintro ⟨star, question, bracket, backslash, plain, unescaped⟩
    exact ⟨⟨⟨⟨star, question⟩, bracket⟩, plain⟩, backslash, unescaped⟩

theorem hasMeta_eq_false_iff {s : Bytes} : hasMeta s = false ↔
    ∀ b ∈ s, b ≠ star ∧ b ≠ question ∧ b ≠ Byte.openBracket ∧ b ≠ Byte.backslash := by
  induction s with
  | nil => simp [hasMeta, hasWildcard]
  | cons b s ih => simp only [hasMeta_cons_eq_false_iff, ih, List.forall_mem_cons, and_assoc]

theorem hasWildcard_of_plain {s : Bytes} (plain : hasMeta s = false) : hasWildcard s = false := by
  simp only [hasMeta, Bool.or_eq_false_iff] at plain
  exact plain.1

theorem parts_of_plain {s : Bytes} (plain : hasMeta s = false) :
    parts s = s.map fun b => .item (.byte b) := by
  induction s with
  | nil => simp [parts]
  | cons c s ih =>
    obtain ⟨star, question, bracket, backslash, later⟩ := hasMeta_cons_eq_false_iff.mp plain
    rw [parts.eq_def]
    simp only [if_neg star, if_neg question, if_neg bracket, if_neg backslash, ih later]
    rfl

theorem parse_of_plain {s : Bytes} (plain : hasMeta s = false) :
    parse s = ⟨some (s.map .byte), []⟩ := by
  rw [parse, parts_of_plain plain]
  clear plain
  induction s with
  | nil => rfl
  | cons c s ih => rw [List.map_cons, ofParts, ih]; rfl

theorem matchRun_bytes (s t : Bytes) :
    matchRun (s.map .byte) t = if s <+: t then some (t.drop s.length) else none := by
  induction s generalizing t with
  | nil => simp [matchRun]
  | cons b s ih =>
    cases t with
    | nil => simp [matchRun, matchItem]
    | cons c t =>
      by_cases same : b = c
      · simp [matchRun, matchItem, same, ih, List.cons_prefix_cons]
      · simp [matchRun, matchItem, same, List.cons_prefix_cons]

/-- What holds no special character matches itself only. -/
theorem admits_iff_of_plain {s t : Bytes} (plain : hasMeta s = false) : admits s t ↔ t = s := by
  simp only [admits, parse_of_plain plain, accepts?, matchRun_bytes, decide_eq_true_eq]
  by_cases starts : s <+: t
  · obtain ⟨rest, rfl⟩ := starts
    simp [matchStarred?]
  · simp only [starts, if_false, Option.some.injEq, Bool.false_eq_true, false_iff]
    rintro rfl
    exact starts List.prefix_rfl

theorem isSome_ofParts {ps : List PatternPart} (sound : PatternPart.fault ∉ ps) :
    (ofParts ps).head.isSome ∧ ∀ run ∈ (ofParts ps).starred, run.isSome := by
  induction ps with
  | nil => simp [ofParts]
  | cons part ps ih =>
    rw [List.mem_cons, not_or] at sound
    obtain ⟨head, starred⟩ := ih sound.2
    cases part with
    | star => simpa [ofParts, head] using starred
    | item i => simpa [ofParts, head] using starred
    | fault => exact absurd rfl sound.1

theorem isSome_matchStarred? {runs : List PatternRun} (sound : ∀ run ∈ runs, run.isSome)
    (s : Bytes) : (matchStarred? runs s).isSome := by
  fun_induction matchStarred? runs s with
  | case1 => rfl
  | case2 => simpa using sound none List.mem_cons_self
  | case3 run runs s rest _ ih => exact ih fun run mem => sound run (List.mem_cons_of_mem _ mem)
  | case4 => rfl

/-- A pattern that can be read to its end decides every text. -/
theorem isSome_accepts? {pattern : Bytes} (sound : PatternPart.fault ∉ parts pattern) (s : Bytes) :
    ((parse pattern).accepts? s).isSome := by
  obtain ⟨head, starred⟩ := isSome_ofParts sound
  obtain ⟨run, first⟩ := Option.isSome_iff_exists.mp head
  simp only [parse, accepts?, first]
  split
  next => exact isSome_matchStarred? starred _
  next => rfl

end Pattern

namespace Path

/-- The elements of a path come first in those of another that it is, or that goes on after a
slash. -/
theorem elements_prefix_iff (dir path : Bytes) :
    elements dir <+: elements path ↔ path = dir ∨ dir ++ [Byte.slash] <+: path := by
  constructor
  · rintro ⟨rest, whole⟩
    by_cases last : rest = []
    · rw [last, List.append_nil] at whole
      rw [← ofElements_elements path, ← whole, ofElements_elements]
      exact .inl rfl
    · have free : ∀ e ∈ rest, Byte.slash ∉ e := fun e mem =>
        slash_notMem_of_mem_elements (whole ▸ List.mem_append_right _ mem)
      have same : elements (dir ++ Byte.slash :: ofElements rest) = elements path := by
        rw [elements_append, elements_ofElements last free, whole]
      refine .inr ⟨ofElements rest, ?_⟩
      rw [← ofElements_elements path, ← same, ofElements_elements]
      simp
  · rintro (rfl | ⟨rest, rfl⟩)
    · exact List.prefix_rfl
    · rw [List.append_assoc, List.singleton_append, elements_append]
      exact List.prefix_append _ _

end Path

namespace Selection

open LuaCompact.Path (IsStep)

theorem splitDepth?_of_plain {pattern : Bytes} (plain : Pattern.hasMeta pattern = false) :
    splitDepth? pattern = none := by
  have absent : Bytes.cut anyDepth pattern = none := by
    rw [Bytes.cut_eq_none_iff (by decide)]
    intro mark
    have inside : Pattern.star ∈ pattern := mark.subset (by decide)
    simp only [Pattern.hasMeta, Pattern.hasWildcard, Bool.or_eq_false_iff,
      List.any_eq_false] at plain
    simpa using plain.1 _ inside
  rw [splitDepth?, absent]
  rfl

/-- A pattern without special characters takes what it is, what lies beneath it and what bears it
as its name. -/
theorem matchesPattern_iff_of_plain {pattern : Bytes} (plain : Pattern.hasMeta pattern = false)
    (path : Bytes) : matchesPattern path pattern ↔ path = pattern ∨
      Bytes.dropEnd [Byte.slash] pattern ++ [Byte.slash] <+: path ∨ Path.base path = pattern := by
  have tame := Pattern.hasWildcard_of_plain plain
  simp only [matchesPattern, splitDepth?_of_plain plain, matchesFlat, tame, Bool.or_eq_true,
    Pattern.admits_iff_of_plain plain, Bool.not_false, Bool.true_and,
    List.isPrefixOf_iff_prefix, or_assoc]

/-- As an exclude pattern, the path of a directory without special characters takes out the
directory with all beneath it, and whatever bears that path as its name. -/
theorem matchesPattern_of_plain {ns : List Bytes} (nonempty : ns ≠ [])
    (steps : ∀ e ∈ ns, IsStep e) (plain : Pattern.hasMeta (Path.ofElements ns) = false)
    (path : Bytes) : matchesPattern path (Path.ofElements ns) ↔
      ns <+: Path.elements path ∨ Path.base path = Path.ofElements ns := by
  have free : ∀ e ∈ ns, Byte.slash ∉ e := fun e mem => (steps e mem).2.2.2
  have bare : Bytes.dropEnd [Byte.slash] (Path.ofElements ns) = Path.ofElements ns := by
    refine if_neg fun ends => ?_
    obtain ⟨dir, whole⟩ := List.isSuffixOf_iff_suffix.mp ends
    have parts := Path.elements_append dir []
    rw [whole, Path.elements_ofElements nonempty free] at parts
    exact (steps [] (by simp [parts, Path.elements])).1 rfl
  have beneath := Path.elements_prefix_iff (Path.ofElements ns) path
  rw [Path.elements_ofElements nonempty free] at beneath
  rw [matchesPattern_iff_of_plain plain, bare, beneath, or_assoc]

/-- An exclude pattern in which every byte stands for itself takes out the path that it is, what
lies beneath it as a directory, with or without a slash at its end, and whatever bears it as its
name. -/
theorem matchesPattern_iff_of_bytes {pattern : Bytes}
    (plain : ∀ b ∈ pattern, b ≠ Pattern.star ∧ b ≠ Pattern.question ∧ b ≠ Byte.openBracket ∧
      b ≠ Byte.backslash) (path : Bytes) :
    matchesPattern path pattern ↔ path = pattern ∨
      Bytes.dropEnd [Byte.slash] pattern ++ [Byte.slash] <+: path ∨ Path.base path = pattern :=
  matchesPattern_iff_of_plain (Pattern.hasMeta_eq_false_iff.mpr plain) path

theorem matchesPattern_directory : matchesPattern (utf8 "café/a.lua") (utf8 "café/") ∧
    ¬ matchesPattern (utf8 "cafés/a.lua") (utf8 "café/") := by
  have plain : ∀ b ∈ utf8 "café/", b ≠ Pattern.star ∧ b ≠ Pattern.question ∧
      b ≠ Byte.openBracket ∧ b ≠ Byte.backslash := List.all_iff_forall_prop.mp (by decide)
  have meaning := matchesPattern_iff_of_bytes plain
  refine ⟨(meaning _).mpr (.inr (.inl ?_)), fun excluded => ?_⟩
  · exact ⟨utf8 "a.lua", by decide⟩
  · rcases (meaning _).mp excluded with same | beneath | named
    · exact absurd same (by decide)
    · exact absurd beneath (by decide)
    · exact absurd named (by decide)

end Selection

end LuaCompact
