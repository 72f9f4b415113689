import LuaCompact.Proofs.Entries

namespace LuaCompact

namespace Bytes

theorem lt_iff (s t : Bytes) : s < t ↔ le s t = true ∧ s ≠ t := by
  induction s generalizing t with
  | nil => cases t <;> simp [le]
  | cons a s ih =>
    cases t with
    | nil => simp [le]
    | cons b t =>
      rw [List.cons_lt_cons_iff, ih, le]
      by_cases same : a = b
      · simp [same]
      · simp [same]

end Bytes

namespace Expand

open Selection (isExcluded matchesPattern)

variable {fs : FileSystem} {base : Bytes}

theorem isExcluded_eq_false_iff {path : Bytes} {exclude : List Bytes} :
    isExcluded path exclude = false ↔ ∀ pattern ∈ exclude, matchesPattern path pattern = false := by
  simp [isExcluded]

theorem isExcluded_congr {path : Bytes} {exclude exclude' : List Bytes}
    (same : ∀ pattern, pattern ∈ exclude' ↔ pattern ∈ exclude) :
    isExcluded path exclude' = isExcluded path exclude := by
  rw [Bool.eq_iff_iff, isExcluded, isExcluded, List.any_eq_true, List.any_eq_true]
  simp only [same]

theorem increasing_includes {include_ exclude paths : List Bytes}
    (ok : includes fs base include_ exclude = .ok paths) : paths.Pairwise (· < ·) :=
  (pairwise_includes ok).imp₂ (fun p q sorted apart => (Bytes.lt_iff p q).mpr ⟨sorted, apart⟩)
    (nodup_includes ok)

/-- Only what is in the lists of patterns counts, not how often or in which order. -/
theorem includes_of_same {include_ exclude include' exclude' paths : List Bytes}
    (ok : includes fs base include_ exclude = .ok paths)
    (same : ∀ pattern, pattern ∈ include' ↔ pattern ∈ include_)
    (same' : ∀ pattern, pattern ∈ exclude' ↔ pattern ∈ exclude) :
    includes fs base include' exclude' = .ok paths := by
  have globs : ∀ pattern ∈ include', ∃ found, glob fs base pattern = .ok found :=
    fun pattern mem => exists_includes_iff.mp ⟨paths, ok⟩ pattern ((same pattern).mp mem)
  obtain ⟨paths', ok'⟩ := exists_includes_iff.mpr globs
  have members (path : Bytes) : path ∈ paths' ↔ path ∈ paths := by
    rw [mem_includes_iff ok', mem_includes_iff ok, isExcluded_congr same']
    simp only [same]
  rw [ok', Bytes.eq_of_mem_iff (pairwise_includes ok') (pairwise_includes ok) (nodup_includes ok')
    (nodup_includes ok) members]

/-- The expansion of include and exclude patterns is a set in byte order. -/
theorem includes_eq_set (fs : FileSystem) (base : Bytes) (include_ exclude : List Bytes) :
    ((∃ e, includes fs base include_ exclude = .error e) ↔
      ∃ pattern ∈ include_, ∃ e, glob fs base pattern = .error e) ∧
    ∀ paths, includes fs base include_ exclude = .ok paths →
      paths.Pairwise (· < ·) ∧
      (∀ path, path ∈ paths ↔
        (∃ pattern ∈ include_, ∃ found, glob fs base pattern = .ok found ∧ path ∈ found) ∧
          ∀ pattern ∈ exclude, matchesPattern path pattern = false) ∧
      ∀ include' exclude', (∀ pattern, pattern ∈ include' ↔ pattern ∈ include_) →
        (∀ pattern, pattern ∈ exclude' ↔ pattern ∈ exclude) →
        includes fs base include' exclude' = .ok paths := by
  have fails {α : Type} (x : Except BadPattern α) : (∃ e, x = .error e) ↔ ¬ ∃ a, x = .ok a := by
    cases x with
    | error e => simpa using ⟨e⟩
    | ok a => simp
  constructor
  · simp only [fails, exists_includes_iff, not_forall, exists_prop]
  · intro paths ok
    refine ⟨increasing_includes ok, fun path => ?_, fun include' exclude' => includes_of_same ok⟩
    rw [mem_includes_iff ok, isExcluded_eq_false_iff]

def twoFiles : FileSystem :=
  ⟨[([utf8 "s"], .directory .zero), ([utf8 "s", utf8 "b"], .file (utf8 "x = 1\n") .zero),
    ([utf8 "s", utf8 "a"], .file (utf8 "y = 2\n") .zero)], [], .zero⟩

theorem includes_eq_set_twoFiles :
    includes twoFiles (utf8 "s") [utf8 "b", utf8 "**", utf8 "?"] [utf8 "c*"] =
        .ok [utf8 "a", utf8 "b"] ∧
      [utf8 "a", utf8 "b"].Pairwise (· < ·) ∧
      includes twoFiles (utf8 "s") [utf8 "?", utf8 "b", utf8 "**", utf8 "b"]
        [utf8 "c*", utf8 "c*"] = .ok [utf8 "a", utf8 "b"] := by
  have ok : includes twoFiles (utf8 "s") [utf8 "b", utf8 "**", utf8 "?"] [utf8 "c*"] =
      .ok [utf8 "a", utf8 "b"] := by cbv
  have set := (includes_eq_set twoFiles (utf8 "s") [utf8 "b", utf8 "**", utf8 "?"]
    [utf8 "c*"]).2 _ ok
  refine ⟨ok, set.1, set.2.2 _ _ (fun pattern => ?_) fun pattern => ?_⟩
  · simp only [List.mem_cons, List.not_mem_nil, or_false]
    tauto
  · simp

end Expand

end LuaCompact
