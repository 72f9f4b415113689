import LuaCompact.Build
import LuaCompact.Proofs.Expansion

namespace LuaCompact

namespace Bytes

theorem le_total (s t : Bytes) : le s t || le t s := by
  induction s generalizing t with
  | nil => simp [le]
  | cons a s ih =>
    cases t with
    | nil => simp [le]
    | cons b t =>
      by_cases same : a = b
      · simpa [le, same] using ih t
      · have lt := UInt8.lt_or_lt_of_ne same
        simpa [le, same, Ne.symm same] using lt

theorem le_trans (s t u : Bytes) (h : le s t) (h' : le t u) : le s u := by
  induction s generalizing t u with
  | nil => simp [le]
  | cons a s ih =>
    cases t with
    | nil => simp [le] at h
    | cons b t =>
      cases u with
      | nil => simp [le] at h'
      | cons c u =>
        simp only [le] at h h' ⊢
        by_cases ab : a = b
        · subst ab
          by_cases bc : a = c
          · simp only [bc, if_true] at h h' ⊢
            exact ih t u h h'
          · simpa [bc] using h'
        · by_cases bc : b = c
          · subst bc
            simpa [ab] using h
          · simp only [ab, bc, if_false, decide_eq_true_eq] at h h'
            have ac := UInt8.lt_trans h h'
            simp [UInt8.ne_of_lt ac, ac]

theorem le_antisymm (s t : Bytes) (h : le s t) (h' : le t s) : s = t := by
  induction s generalizing t with
  | nil =>
    cases t with
    | nil => rfl
    | cons => simp [le] at h'
  | cons a s ih =>
    cases t with
    | nil => simp [le] at h
    | cons b t =>
      by_cases same : a = b
      · subst same
        simp only [le, if_true] at h h'
        rw [ih t h h']
      · simp only [le, same, Ne.symm same, if_false, decide_eq_true_eq] at h h'
        exact absurd h' (UInt8.lt_asymm h)

/-- A sorted list without repetitions is known by its members. -/
theorem eq_of_mem_iff {l l' : List Bytes} (sorted : l.Pairwise fun s t => le s t = true)
    (sorted' : l'.Pairwise fun s t => le s t = true) (distinct : l.Nodup) (distinct' : l'.Nodup)
    (same : ∀ s, s ∈ l ↔ s ∈ l') : l = l' := by
  have perm := (List.perm_ext_iff_of_nodup distinct distinct').mpr same
  exact perm.eq_of_pairwise (fun s t _ _ => le_antisymm s t) sorted sorted'

end Bytes

theorem nodup_eraseDups {α : Type} [BEq α] [LawfulBEq α] (l : List α) : l.eraseDups.Nodup := by
  induction h : l.length using Nat.strong_induction_on generalizing l with
  | _ n ih =>
    cases l with
    | nil => simp
    | cons a l =>
      rw [List.eraseDups_cons, List.nodup_cons]
      constructor
      · simp [List.mem_eraseDups]
      · refine ih _ ?_ _ rfl
        have := List.length_filter_le (fun b => !b == a) l
        simp only [List.length_cons] at h
        omega

namespace Path

/-- By their texts alone, a path leads to a directory or beneath it. -/
def Beneath (dir path : Bytes) : Prop :=
  isRooted path = isRooted dir ∧ ∃ ns, (∀ e ∈ ns, IsStep e) ∧ route path = route dir ++ ns

theorem beneath_text {dir : Bytes} {ns : List Bytes} (steps : ∀ e ∈ ns, IsStep e) :
    Beneath dir (text (isRooted dir) (route dir ++ ns)) := by
  have h := (isRoute_route dir).append steps
  exact ⟨isRooted_text h, ns, steps, route_text h⟩

theorem Beneath.trans {dir path q : Bytes} (h : Beneath dir path) (h' : Beneath path q) :
    Beneath dir q := by
  obtain ⟨root, ns, steps, whole⟩ := h
  obtain ⟨root', ns', steps', whole'⟩ := h'
  refine ⟨root'.trans root, ns ++ ns', ?_, by rw [whole', whole, List.append_assoc]⟩
  intro e mem
  exact (List.mem_append.mp mem).elim (steps e) (steps' e)

theorem locate_of_route {dir path : Bytes} (root : isRooted path = isRooted dir) {ns : List Bytes}
    (steps : ∀ e ∈ ns, IsStep e) (whole : route path = route dir ++ ns) (cwd : Location) :
    locate cwd path = locate cwd dir ++ ns := by
  rw [locate_eq_follow_route, locate_eq_follow_route, root, whole, follow_append,
    follow_steps _ steps]

end Path

namespace Expand

open LuaCompact.Path (IsStep Beneath Descends locate)

/-- Whether what a pattern stands for lies beneath a directory, by the texts alone. Before the
any-depth mark the pattern must not lead out; without such a mark the pattern must not lead out, and
the directory must have a name that a pattern takes as it is written. -/
def Inward (base pattern : Bytes) : Prop :=
  match Selection.splitDepth? pattern with
  | some (before, _) => before = [] ∨ Beneath base (Path.join base before)
  | none => Pattern.hasMeta (Path.clean base) = false ∧ Beneath base (Path.join base pattern)

theorem Covers.beneath {base path q : Bytes} (h : Covers path q) (inside : Beneath base path) :
    Beneath base q := by
  rcases h with ⟨_, rfl | ⟨goal, reaches, rfl⟩⟩
  · exact inside
  · obtain ⟨ns, _, steps, rfl⟩ := reaches.exists_append
    exact inside.trans (Path.beneath_text steps)

/-- What is written before the first character that stands for more than itself is matched by
itself. -/
theorem Matches.exists_append {rooted : Bool} {es ns ms : List Bytes}
    (h : Matches rooted (es ++ ns) ms) (plain : Pattern.hasMeta (Path.text rooted es) = false)
    (steps : ∀ e ∈ ns, IsStep e) : ∃ ns', (∀ e ∈ ns', IsStep e) ∧ ms = es ++ ns' := by
  induction ns using List.reverseRecOn generalizing ms with
  | nil =>
    rw [List.append_nil] at h
    obtain ⟨rfl, _⟩ := (matches_iff_of_plain plain).mp h
    exact ⟨[], by simp, by simp⟩
  | append_singleton ns e ih =>
    by_cases wild : Pattern.hasMeta (Path.text rooted (es ++ (ns ++ [e]))) = true
    · rw [← List.append_assoc] at h wild
      obtain ⟨ds, name, above, _, isStep, _, rfl⟩ := (matches_iff_of_wild wild).mp h
      obtain ⟨ns', steps', rfl⟩ := ih above fun e' mem => steps e' (List.mem_append_left [e] mem)
      refine ⟨ns' ++ [name], ?_, by simp⟩
      intro e' mem
      rcases List.mem_append.mp mem with mem | mem
      · exact steps' e' mem
      · exact List.mem_singleton.mp mem ▸ isStep
    · obtain ⟨rfl, _⟩ := (matches_iff_of_plain (by simpa using wild)).mp h
      exact ⟨ns ++ [e], steps, rfl⟩

theorem StandsFor.beneath {base pattern q : Bytes} (h : StandsFor base pattern q)
    (inward : Inward base pattern) : Beneath base q := by
  have itself : Beneath base base := ⟨rfl, [], by simp, by simp⟩
  cases marked : Selection.splitDepth? pattern with
  | some parts =>
    obtain ⟨before, after⟩ := parts
    simp only [StandsFor, Inward, marked] at h inward
    refine h.1.beneath ?_
    split
    next => exact itself
    next named => exact inward.resolve_left named
  | none =>
    simp only [StandsFor, Inward, marked] at h inward
    obtain ⟨ms, fits, covers⟩ := h
    obtain ⟨plain, _, ns, steps, whole⟩ := inward
    rw [whole] at fits
    rw [Path.clean_eq_text] at plain
    obtain ⟨ns', steps', rfl⟩ := fits.exists_append plain steps
    exact covers.beneath (Path.beneath_text steps')

/-- A path is kept once, where it is first found. -/
theorem foldl_keep (exclude found : List Bytes) : found.foldl (keep exclude) [] =
    (found.filter fun path => !Selection.isExcluded path exclude).eraseDups := by
  induction found using List.reverseRecOn with
  | nil => rfl
  | append_singleton found path ih =>
    rw [List.foldl_concat, ih, keep, List.filter_append, List.eraseDups_append]
    by_cases taken : Selection.isExcluded path exclude
    · simp [taken]
    · by_cases old : path ∈ found
      · simp [taken, old, List.removeAll]
      · simp [taken, old, List.removeAll, List.eraseDups_cons]

theorem foldlM_keep (fs : FileSystem) (base : Bytes) (include_ exclude kept : List Bytes) :
    include_.foldlM (fun kept pattern => do
      let found ← glob fs base pattern
      return found.foldl (keep exclude) kept) kept =
    (include_.mapM (glob fs base)).map fun found => found.flatten.foldl (keep exclude) kept := by
  induction include_ generalizing kept with
  | nil => rfl
  | cons pattern include_ ih =>
    rw [List.foldlM_cons, List.mapM_cons]
    cases glob fs base pattern with
    | error => rfl
    | ok found =>
      simp only [bind, Except.bind, pure, Except.pure] at ih ⊢
      rw [ih]
      cases include_.mapM (glob fs base) with
      | error => rfl
      | ok rest => simp [Except.map, List.foldl_append]

theorem includes_eq (fs : FileSystem) (base : Bytes) (include_ exclude : List Bytes) :
    includes fs base include_ exclude = (include_.mapM (glob fs base)).map fun found =>
      (found.flatten.filter fun path => !Selection.isExcluded path exclude).eraseDups.mergeSort
        Bytes.le := by
  rw [includes, foldlM_keep]
  cases include_.mapM (glob fs base) with
  | error => rfl
  | ok found => simp [Except.map, bind, Except.bind, pure, Except.pure, foldl_keep]

theorem includes_eq_ok {fs : FileSystem} {base : Bytes} {include_ exclude paths : List Bytes}
    (ok : includes fs base include_ exclude = .ok paths) :
    ∃ found, include_.mapM (glob fs base) = .ok found ∧
      paths = (found.flatten.filter fun path =>
        !Selection.isExcluded path exclude).eraseDups.mergeSort Bytes.le := by
  rw [includes_eq] at ok
  cases each : include_.mapM (glob fs base) with
  | error => simp [each, Except.map] at ok
  | ok found =>
    simp only [each, Except.map, Except.ok.injEq] at ok
    exact ⟨found, rfl, ok.symm⟩

theorem nodup_includes {fs : FileSystem} {base : Bytes} {include_ exclude paths : List Bytes}
    (ok : includes fs base include_ exclude = .ok paths) : paths.Nodup := by
  obtain ⟨found, _, rfl⟩ := includes_eq_ok ok
  exact (List.mergeSort_perm _ _).nodup_iff.mpr (nodup_eraseDups _)

theorem pairwise_includes {fs : FileSystem} {base : Bytes} {include_ exclude paths : List Bytes}
    (ok : includes fs base include_ exclude = .ok paths) :
    paths.Pairwise fun p q => Bytes.le p q = true := by
  obtain ⟨found, _, rfl⟩ := includes_eq_ok ok
  exact List.pairwise_mergeSort Bytes.le_trans Bytes.le_total _

theorem exists_includes_iff {fs : FileSystem} {base : Bytes} {include_ exclude : List Bytes} :
    (∃ paths, includes fs base include_ exclude = .ok paths) ↔
      ∀ pattern ∈ include_, ∃ found, glob fs base pattern = .ok found := by
  constructor
  · rintro ⟨paths, ok⟩ pattern mem
    obtain ⟨found, each, -⟩ := includes_eq_ok ok
    exact exists_ok_of_mapM each mem
  · intro globs
    obtain ⟨found, each⟩ := exists_mapM globs
    rw [includes_eq, each]
    exact ⟨_, rfl⟩

theorem mem_includes_iff {fs : FileSystem} {base : Bytes} {include_ exclude paths : List Bytes}
    (ok : includes fs base include_ exclude = .ok paths) {path : Bytes} :
    path ∈ paths ↔
      (∃ pattern ∈ include_, ∃ found, glob fs base pattern = .ok found ∧ path ∈ found) ∧
        Selection.isExcluded path exclude = false := by
  obtain ⟨found, each, rfl⟩ := includes_eq_ok ok
  rw [List.mem_mergeSort, List.mem_eraseDups, List.mem_filter, mem_flatten_of_mapM each,
    Bool.not_eq_true']

theorem mem_includes {fs : FileSystem} (tree : fs.IsTree) {base : Bytes} {time : Time}
    (opened : fs.lookup .target base = .ok (.directory time))
    {include_ exclude paths : List Bytes} (ok : includes fs base include_ exclude = .ok paths)
    {p : Bytes} : p ∈ paths ↔ (∃ pattern ∈ include_, ∃ q, StandsFor base pattern q ∧
      fs.IsFile (locate fs.cwd q) ∧ Path.relative? base q = some p) ∧
      Selection.isExcluded p exclude = false := by
  rw [mem_includes_iff ok]
  constructor
  · rintro ⟨⟨pattern, mem, list, listed, inside⟩, kept⟩
    exact ⟨⟨pattern, mem, (mem_glob tree opened listed).mp inside⟩, kept⟩
  · rintro ⟨⟨pattern, mem, hit⟩, kept⟩
    obtain ⟨list, listed⟩ := exists_includes_iff.mp ⟨paths, ok⟩ pattern mem
    exact ⟨⟨pattern, mem, list, listed, (mem_glob tree opened listed).mpr hit⟩, kept⟩

end Expand

namespace Build

open LuaCompact.Path (Descends locate)
open Expand (Inward)

theorem select_of_directory {fs : FileSystem} {src : Bytes} {time : Time}
    (opened : fs.lookup .target src = .ok (.directory time)) (out : Bytes)
    (include_ exclude : List Bytes) : select fs src out include_ exclude =
      (Expand.includes fs src include_ (withOwnOutput src out exclude)).mapError .badPattern := by
  simp [select, FileSystem.stat, opened, Except.mapError, Node.isDirectory]

theorem select_eq_ok_iff {fs : FileSystem} {src out : Bytes} {include_ exclude paths : List Bytes} :
    select fs src out include_ exclude = .ok paths ↔
      (∃ time, fs.lookup .target src = .ok (.directory time)) ∧
        Expand.includes fs src include_ (withOwnOutput src out exclude) = .ok paths := by
  match opened : fs.lookup .target src with
  | .error _ => simp [select, FileSystem.stat, opened, Except.mapError]
  | .ok (.file _ _) => simp [select, FileSystem.stat, opened, Except.mapError, Node.isDirectory]
  | .ok (.link _) => simp [select, FileSystem.stat, opened, Except.mapError, Node.isDirectory]
  | .ok (.directory time) =>
    rw [select_of_directory opened]
    cases Expand.includes fs src include_ (withOwnOutput src out exclude) <;> simp [Except.mapError]

/-- Where all patterns lead inward, the selected paths lead down to files of the source
directory. -/
theorem descends_of_mem_select {fs : FileSystem} (tree : fs.IsTree) {src out : Bytes}
    {include_ exclude paths : List Bytes} (inward : ∀ pattern ∈ include_, Inward src pattern)
    (selected : select fs src out include_ exclude = .ok paths) {p : Bytes} (mem : p ∈ paths) :
    Descends p ∧ fs.IsFile (locate fs.cwd src ++ Path.elements p) := by
  obtain ⟨⟨time, opened⟩, ok⟩ := select_eq_ok_iff.mp selected
  obtain ⟨⟨pattern, written, q, stands, file, rel⟩, _⟩ :=
    (Expand.mem_includes tree opened ok).mp mem
  obtain ⟨root, ns, steps, whole⟩ := stands.beneath (inward pattern written)
  rw [Path.locate_of_route root steps whole] at file
  have nonempty : ns ≠ [] := by
    rintro rfl
    obtain ⟨content, time, file⟩ := file
    simp [(tree.lookup_eq_ok opened).2] at file
  rw [Path.relative?_of_route root.symm nonempty whole] at rel
  cases Option.some.inj rel
  have same : Path.elements (Path.ofElements ns) = ns :=
    Path.elements_ofElements nonempty fun e mem => (steps e mem).2.2.2
  exact ⟨Path.descends_ofElements nonempty steps, same.symm ▸ file⟩

end Build

end LuaCompact
