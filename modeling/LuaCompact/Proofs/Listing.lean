import LuaCompact.Proofs.Expansion
import LuaCompact.Proofs.PlainPattern
import Mathlib

namespace LuaCompact

namespace Pattern

theorem hasMeta_of_subset {s t : Bytes} (sub : s ⊆ t) (plain : hasMeta t = false) :
    hasMeta s = false :=
  hasMeta_eq_false_iff.mpr fun b mem => hasMeta_eq_false_iff.mp plain b (sub mem)

end Pattern

namespace Path

theorem subset_ofElements {es : List Bytes} {e : Bytes} (mem : e ∈ es) : e ⊆ ofElements es := by
  obtain ⟨first, es, rfl⟩ := List.exists_cons_of_ne_nil (List.ne_nil_of_mem mem)
  rw [ofElements, intercalate_cons_eq]
  intro b inside
  rcases List.mem_cons.mp mem with rfl | mem
  · exact List.mem_append_left _ inside
  · exact List.mem_append_right _ (List.mem_flatMap.mpr ⟨e, mem, by simp [inside]⟩)

theorem subset_text (rooted : Bool) {es : List Bytes} {e : Bytes} (mem : e ∈ es) :
    e ⊆ text rooted es := by
  rw [text, if_neg (List.ne_nil_of_mem mem)]
  split
  next => exact List.subset_cons_of_subset _ (subset_ofElements mem)
  next => exact subset_ofElements mem

theorem join_of_descends (dir : Bytes) {path : Bytes} (down : Descends path) :
    join dir path = text (isRooted dir) (route dir ++ elements path) := by
  by_cases unnamed : dir = []
  · subst unnamed
    have kept : route path = elements path := by
      rw [route, down.isRooted, foldl_push_steps _ _ down]
      simp
    rw [join, if_pos rfl, if_neg down.ne_nil, clean_eq_text, down.isRooted, kept]
    rfl
  · rw [join_eq_text unnamed, route_join_of_descends unnamed down]

theorem relative?_text (dir : Bytes) {ns : List Bytes} (nonempty : ns ≠ [])
    (steps : ∀ e ∈ ns, IsStep e) :
    relative? dir (text (isRooted dir) (route dir ++ ns)) = some (ofElements ns) := by
  have h := (isRoute_route dir).append steps
  exact relative?_of_route (isRooted_text h).symm nonempty (route_text h)

theorem base_append {name : Bytes} (isStep : IsStep name) {dir : Bytes}
    (slashed : dir = [] ∨ ∃ above, dir = above ++ [Byte.slash]) : base (dir ++ name) = name := by
  have bare : ((dir ++ name).reverse.dropWhile (· == Byte.slash)).reverse = dir ++ name := by
    obtain ⟨front, b, rfl⟩ := List.eq_nil_or_concat name |>.resolve_left isStep.1
    have other : b ≠ Byte.slash := fun same => isStep.2.2.2 (by simp [same])
    simp [other]
  have last : (split (dir ++ name)).2 = name := by
    rcases slashed with rfl | ⟨above, rfl⟩
    · rw [List.nil_append, split_of_notMem isStep.2.2.2]
    · rw [List.append_assoc, List.singleton_append, split_append above isStep.2.2.2]
  rw [base, if_neg (by simp [isStep.1])]
  simp only [bare, last]
  exact if_neg isStep.1

theorem base_text (rooted : Bool) (es : List Bytes) {name : Bytes} (isStep : IsStep name) :
    base (text rooted (es ++ [name])) = name := by
  by_cases slashed : es ≠ [] ∨ rooted = true
  · have whole := text_concat slashed name
    rw [whole, List.append_cons]
    exact base_append isStep (.inr ⟨_, rfl⟩)
  · simp only [not_or, Decidable.not_not, Bool.not_eq_true] at slashed
    rw [slashed.1, slashed.2, text_singleton]
    exact base_append isStep (.inl rfl)

end Path

namespace FileSystem

open LuaCompact.Path (IsStep)

/-- Every entry lies under names that lead down. -/
def Named (fs : FileSystem) : Prop := ∀ entry ∈ fs.nodes, ∀ name ∈ entry.1, IsStep name

instance (fs : FileSystem) : Decidable fs.Named :=
  inferInstanceAs (Decidable (∀ entry ∈ fs.nodes, ∀ name ∈ entry.1, IsStep name))

/-- Whether a path leads to something that is not a directory. -/
def endsAtFile (fs : FileSystem) (path : Bytes) : Bool :=
  match fs.lookup .target path with
  | .ok node => !node.isDirectory
  | .error _ => false

theorem ne_nil_of_mem_list {fs : FileSystem} {path name : Bytes} {node : Node}
    (mem : (name, node) ∈ fs.list path) : path ≠ [] := by
  rintro rfl
  simp [list, resolve] at mem

theorem Named.isStep_of_mem_list {fs : FileSystem} (named : fs.Named) {path name : Bytes}
    {node : Node} (mem : (name, node) ∈ fs.list path) : IsStep name := by
  unfold list at mem
  split at mem
  next loc time _ =>
    simp only [children, List.mem_mergeSort, List.mem_filterMap] at mem
    obtain ⟨⟨l, held⟩, entry, found⟩ := mem
    cases last : l.getLast? with
    | none => simp [last] at found
    | some final =>
      simp only [last, Option.ite_none_right_eq_some, Option.some.injEq, Prod.mk.injEq] at found
      obtain ⟨-, rfl, -⟩ := found
      exact named _ entry _ (List.mem_of_getLast? last)
  next => contradiction

end FileSystem

namespace Expand

open LuaCompact.Path (IsStep IsRoute)

variable {fs : FileSystem} (named : fs.Named)

include named

/-- What a listing finds lies beneath the directory, by the texts alone. -/
theorem exists_of_mem_filesBeneath {depth : Nat} {path q : Bytes}
    (mem : q ∈ filesBeneath fs depth path) :
    ∃ ns, ns ≠ [] ∧ (∀ e ∈ ns, IsStep e) ∧
      q = Path.text (Path.isRooted path) (Path.route path ++ ns) := by
  induction depth generalizing path with
  | zero => contradiction
  | succ depth ih =>
    rw [filesBeneath, List.mem_flatMap] at mem
    obtain ⟨⟨name, node⟩, listed, inside⟩ := mem
    have isStep := named.isStep_of_mem_list listed
    have joined := Path.join_of_isStep (FileSystem.ne_nil_of_mem_list listed) isStep
    cases node with
    | link => contradiction
    | file content time =>
      cases List.mem_singleton.mp inside
      exact ⟨[name], by simp, by simpa using isStep, joined⟩
    | directory time =>
      obtain ⟨ns, -, steps, same⟩ := ih inside
      have h : IsRoute (Path.isRooted path) (Path.route path ++ [name]) :=
        (Path.isRoute_route path).append (by simpa using isStep)
      rw [joined, Path.isRooted_text h, Path.route_text h, List.append_assoc] at same
      exact ⟨name :: ns, by simp, List.forall_mem_cons.mpr ⟨isStep, steps⟩, same⟩

theorem eq_or_exists_of_mem_files {path q : Bytes} (mem : q ∈ files fs path) :
    (q = path ∧ fs.endsAtFile path = true) ∨ ∃ ns, ns ≠ [] ∧ (∀ e ∈ ns, IsStep e) ∧
      q = Path.text (Path.isRooted path) (Path.route path ++ ns) := by
  unfold files at mem
  split at mem
  next => contradiction
  next node found =>
    split at mem
    next =>
      split at mem
      next => exact .inr (exists_of_mem_filesBeneath named mem)
      next => contradiction
    next other =>
      refine .inl ⟨List.mem_singleton.mp mem, ?_⟩
      rw [FileSystem.endsAtFile, found]
      simpa using other

theorem exists_of_mem_inDirectory {rooted : Bool} {es : List Bytes} (h : IsRoute rooted es)
    {pattern : Bytes} {found : List Bytes}
    (ok : inDirectory fs (Path.text rooted es) pattern = .ok found) {q : Bytes} (mem : q ∈ found) :
    ∃ name, Pattern.admits pattern name ∧ IsStep name ∧ q = Path.text rooted (es ++ [name]) := by
  unfold inDirectory at ok
  simp only at ok
  split at ok
  next => contradiction
  next =>
    cases Except.ok.inj ok
    simp only [List.mem_map, List.mem_filter] at mem
    obtain ⟨name, ⟨⟨⟨_, node⟩, listed, rfl⟩, admits⟩, rfl⟩ := mem
    have isStep := named.isStep_of_mem_list listed
    refine ⟨_, admits, isStep, ?_⟩
    rw [Path.join_of_isStep (Path.text_ne_nil h) isStep, Path.isRooted_text h, Path.route_text h]

omit named in
theorem eq_of_mem_paths_of_plain {pattern : Bytes} (plain : Pattern.hasMeta pattern = false)
    {found : List Bytes} (ok : paths fs pattern = .ok found) {q : Bytes} (mem : q ∈ found) :
    q = pattern := by
  rw [paths] at ok
  split at ok
  next => contradiction
  next =>
    simp only [plain, Bool.not_false, if_true] at ok
    split at ok
    next =>
      cases Except.ok.inj ok
      exact List.mem_singleton.mp mem
    next =>
      cases Except.ok.inj ok
      contradiction

/-- Below a path without special characters a pattern finds what its elements match one by one. -/
theorem exists_of_mem_paths {rooted : Bool} {bs ns : List Bytes} (h : IsRoute rooted bs)
    (plain : Pattern.hasMeta (Path.text rooted bs) = false) (steps : ∀ e ∈ ns, IsStep e)
    {found : List Bytes} (ok : paths fs (Path.text rooted (bs ++ ns)) = .ok found) {q : Bytes}
    (mem : q ∈ found) :
    ∃ names, List.Forall₂ (fun e name => Pattern.admits e name) ns names ∧
      (∀ name ∈ names, IsStep name) ∧ q = Path.text rooted (bs ++ names) := by
  have itself {ns : List Bytes} (plain : Pattern.hasMeta (Path.text rooted (bs ++ ns)) = false) :
      List.Forall₂ (fun e name => Pattern.admits e name) ns ns := by
    refine List.forall₂_same.mpr fun e mem => ?_
    have inside := Path.subset_text rooted (List.mem_append_right bs mem)
    exact (Pattern.admits_iff_of_plain (Pattern.hasMeta_of_subset inside plain)).mpr rfl
  induction ns using List.reverseRecOn generalizing found q with
  | nil =>
    rw [List.append_nil] at ok
    refine ⟨[], .nil, by simp, ?_⟩
    rw [List.append_nil]
    exact eq_of_mem_paths_of_plain plain ok mem
  | append_singleton ns e ih =>
    have above : ∀ e' ∈ ns, IsStep e' := fun e' inside => steps e' (List.mem_append_left [e] inside)
    -- What is found in a directory adds one name to those that lead to it.
    have further {names list : List Bytes}
        (fits : List.Forall₂ (fun e name => Pattern.admits e name) ns names)
        (down : ∀ name ∈ names, IsStep name)
        (listed : inDirectory fs (Path.text rooted (bs ++ names)) e = .ok list) (mem : q ∈ list) :
        ∃ names, List.Forall₂ (fun e name => Pattern.admits e name) (ns ++ [e]) names ∧
          (∀ name ∈ names, IsStep name) ∧ q = Path.text rooted (bs ++ names) := by
      obtain ⟨name, admits, isStep, rfl⟩ :=
        exists_of_mem_inDirectory named (h.append down) listed mem
      refine ⟨names ++ [name], List.rel_append fits (.cons admits .nil), ?_, by simp⟩
      exact List.forall_mem_append.mpr ⟨down, by simpa using isStep⟩
    by_cases wild : Pattern.hasMeta (Path.text rooted (bs ++ (ns ++ [e]))) = true
    · have isRoute := h.append steps
      rw [← List.append_assoc] at ok wild isRoute
      rcases paths_of_wild isRoute wild ok with ⟨tame, listed⟩ | ⟨dirs, lists, deeper, each, rfl⟩
      · exact further (itself tame) above listed mem
      · obtain ⟨dir, inside, list, listed, mem⟩ := (mem_flatten_of_mapM each).mp mem
        obtain ⟨names, fits, down, rfl⟩ := ih above deeper inside
        exact further fits down listed mem
    · have tame : Pattern.hasMeta (Path.text rooted (bs ++ (ns ++ [e]))) = false := by
        simpa using wild
      exact ⟨ns ++ [e], itself tame, steps, eq_of_mem_paths_of_plain tame ok mem⟩

end Expand

end LuaCompact
