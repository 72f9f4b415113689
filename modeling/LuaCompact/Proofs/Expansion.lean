import LuaCompact.Expand
import LuaCompact.Proofs.Tree

namespace LuaCompact

theorem mapM_eq_ok_iff {α β ε : Type} {f : α → Except ε β} {xs : List α} {ys : List β} :
    xs.mapM f = .ok ys ↔ List.Forall₂ (fun x y => f x = .ok y) xs ys := by
  induction xs generalizing ys with
  | nil => cases ys <;> simp [pure, Except.pure]
  | cons x xs ih =>
    rw [List.mapM_cons]
    cases first : f x with
    | error e => cases ys <;> simp [bind, Except.bind, first]
    | ok y =>
      cases rest : xs.mapM f with
      | error e => cases ys <;> simp [bind, Except.bind, ← ih, rest]
      | ok zs => cases ys <;> simp [bind, Except.bind, pure, Except.pure, first, ← ih, rest]

/-- What the lists hold that were made of the items of a list. -/
theorem mem_flatten_of_mapM {α β ε : Type} {f : α → Except ε (List β)} {xs : List α}
    {ys : List (List β)} (h : xs.mapM f = .ok ys) {b : β} :
    b ∈ ys.flatten ↔ ∃ x ∈ xs, ∃ y, f x = .ok y ∧ b ∈ y := by
  induction xs generalizing ys with
  | nil =>
    rw [mapM_eq_ok_iff, List.forall₂_nil_left_iff] at h
    simp [h]
  | cons x xs ih =>
    obtain ⟨y, zs, first, rest, rfl⟩ := List.forall₂_cons_left_iff.mp (mapM_eq_ok_iff.mp h)
    rw [List.flatten_cons, List.mem_append, ih (mapM_eq_ok_iff.mpr rest)]
    simp [first]

theorem exists_ok_of_mapM {α β ε : Type} {f : α → Except ε β} {xs : List α} {ys : List β}
    (h : xs.mapM f = .ok ys) {x : α} (mem : x ∈ xs) : ∃ y, f x = .ok y := by
  induction xs generalizing ys with
  | nil => simp at mem
  | cons first xs ih =>
    obtain ⟨y, zs, ok, rest, rfl⟩ := List.forall₂_cons_left_iff.mp (mapM_eq_ok_iff.mp h)
    rcases List.mem_cons.mp mem with rfl | mem
    · exact ⟨y, ok⟩
    · exact ih (mapM_eq_ok_iff.mpr rest) mem

theorem exists_mapM {α β ε : Type} {f : α → Except ε β} {xs : List α}
    (each : ∀ x ∈ xs, ∃ y, f x = .ok y) : ∃ ys, xs.mapM f = .ok ys := by
  simp only [mapM_eq_ok_iff]
  induction xs with
  | nil => exact ⟨[], .nil⟩
  | cons x xs ih =>
    obtain ⟨y, first⟩ := each x List.mem_cons_self
    obtain ⟨ys, rest⟩ := ih fun x' mem => each x' (List.mem_cons_of_mem x mem)
    exact ⟨y :: ys, .cons first rest⟩

namespace Expand

open LuaCompact.Path (IsStep IsRoute locate)
open FileSystem (Usable)

/-- How the elements of a pattern stand for those of a path: as they are, if all that is written
stands for itself; otherwise one by one, in directories that can be opened. -/
inductive Matches (rooted : Bool) : List Bytes → List Bytes → Prop
  | plain {es} : Pattern.hasMeta (Path.text rooted es) = false → Usable (Path.text rooted es) →
    Matches rooted es es
  | wild {es ms e name} : Pattern.hasMeta (Path.text rooted (es ++ [e])) = true →
    Matches rooted es ms → Usable (Path.text rooted ms) → IsStep name → Pattern.admits e name →
    Matches rooted (es ++ [e]) (ms ++ [name])

theorem Matches.isRoute {rooted : Bool} {es ms : List Bytes} (h : Matches rooted es ms)
    (isRoute : IsRoute rooted es) : IsRoute rooted ms := by
  induction h with
  | plain => exact isRoute
  | wild _ _ _ isStep _ ih => exact (ih isRoute.of_append).append (by simpa using isStep)

theorem matches_iff_of_plain {rooted : Bool} {es ms : List Bytes}
    (plain : Pattern.hasMeta (Path.text rooted es) = false) :
    Matches rooted es ms ↔ ms = es ∧ Usable (Path.text rooted es) := by
  constructor
  · rintro (⟨_, usable⟩ | ⟨wild, _⟩)
    · exact ⟨rfl, usable⟩
    · simp [plain] at wild
  · rintro ⟨rfl, usable⟩
    exact .plain plain usable

theorem matches_iff_of_wild {rooted : Bool} {es ms : List Bytes} {e : Bytes}
    (wild : Pattern.hasMeta (Path.text rooted (es ++ [e])) = true) :
    Matches rooted (es ++ [e]) ms ↔ ∃ ds name, Matches rooted es ds ∧ Usable (Path.text rooted ds) ∧
      IsStep name ∧ Pattern.admits e name ∧ ms = ds ++ [name] := by
  constructor
  · intro h
    generalize whole : es ++ [e] = pattern at h
    cases h with
    | plain plain => simp [← whole, wild] at plain
    | wild _ dir usable isStep admits =>
      obtain ⟨rfl, same⟩ := List.append_inj' whole rfl
      cases same
      exact ⟨_, _, dir, usable, isStep, admits, rfl⟩
  · rintro ⟨ds, name, dir, usable, isStep, admits, rfl⟩
    exact .wild wild dir usable isStep admits

theorem patternDirectory_text {rooted : Bool} {es : List Bytes} {e : Bytes}
    (h : IsRoute rooted (es ++ [e])) :
    patternDirectory (Path.text rooted (es ++ [e])) = Path.text rooted es := by
  have free : Byte.slash ∉ e := h.slash_notMem (by simp)
  by_cases slashed : es ≠ [] ∨ rooted = true
  · rw [Path.text_concat slashed, patternDirectory, Path.split_append _ free]
    by_cases first : es = []
    · have root : rooted = true := slashed.resolve_left fun some => some first
      simp [first, root, Path.text, Path.ofElements]
    · simp [first, Path.text_ne_nil h.of_append]
  · simp only [not_or, Decidable.not_not, Bool.not_eq_true] at slashed
    rw [slashed.1, slashed.2, Path.text_singleton, patternDirectory, Path.split_of_notMem free]
    rfl

theorem length_text_lt {rooted : Bool} {es : List Bytes} (nonempty : es ≠ []) (e : Bytes) :
    (Path.text rooted es).length < (Path.text rooted (es ++ [e])).length := by
  rw [Path.text_concat (.inl nonempty), if_neg nonempty]
  simp

/-- How a listing leads from the elements of a directory to those of an entry beneath it, through
directories that can be opened. -/
inductive Reaches (rooted : Bool) : List Bytes → List Bytes → Prop
  | entry {es name} : IsStep name → Reaches rooted es (es ++ [name])
  | further {es name goal} : IsStep name → Usable (Path.text rooted (es ++ [name])) →
    Reaches rooted (es ++ [name]) goal → Reaches rooted es goal

theorem Reaches.exists_append {rooted : Bool} {es goal : List Bytes} (h : Reaches rooted es goal) :
    ∃ ns, ns ≠ [] ∧ (∀ e ∈ ns, IsStep e) ∧ goal = es ++ ns := by
  induction h with
  | @entry es name isStep => exact ⟨[name], by simp, by simpa using isStep, rfl⟩
  | @further es name goal isStep _ _ ih =>
    obtain ⟨ns, _, steps, rfl⟩ := ih
    refine ⟨name :: ns, by simp, ?_, by simp⟩
    intro e mem
    rcases List.mem_cons.mp mem with rfl | mem
    · exact isStep
    · exact steps e mem

/-- A path and what a listing can find beneath it. -/
def Covers (path q : Bytes) : Prop :=
  Usable path ∧ (q = path ∨ ∃ goal, Reaches (Path.isRooted path) (Path.route path) goal ∧
    q = Path.text (Path.isRooted path) goal)

/-- The paths that a pattern stands for, whether they exist or not. -/
def StandsFor (base pattern q : Bytes) : Prop :=
  match Selection.splitDepth? pattern with
  | some (before, after) =>
    let start := if before = [] then base else Path.join base before
    Covers start q ∧ (after = [] ∨ Selection.matchesAfter start q after)
  | none => ∃ ms, Matches (Path.isRooted base) (Path.route (Path.join base pattern)) ms ∧
    Covers (Path.text (Path.isRooted base) ms) q

/-- A pattern is matched in the directories that the elements before the last one find. -/
theorem paths_text (fs : FileSystem) {rooted : Bool} {es : List Bytes} {e : Bytes}
    (h : IsRoute rooted (es ++ [e]))
    (wild : Pattern.hasMeta (Path.text rooted (es ++ [e])) = true) :
    paths fs (Path.text rooted (es ++ [e])) =
      if ((Pattern.parse (Path.text rooted (es ++ [e]))).accepts? []).isNone then .error ⟨⟩
      else if Pattern.hasMeta (Path.text rooted es) then do
        let dirs ← paths fs (Path.text rooted es)
        let found ← dirs.mapM fun dir => inDirectory fs dir e
        return found.flatten
      else inDirectory fs (Path.text rooted es) e := by
  have free : Byte.slash ∉ e := h.slash_notMem (by simp)
  rw [paths]
  simp only [wild, patternDirectory_text h, Path.split_text free, Bool.not_true, Bool.false_eq_true,
    if_false]
  congr 1
  by_cases deep : Pattern.hasMeta (Path.text rooted es) = true
  · have nonempty : es ≠ [] := by
      rintro rfl
      revert deep
      cases rooted <;> decide
    simp [deep, length_text_lt nonempty e]
  · simp [deep]

theorem paths_of_wild {fs : FileSystem} {rooted : Bool} {es : List Bytes} {e : Bytes}
    (h : IsRoute rooted (es ++ [e]))
    (wild : Pattern.hasMeta (Path.text rooted (es ++ [e])) = true) {found : List Bytes}
    (ok : paths fs (Path.text rooted (es ++ [e])) = .ok found) :
    (Pattern.hasMeta (Path.text rooted es) = false ∧
      inDirectory fs (Path.text rooted es) e = .ok found) ∨
    (∃ dirs lists, paths fs (Path.text rooted es) = .ok dirs ∧
      (dirs.mapM fun dir => inDirectory fs dir e) = .ok lists ∧ lists.flatten = found) := by
  rw [paths_text fs h wild] at ok
  split at ok
  next => contradiction
  next =>
    split at ok
    next =>
      cases above : paths fs (Path.text rooted es) with
      | error => simp [above, bind, Except.bind] at ok
      | ok dirs =>
        cases each : dirs.mapM fun dir => inDirectory fs dir e with
        | error => simp [above, each, bind, Except.bind] at ok
        | ok lists =>
          simp only [above, each, bind, Except.bind, pure, Except.pure, Except.ok.injEq] at ok
          exact .inr ⟨dirs, lists, rfl, each, ok⟩
    next plain => exact .inl ⟨by simpa using plain, ok⟩

variable {fs : FileSystem} (tree : fs.IsTree)

include tree

/-- The entries of a directory that a pattern finds. -/
theorem mem_inDirectory {rooted : Bool} {es : List Bytes} (h : IsRoute rooted es)
    {pattern : Bytes} {found : List Bytes}
    (ok : inDirectory fs (Path.text rooted es) pattern = .ok found) {q : Bytes} :
    q ∈ found ↔ ∃ name, IsStep name ∧ Pattern.admits pattern name ∧
      Usable (Path.text rooted es) ∧ q = Path.text rooted (es ++ [name]) ∧
      (fs.get? (locate fs.cwd q)).isSome := by
  have joined {name : Bytes} (isStep : IsStep name) :
      Path.join (Path.text rooted es) name = Path.text rooted (es ++ [name]) := by
    rw [Path.join_of_isStep (Path.text_ne_nil h) isStep, Path.isRooted_text h, Path.route_text h]
  have located {name : Bytes} (isStep : IsStep name) :
      locate fs.cwd (Path.text rooted (es ++ [name])) =
        locate fs.cwd (Path.text rooted es) ++ [name] :=
    Path.locate_text_append fs.cwd h (by simpa using isStep)
  unfold inDirectory at ok
  simp only at ok
  split at ok
  next => contradiction
  next =>
    cases Except.ok.inj ok
    simp only [List.mem_map, List.mem_filter, decide_eq_true_eq, Prod.exists]
    constructor
    · rintro ⟨name, ⟨⟨name, node, listed, rfl⟩, admits⟩, rfl⟩
      obtain ⟨⟨time, opened⟩, found⟩ := tree.mem_list_iff.mp listed
      have isStep : IsStep name := (tree.isName found (by simp)).1
      refine ⟨name, isStep, by simpa [Pattern.admits] using admits, ?_, joined isStep, ?_⟩
      · exact (tree.lookup_eq_ok opened).1
      · rw [joined isStep, located isStep, found]
        rfl
    · rintro ⟨name, isStep, admits, usable, rfl, present⟩
      rw [located isStep] at present
      obtain ⟨node, found⟩ := Option.isSome_iff_exists.mp present
      obtain ⟨time, dir⟩ :=
        FileSystem.isDirectory_iff.mp (tree.isDirectory_of_append (by simp) found)
      have opened : fs.lookup .target (Path.text rooted es) = .ok (.directory time) :=
        (tree.lookup_text_iff h).mpr ⟨usable, dir⟩
      have listed := tree.mem_list_iff.mpr ⟨⟨time, opened⟩, found⟩
      refine ⟨name, ⟨⟨name, node, listed, rfl⟩, ?_⟩, joined isStep⟩
      simpa [Pattern.admits] using admits

theorem mem_paths_of_plain {rooted : Bool} {es : List Bytes} (h : IsRoute rooted es)
    (plain : Pattern.hasMeta (Path.text rooted es) = false) {found : List Bytes}
    (ok : paths fs (Path.text rooted es) = .ok found) {q : Bytes} :
    q ∈ found ↔ ∃ ms, Matches rooted es ms ∧ q = Path.text rooted ms ∧
      (fs.get? (locate fs.cwd q)).isSome := by
  have listed : q ∈ found ↔
      q = Path.text rooted es ∧ ∃ node, fs.lookup .itself (Path.text rooted es) = .ok node := by
    rw [paths] at ok
    split at ok
    next => contradiction
    next =>
      simp only [plain, Bool.not_false, if_true] at ok
      split at ok
      next node known =>
        cases Except.ok.inj ok
        simp [known]
      next fault unknown =>
        cases Except.ok.inj ok
        simp [unknown]
  rw [listed]
  simp only [tree.lookup_text_iff h, matches_iff_of_plain plain]
  constructor
  · rintro ⟨rfl, node, usable, found⟩
    exact ⟨es, ⟨rfl, usable⟩, rfl, by simp [found]⟩
  · rintro ⟨_, ⟨rfl, usable⟩, rfl, present⟩
    obtain ⟨node, found⟩ := Option.isSome_iff_exists.mp present
    exact ⟨rfl, node, usable, found⟩

/-- The directories that the elements before the last one find hold what a pattern finds. -/
theorem mem_flatten_inDirectory {rooted : Bool} {es : List Bytes} {e : Bytes}
    (h : IsRoute rooted es) {dirs : List Bytes} {lists : List (List Bytes)}
    (above : ∀ {q}, q ∈ dirs ↔ ∃ ms, Matches rooted es ms ∧ q = Path.text rooted ms ∧
      (fs.get? (locate fs.cwd q)).isSome)
    (each : (dirs.mapM fun dir => inDirectory fs dir e) = .ok lists) {q : Bytes} :
    q ∈ lists.flatten ↔ ∃ ds name, Matches rooted es ds ∧ Usable (Path.text rooted ds) ∧
      IsStep name ∧ Pattern.admits e name ∧ q = Path.text rooted (ds ++ [name]) ∧
      (fs.get? (locate fs.cwd q)).isSome := by
  rw [mem_flatten_of_mapM each]
  constructor
  · rintro ⟨_, mem, list, listed, inside⟩
    obtain ⟨ds, dir, rfl, _⟩ := above.mp mem
    obtain ⟨name, isStep, admits, usable, same, present⟩ :=
      (mem_inDirectory tree (dir.isRoute h) listed).mp inside
    exact ⟨ds, name, dir, usable, isStep, admits, same, present⟩
  · rintro ⟨ds, name, dir, usable, isStep, admits, rfl, present⟩
    have isRoute := dir.isRoute h
    have held : (fs.get? (locate fs.cwd (Path.text rooted ds))).isSome := by
      rw [Path.locate_text_append fs.cwd isRoute (by simpa using isStep)] at present
      obtain ⟨node, found⟩ := Option.isSome_iff_exists.mp present
      obtain ⟨time, dir⟩ :=
        FileSystem.isDirectory_iff.mp (tree.isDirectory_of_append (by simp) found)
      simp [dir]
    have mem := above.mpr ⟨ds, dir, rfl, held⟩
    obtain ⟨list, listed⟩ := exists_ok_of_mapM each mem
    exact ⟨_, mem, list, listed,
      (mem_inDirectory tree isRoute listed).mpr ⟨name, isStep, admits, usable, rfl, present⟩⟩

/-- A pattern without any-depth mark finds the paths that it stands for and that exist. -/
theorem mem_paths {rooted : Bool} {es : List Bytes} (h : IsRoute rooted es) {found : List Bytes}
    (ok : paths fs (Path.text rooted es) = .ok found) {q : Bytes} :
    q ∈ found ↔ ∃ ms, Matches rooted es ms ∧ q = Path.text rooted ms ∧
      (fs.get? (locate fs.cwd q)).isSome := by
  induction es using List.reverseRecOn generalizing found q with
  | nil =>
    have plain : Pattern.hasMeta (Path.text rooted []) = false := by cases rooted <;> decide
    exact mem_paths_of_plain tree h plain ok
  | append_singleton es e ih =>
    by_cases wild : Pattern.hasMeta (Path.text rooted (es ++ [e])) = true
    · simp only [matches_iff_of_wild wild]
      rcases paths_of_wild h wild ok with ⟨plain, ok⟩ | ⟨dirs, lists, above, each, rfl⟩
      · rw [mem_inDirectory tree h.of_append ok]
        simp only [matches_iff_of_plain plain]
        constructor
        · rintro ⟨name, isStep, admits, usable, rfl, present⟩
          exact ⟨_, ⟨es, name, ⟨rfl, usable⟩, usable, isStep, admits, rfl⟩, rfl, present⟩
        · rintro ⟨_, ⟨_, name, ⟨rfl, _⟩, usable, isStep, admits, rfl⟩, rfl, present⟩
          exact ⟨name, isStep, admits, usable, rfl, present⟩
      · rw [mem_flatten_inDirectory tree h.of_append (ih h.of_append above) each]
        constructor
        · rintro ⟨ds, name, dir, usable, isStep, admits, same, present⟩
          exact ⟨_, ⟨ds, name, dir, usable, isStep, admits, rfl⟩, same, present⟩
        · rintro ⟨_, ⟨ds, name, dir, usable, isStep, admits, rfl⟩, same, present⟩
          exact ⟨ds, name, dir, usable, isStep, admits, same, present⟩
    · exact mem_paths_of_plain tree h (by simpa using wild) ok

theorem mem_filesBeneath {depth : Nat} {path q : Bytes} (named : path ≠ []) :
    q ∈ filesBeneath fs depth path ↔ (∃ time, fs.lookup .target path = .ok (.directory time)) ∧
      ∃ goal, Reaches (Path.isRooted path) (Path.route path) goal ∧
        goal.length ≤ (Path.route path).length + depth ∧ q = Path.text (Path.isRooted path) goal ∧
        fs.IsFile (locate fs.cwd q) := by
  induction depth generalizing path with
  | zero =>
    -- A way to a file takes one element at least.
    simp only [filesBeneath, List.not_mem_nil, Nat.add_zero, false_iff]
    rintro ⟨_, goal, reaches, short, _⟩
    obtain ⟨ns, nonempty, _, rfl⟩ := reaches.exists_append
    have := List.length_pos_of_ne_nil nonempty
    rw [List.length_append] at short
    omega
  | succ depth ih =>
    have joined {name : Bytes} (isStep : IsStep name) := Path.join_of_isStep named isStep
    have isRoute {name : Bytes} (isStep : IsStep name) :
        IsRoute (Path.isRooted path) (Path.route path ++ [name]) :=
      (Path.isRoute_route path).append (by simpa using isStep)
    have located {name : Bytes} (isStep : IsStep name) :
        locate fs.cwd (Path.join path name) = locate fs.cwd path ++ [name] := by
      rw [joined isStep, Path.locate_route_append fs.cwd path (by simpa using isStep)]
    -- One entry of the directory leads to the rest of the way.
    have deeper {name : Bytes} (isStep : IsStep name) :
        q ∈ filesBeneath fs depth (Path.join path name) ↔
          (∃ time, fs.lookup .target (Path.join path name) = .ok (.directory time)) ∧
          ∃ goal, Reaches (Path.isRooted path) (Path.route path ++ [name]) goal ∧
            goal.length ≤ (Path.route path).length + (depth + 1) ∧
            q = Path.text (Path.isRooted path) goal ∧ fs.IsFile (locate fs.cwd q) := by
      have nonempty : Path.join path name ≠ [] := by
        rw [joined isStep]
        exact Path.text_ne_nil (isRoute isStep)
      rw [ih nonempty, joined isStep, Path.isRooted_text (isRoute isStep),
        Path.route_text (isRoute isStep), List.length_append, List.length_singleton,
        Nat.add_assoc, Nat.add_comm 1 depth]
    rw [filesBeneath, List.mem_flatMap]
    constructor
    · rintro ⟨⟨name, node⟩, listed, inside⟩
      obtain ⟨opened, found⟩ := tree.mem_list_iff.mp listed
      have isStep : IsStep name := (tree.isName found (by simp)).1
      refine ⟨opened, ?_⟩
      cases node with
      | link => simp at inside
      | file content time =>
        cases List.mem_singleton.mp inside
        refine ⟨_, .entry isStep, by simp, joined isStep, content, time, ?_⟩
        rw [located isStep, found]
      | directory time =>
        obtain ⟨⟨_, within⟩, goal, reaches, short, same, file⟩ := (deeper isStep).mp inside
        have usable := (tree.lookup_eq_ok within).1
        rw [joined isStep] at usable
        exact ⟨goal, .further isStep usable reaches, short, same, file⟩
    · rintro ⟨opened, goal, reaches, short, rfl, file⟩
      cases reaches with
      | @entry _ name isStep =>
        obtain ⟨content, time, found⟩ := file
        rw [← joined isStep, located isStep] at found
        exact ⟨_, tree.mem_list_iff.mpr ⟨opened, found⟩, by simp [joined isStep]⟩
      | @further _ name _ isStep usable reaches =>
        -- The entry is known to be a directory only from the file that lies beneath it.
        have dir : fs.isDirectory (locate fs.cwd path ++ [name]) := by
          obtain ⟨ns, nonempty, steps, rfl⟩ := reaches.exists_append
          obtain ⟨content, time, found⟩ := file
          rw [Path.locate_text_append fs.cwd (isRoute isStep) steps, ← joined isStep,
            located isStep] at found
          exact tree.isDirectory_of_append nonempty found
        obtain ⟨time, found⟩ := FileSystem.isDirectory_iff.mp dir
        refine ⟨_, tree.mem_list_iff.mpr ⟨opened, found⟩, (deeper isStep).mpr ⟨⟨time, ?_⟩, ?_⟩⟩
        · rw [← located isStep] at found
          rw [joined isStep] at found ⊢
          exact (tree.lookup_text_iff (isRoute isStep)).mpr ⟨usable, found⟩
        · exact ⟨goal, reaches, short, rfl, file⟩

/-- The files at a path or beneath it, where the path finds what is at its location. -/
theorem mem_files {path q : Bytes}
    (opens : ∀ {node}, Usable path → fs.get? (locate fs.cwd path) = some node →
      fs.lookup .target path = .ok node) :
    q ∈ files fs path ↔ Covers path q ∧ fs.IsFile (locate fs.cwd q) := by
  have beneath {goal : List Bytes} (reaches : Reaches (Path.isRooted path) (Path.route path) goal)
      (file : fs.IsFile (locate fs.cwd (Path.text (Path.isRooted path) goal))) :
      fs.isDirectory (locate fs.cwd path) ∧
        goal.length ≤ (Path.route path).length + (fs.nodes.length + 1) := by
    obtain ⟨ns, nonempty, steps, rfl⟩ := reaches.exists_append
    obtain ⟨content, time, found⟩ := file
    rw [Path.locate_route_append fs.cwd path steps] at found
    refine ⟨tree.isDirectory_of_append nonempty found, ?_⟩
    have depth := tree.length_le found
    simp only [List.length_append] at depth ⊢
    omega
  unfold files
  cases looked : fs.lookup .target path with
  | error fault =>
    have missing : ¬ (Usable path ∧ (fs.get? (locate fs.cwd path)).isSome) := by
      rintro ⟨usable, present⟩
      obtain ⟨node, found⟩ := Option.isSome_iff_exists.mp present
      simp [opens usable found] at looked
    simp only [List.not_mem_nil, false_iff]
    rintro ⟨⟨usable, rfl | ⟨goal, reaches, rfl⟩⟩, file⟩
    · obtain ⟨content, time, found⟩ := file
      exact missing ⟨usable, by simp [found]⟩
    · obtain ⟨time, found⟩ := FileSystem.isDirectory_iff.mp (beneath reaches file).1
      exact missing ⟨usable, by simp [found]⟩
  | ok node =>
    obtain ⟨usable, found⟩ := tree.lookup_eq_ok looked
    cases node with
    | link goal => exact absurd found tree.get?_ne_link
    | file content time =>
      simp only [Node.isDirectory, Bool.false_eq_true, if_false, List.mem_singleton]
      constructor
      · rintro rfl
        exact ⟨⟨usable, .inl rfl⟩, content, time, found⟩
      · rintro ⟨⟨_, rfl | ⟨goal, reaches, rfl⟩⟩, file⟩
        · rfl
        · have dir := (beneath reaches file).1
          simp [FileSystem.isDirectory, found, Node.isDirectory] at dir
    | directory time =>
      simp only [Node.isDirectory, if_true, tree.lookup_itself looked]
      rw [mem_filesBeneath tree usable.2.1]
      constructor
      · rintro ⟨_, goal, reaches, _, rfl, file⟩
        exact ⟨⟨usable, .inr ⟨goal, reaches, rfl⟩⟩, file⟩
      · rintro ⟨⟨_, rfl | ⟨goal, reaches, rfl⟩⟩, file⟩
        · obtain ⟨content, time, file⟩ := file
          simp [found] at file
        · exact ⟨⟨time, looked⟩, goal, reaches, (beneath reaches file).2, rfl, file⟩

theorem mem_files_text {rooted : Bool} {es : List Bytes} (h : IsRoute rooted es) {q : Bytes} :
    q ∈ files fs (Path.text rooted es) ↔
      Covers (Path.text rooted es) q ∧ fs.IsFile (locate fs.cwd q) :=
  mem_files tree fun usable found => (tree.lookup_text_iff h).mpr ⟨usable, found⟩

/-- What a path covers exists only if the path does. -/
theorem Covers.isSome {rooted : Bool} {es : List Bytes} {q : Bytes}
    (covers : Covers (Path.text rooted es) q) (h : IsRoute rooted es)
    (file : fs.IsFile (locate fs.cwd q)) :
    (fs.get? (locate fs.cwd (Path.text rooted es))).isSome := by
  obtain ⟨content, time, found⟩ := file
  rcases covers with ⟨_, rfl | ⟨goal, reaches, rfl⟩⟩
  · simp [found]
  · rw [Path.isRooted_text h, Path.route_text h] at *
    obtain ⟨ns, nonempty, steps, rfl⟩ := reaches.exists_append
    rw [Path.locate_text_append fs.cwd h steps] at found
    obtain ⟨time, dir⟩ :=
      FileSystem.isDirectory_iff.mp (tree.isDirectory_of_append nonempty found)
    simp [dir]

variable {base : Bytes} {time : Time} (opened : fs.lookup .target base = .ok (.directory time))

include opened

/-- A pattern finds, as paths from the directory, the files that it stands for. -/
theorem mem_glob {pattern : Bytes} {found : List Bytes} (ok : glob fs base pattern = .ok found)
    {p : Bytes} : p ∈ found ↔ ∃ q, StandsFor base pattern q ∧ fs.IsFile (locate fs.cwd q) ∧
      Path.relative? base q = some p := by
  obtain ⟨usable, held⟩ := tree.lookup_eq_ok opened
  have isRoute := Path.isRoute_join usable.2.1
  cases marked : Selection.splitDepth? pattern with
  | some parts =>
    obtain ⟨before, after⟩ := parts
    simp only [glob, marked, Except.ok.injEq] at ok
    simp only [StandsFor, marked]
    have listed {q : Bytes} : q ∈ files fs (if before = [] then base else Path.join base before) ↔
        Covers (if before = [] then base else Path.join base before) q ∧
          fs.IsFile (locate fs.cwd q) := by
      split
      next =>
        refine mem_files tree fun _ found => ?_
        cases Option.some.inj (held.symm.trans found)
        exact opened
      next =>
        rw [Path.join_eq_text usable.2.1]
        exact mem_files_text tree (isRoute before)
    simp only [← ok, List.mem_filterMap, List.mem_filter, listed, Bool.or_eq_true,
      decide_eq_true_eq]
    constructor
    · rintro ⟨q, ⟨⟨covers, file⟩, fits⟩, same⟩
      exact ⟨q, ⟨covers, fits⟩, file, same⟩
    · rintro ⟨q, ⟨covers, fits⟩, file, same⟩
      exact ⟨q, ⟨⟨covers, file⟩, fits⟩, same⟩
  | none =>
    simp only [glob, marked] at ok
    simp only [StandsFor, marked]
    rw [Path.join_eq_text usable.2.1] at ok
    cases each :
        paths fs (Path.text (Path.isRooted base) (Path.route (Path.join base pattern))) with
    | error => simp [each, bind, Except.bind] at ok
    | ok starts =>
      simp only [each, bind, Except.bind, pure, Except.pure, Except.ok.injEq] at ok
      simp only [← ok, List.mem_filterMap, List.mem_flatMap, mem_paths tree (isRoute pattern) each]
      constructor
      · rintro ⟨q, ⟨_, ⟨ms, fits, rfl, _⟩, inside⟩, same⟩
        obtain ⟨covers, file⟩ := (mem_files_text tree (fits.isRoute (isRoute pattern))).mp inside
        exact ⟨q, ⟨ms, fits, covers⟩, file, same⟩
      · rintro ⟨q, ⟨ms, fits, covers⟩, file, same⟩
        have ways := fits.isRoute (isRoute pattern)
        exact ⟨q, ⟨_, ⟨ms, fits, rfl, covers.isSome tree ways file⟩,
          (mem_files_text tree ways).mpr ⟨covers, file⟩⟩, same⟩

end Expand

end LuaCompact
