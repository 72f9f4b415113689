import LuaCompact.Proofs.Descent
import LuaCompact.Proofs.Listing

namespace LuaCompact

namespace Path

theorem mem_ofElements {es : List Bytes} {b : UInt8} (mem : b ∈ ofElements es) :
    b = Byte.slash ∨ ∃ e ∈ es, b ∈ e := by
  cases es with
  | nil => contradiction
  | cons e es =>
    rw [ofElements, intercalate_cons_eq, List.mem_append, List.mem_flatMap] at mem
    rcases mem with first | ⟨e', mem', inside⟩
    · exact .inr ⟨e, List.mem_cons_self, first⟩
    · rcases List.mem_cons.mp inside with slash | later
      · exact .inl slash
      · exact .inr ⟨e', List.mem_cons_of_mem e mem', later⟩

/-- The path that names lead to from a directory, by the texts alone. -/
def under (dir : Bytes) (ns : List Bytes) : Bytes := text (isRooted dir) (route dir ++ ns)

section

variable (dir : Bytes) {ns : List Bytes} (steps : ∀ e ∈ ns, IsStep e)

include steps

theorem isRoute_under : IsRoute (isRooted dir) (route dir ++ ns) := (isRoute_route dir).append steps

theorem isRooted_under : isRooted (under dir ns) = isRooted dir :=
  isRooted_text (isRoute_under dir steps)

theorem route_under : route (under dir ns) = route dir ++ ns := route_text (isRoute_under dir steps)

theorem locate_under (cwd : Location) : locate cwd (under dir ns) = locate cwd dir ++ ns :=
  locate_route_append cwd dir steps

theorem under_under (ms : List Bytes) : under (under dir ns) ms = under dir (ns ++ ms) := by
  rw [under, isRooted_under dir steps, route_under dir steps, List.append_assoc, under]

theorem under_injective {ms : List Bytes} (steps' : ∀ e ∈ ms, IsStep e)
    (same : under dir ns = under dir ms) : ns = ms := by
  have routes := congrArg route same
  rw [route_under dir steps, route_under dir steps'] at routes
  exact List.append_cancel_left routes

end

theorem base_under (dir : Bytes) (es : List Bytes) {name : Bytes} (isStep : IsStep name) :
    base (under dir (es ++ [name])) = name := by
  rw [under, ← List.append_assoc, base_text _ _ isStep]

theorem clean_eq_under (dir : Bytes) : clean dir = under dir [] := by
  rw [clean_eq_text, under, List.append_nil]

theorem join_eq_under {dir name : Bytes} (named : dir ≠ []) (isStep : IsStep name) :
    join dir name = under dir [name] :=
  join_of_isStep named isStep

end Path

namespace FileSystem

open LuaCompact.Path (locate)

/-- The names in a directory, in byte order. -/
def names (fs : FileSystem) (path : Bytes) : List Bytes := (fs.list path).map Prod.fst

theorem pairwise_children (fs : FileSystem) (loc : Location) :
    (fs.children loc).Pairwise fun a b => Bytes.le a.1 b.1 = true :=
  List.pairwise_mergeSort (fun a b c => Bytes.le_trans a.1 b.1 c.1)
    (fun a b => Bytes.le_total a.1 b.1) _

theorem pairwise_names (fs : FileSystem) (path : Bytes) :
    (fs.names path).Pairwise fun a b => Bytes.le a b = true := by
  refine List.pairwise_map.mpr ?_
  unfold list
  split
  next => exact pairwise_children fs _
  next => exact .nil

theorem ne_nil_of_mem_names {fs : FileSystem} {path name : Bytes} (mem : name ∈ fs.names path) :
    path ≠ [] := by
  obtain ⟨_, listed, _⟩ := List.mem_map.mp mem
  exact ne_nil_of_mem_list listed

namespace IsTree

variable {fs : FileSystem} (tree : fs.IsTree)

include tree

theorem toNamed : fs.Named := fun entry mem name inside => (tree.named entry mem name inside).1

/-- No two entries of a directory share their name. -/
theorem nodup_children (loc : Location) : ((fs.children loc).map Prod.fst).Nodup := by
  refine (((List.mergeSort_perm _ _).map Prod.fst).nodup_iff).mpr (List.pairwise_map.mpr ?_)
  refine (List.pairwise_map.mp tree.distinct).filterMap _ ?_
  rintro ⟨l, node⟩ ⟨l', node'⟩ apart entry found entry' found' same
  cases last : l.getLast? with
  | none => simp [last] at found
  | some name =>
    cases last' : l'.getLast? with
    | none => simp [last'] at found'
    | some name' =>
      obtain ⟨front, rfl⟩ := List.getLast?_eq_some_iff.mp last
      obtain ⟨front', rfl⟩ := List.getLast?_eq_some_iff.mp last'
      simp only [last, last', List.dropLast_concat, Option.ite_none_right_eq_some,
        Option.some.injEq] at found found'
      obtain ⟨above, rfl⟩ := found
      obtain ⟨above', rfl⟩ := found'
      have named : name = name' := same
      exact apart (by rw [above, above', named])

theorem nodup_names (path : Bytes) : (fs.names path).Nodup := by
  unfold names list
  split
  next => exact tree.nodup_children _
  next => exact .nil

theorem mem_names_iff {path name : Bytes} :
    name ∈ fs.names path ↔ (∃ time, fs.lookup .target path = .ok (.directory time)) ∧
      (fs.get? (locate fs.cwd path ++ [name])).isSome := by
  simp only [names, List.mem_map, Prod.exists, exists_and_right, exists_eq_right,
    tree.mem_list_iff, Option.isSome_iff_exists, exists_and_left]

theorem isStep_of_mem_names {path name : Bytes} (mem : name ∈ fs.names path) :
    Path.IsStep name := by
  obtain ⟨⟨_, node⟩, listed, rfl⟩ := List.mem_map.mp mem
  exact tree.toNamed.isStep_of_mem_list listed

end IsTree

end FileSystem

namespace Expand

open LuaCompact.Path (IsStep locate under)

variable {fs : FileSystem} (tree : fs.IsTree)

include tree

/-- A listing goes through the names of a directory, and into those that are directories. -/
theorem filesBeneath_succ (depth : Nat) (path : Bytes) :
    filesBeneath fs (depth + 1) path = (fs.names path).flatMap fun name =>
      if fs.isDirectory (locate fs.cwd path ++ [name]) then
        filesBeneath fs depth (Path.join path name)
      else [Path.join path name] := by
  rw [filesBeneath, FileSystem.names, List.flatMap_map]
  refine List.flatMap_congr fun entry listed => ?_
  obtain ⟨name, node⟩ := entry
  have found := (tree.mem_list_iff.mp listed).2
  rw [FileSystem.isDirectory, found]
  cases node with
  | link => exact absurd found tree.get?_ne_link
  | _ => rfl

/-- A listing comes to each file once. -/
theorem nodup_filesBeneath (depth : Nat) (path : Bytes) : (filesBeneath fs depth path).Nodup := by
  induction depth generalizing path with
  | zero => exact .nil
  | succ depth ih =>
    rw [filesBeneath_succ tree, List.nodup_flatMap]
    constructor
    · intro name _
      split
      next => exact ih _
      next => exact List.nodup_singleton _
    · -- What is listed for a name begins with it.
      have begins {name : Bytes} (mem : name ∈ fs.names path) {q : Bytes}
          (inside : q ∈ if fs.isDirectory (locate fs.cwd path ++ [name]) then
            filesBeneath fs depth (Path.join path name) else [Path.join path name]) :
          ∃ ns, (∀ e ∈ name :: ns, IsStep e) ∧ q = under path (name :: ns) := by
        have isStep := tree.isStep_of_mem_names mem
        have single : ∀ e ∈ [name], IsStep e := by simpa using isStep
        rw [Path.join_eq_under (FileSystem.ne_nil_of_mem_names mem) isStep] at inside
        split at inside
        next =>
          obtain ⟨ns, -, steps, rfl⟩ := exists_of_mem_filesBeneath tree.toNamed inside
          exact ⟨ns, List.forall_mem_cons.mpr ⟨isStep, steps⟩, Path.under_under path single ns⟩
        next => exact ⟨[], single, List.mem_singleton.mp inside⟩
      refine (tree.nodup_names path).imp_of_mem fun {a b} mem mem' apart => ?_
      refine List.disjoint_left.mpr fun q inside inside' => ?_
      obtain ⟨ns, steps, rfl⟩ := begins mem inside
      obtain ⟨ms, steps', same⟩ := begins mem' inside'
      exact apart (List.cons.inj (Path.under_injective path steps steps' same)).1

theorem nodup_files (path : Bytes) : (files fs path).Nodup := by
  unfold files
  split
  next => exact .nil
  next =>
    split
    next =>
      split
      next => exact nodup_filesBeneath tree _ _
      next => exact .nil
    next => exact List.nodup_singleton _

end Expand

end LuaCompact
