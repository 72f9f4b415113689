import LuaCompact.Proofs.Entries
import Mathlib

namespace LuaCompact

/-- Two calls come to the same: both fail alike, or both give values that are related. -/
inductive Agree {ε α β : Type} (R : α → β → Prop) : Except ε α → Except ε β → Prop
  | ok {a b} : R a b → Agree R (.ok a) (.ok b)
  | error (e) : Agree R (.error e) (.error e)

namespace Agree

variable {ε α β γ δ : Type} {R : α → β → Prop} {S : γ → δ → Prop}

theorem bind {x : Except ε α} {y : Except ε β} {f : α → Except ε γ} {g : β → Except ε δ}
    (first : Agree R x y) (next : ∀ a b, R a b → Agree S (f a) (g b)) :
    Agree S (x >>= f) (y >>= g) := by
  cases first with
  | ok related => exact next _ _ related
  | error e => exact .error e

theorem mapM {f : α → Except ε γ} {g : β → Except ε δ} {xs : List α} {ys : List β}
    (items : List.Forall₂ R xs ys) (each : ∀ a b, R a b → Agree S (f a) (g b)) :
    Agree (List.Forall₂ S) (xs.mapM f) (ys.mapM g) := by
  induction items with
  | nil => exact .ok .nil
  | cons head _ ih =>
    rw [List.mapM_cons, List.mapM_cons]
    refine (each _ _ head).bind fun c d related => ih.bind fun cs ds others => ?_
    exact .ok (.cons related others)

theorem imp {x : Except ε α} {y : Except ε β} (h : Agree R x y) {R' : α → β → Prop}
    (wider : ∀ a b, R a b → R' a b) : Agree R' x y := by
  cases h with
  | ok related => exact .ok (wider _ _ related)
  | error e => exact .error e

theorem eq {x y : Except ε α} (h : Agree (· = ·) x y) : x = y := by
  cases h with
  | ok same => rw [same]
  | error e => rfl

end Agree

namespace FileSystem

open LuaCompact.Path (IsStep locate under)

/-- Two directories, each in its own file system, hold the same: the same names stand for files and
for directories beneath them, and what is there can be asked for by both paths or by none. -/
structure Alike (fs fs' : FileSystem) (dir dir' : Bytes) : Prop where
  entries : ∀ ns, (fs.get? (locate fs.cwd dir ++ ns)).map Node.isDirectory =
    (fs'.get? (locate fs'.cwd dir' ++ ns)).map Node.isDirectory
  usable : ∀ ns, (fs.get? (locate fs.cwd dir ++ ns)).isSome →
    (Usable (under dir ns) ↔ Usable (under dir' ns))

instance (path : Bytes) : Decidable (Usable path) := inferInstanceAs (Decidable (_ ∧ _ ∧ _))

/-- Names that lead to all there is beneath a location. -/
def below (fs : FileSystem) (loc : Location) : List (List Bytes) :=
  [] :: fs.nodes.filterMap fun entry =>
    if loc.isPrefixOf entry.1 then some (entry.1.drop loc.length) else none

theorem mem_below {fs : FileSystem} {loc ns : Location} (found : (fs.get? (loc ++ ns)).isSome) :
    ns ∈ fs.below loc := by
  by_cases root : loc ++ ns = []
  · rw [(List.append_eq_nil_iff.mp root).2]
    exact List.mem_cons_self
  · obtain ⟨node, held⟩ := Option.isSome_iff_exists.mp found
    exact List.mem_cons_of_mem _
      (List.mem_filterMap.mpr ⟨(loc ++ ns, node), mem_nodes_of_get? root held, by simp⟩)

theorem alike_iff {fs fs' : FileSystem} {dir dir' : Bytes} : Alike fs fs' dir dir' ↔
    ∀ ns ∈ fs.below (locate fs.cwd dir) ++ fs'.below (locate fs'.cwd dir'),
      (fs.get? (locate fs.cwd dir ++ ns)).map Node.isDirectory =
        (fs'.get? (locate fs'.cwd dir' ++ ns)).map Node.isDirectory ∧
      ((fs.get? (locate fs.cwd dir ++ ns)).isSome →
        (Usable (under dir ns) ↔ Usable (under dir' ns))) := by
  constructor
  · intro alike ns _
    exact ⟨alike.entries ns, alike.usable ns⟩
  · intro each
    refine ⟨fun ns => ?_, fun ns found => ?_⟩
    · by_cases listed : ns ∈ fs.below (locate fs.cwd dir) ++ fs'.below (locate fs'.cwd dir')
      · exact (each ns listed).1
      · rw [List.mem_append, not_or] at listed
        have gone : fs.get? (locate fs.cwd dir ++ ns) = none := by
          by_contra some
          exact listed.1 (mem_below (Option.isSome_iff_ne_none.mpr some))
        have gone' : fs'.get? (locate fs'.cwd dir' ++ ns) = none := by
          by_contra some
          exact listed.2 (mem_below (Option.isSome_iff_ne_none.mpr some))
        rw [gone, gone']
    · exact (each ns (List.mem_append_left _ (mem_below found))).2 found

instance (fs fs' : FileSystem) (dir dir' : Bytes) : Decidable (Alike fs fs' dir dir') :=
  decidable_of_iff' _ alike_iff

/-- Whether a path leads to a directory, if it leads anywhere. -/
def kind? (fs : FileSystem) (purpose : Purpose) (path : Bytes) : Option Bool :=
  (fs.lookup purpose path).toOption.map Node.isDirectory

theorem kind?_eq_some_iff {fs : FileSystem} {purpose : Purpose} {path : Bytes} {b : Bool} :
    fs.kind? purpose path = some b ↔ ∃ node, fs.lookup purpose path = .ok node ∧
      node.isDirectory = b := by
  unfold kind?
  cases fs.lookup purpose path <;> simp [Except.toOption]

theorem kind?_eq_some_true_iff {fs : FileSystem} {path : Bytes} :
    fs.kind? .target path = some true ↔
      ∃ time, fs.lookup .target path = .ok (.directory time) := by
  rw [kind?_eq_some_iff]
  constructor
  · rintro ⟨node, looked, dir⟩
    cases node with
    | directory time => exact ⟨time, looked⟩
    | file | link => contradiction
  · rintro ⟨time, looked⟩
    exact ⟨_, looked, rfl⟩

/-- Without links a path is of the kind that its location is of. -/
theorem IsTree.kind?_under_eq_some_iff {fs : FileSystem} (tree : fs.IsTree) (dir : Bytes)
    {ns : List Bytes} (steps : ∀ e ∈ ns, IsStep e) {purpose : Purpose} {b : Bool} :
    fs.kind? purpose (under dir ns) = some b ↔ Usable (under dir ns) ∧
      (fs.get? (locate fs.cwd dir ++ ns)).map Node.isDirectory = some b := by
  have looked {node : Node} : fs.lookup purpose (under dir ns) = .ok node ↔
      Usable (under dir ns) ∧ fs.get? (locate fs.cwd dir ++ ns) = some node := by
    rw [← Path.locate_under dir steps]
    exact tree.lookup_text_iff (Path.isRoute_under dir steps)
  simp only [kind?_eq_some_iff, looked, and_assoc, exists_and_left, Option.map_eq_some_iff]

namespace Alike

variable {fs fs' : FileSystem} {dir dir' : Bytes} (alike : Alike fs fs' dir dir')

include alike

theorem isSome_iff (ns : List Bytes) : (fs.get? (locate fs.cwd dir ++ ns)).isSome ↔
    (fs'.get? (locate fs'.cwd dir' ++ ns)).isSome := by
  have same := congrArg Option.isSome (alike.entries ns)
  rw [Option.isSome_map, Option.isSome_map] at same
  rw [same]

theorem isDirectory_eq (ns : List Bytes) : fs.isDirectory (locate fs.cwd dir ++ ns) =
    fs'.isDirectory (locate fs'.cwd dir' ++ ns) := by
  have kinds (o : Option Node) : o.any Node.isDirectory = (o.map Node.isDirectory).getD false := by
    cases o <;> rfl
  rw [isDirectory, isDirectory, kinds, kinds, alike.entries]

/-- What lies in both under the same name is alike again. -/
theorem under {ms : List Bytes} (steps : ∀ e ∈ ms, IsStep e) :
    Alike fs fs' (under dir ms) (under dir' ms) := by
  constructor
  · intro ns
    rw [Path.locate_under dir steps, Path.locate_under dir' steps, List.append_assoc,
      List.append_assoc, alike.entries]
  · intro ns present
    rw [Path.locate_under dir steps, List.append_assoc] at present
    rw [Path.under_under dir steps, Path.under_under dir' steps]
    exact alike.usable _ present

variable (tree : fs.IsTree) (tree' : fs'.IsTree)

include tree tree'

theorem kind?_under {ms : List Bytes} (steps : ∀ e ∈ ms, IsStep e) (purpose : Purpose) :
    fs.kind? purpose (Path.under dir ms) = fs'.kind? purpose (Path.under dir' ms) := by
  refine Option.ext fun b => ?_
  rw [tree.kind?_under_eq_some_iff dir steps, tree'.kind?_under_eq_some_iff dir' steps,
    ← alike.entries]
  refine and_congr_left fun found => alike.usable ms ?_
  obtain ⟨node, held, -⟩ := Option.map_eq_some_iff.mp found
  exact Option.isSome_of_eq_some held

variable (kinds : fs.kind? .target dir = fs'.kind? .target dir')

include kinds

theorem names_eq : fs.names dir = fs'.names dir' := by
  refine Bytes.eq_of_mem_iff (pairwise_names fs dir) (pairwise_names fs' dir')
    (tree.nodup_names dir) (tree'.nodup_names dir') fun name => ?_
  rw [tree.mem_names_iff, tree'.mem_names_iff, ← kind?_eq_some_true_iff, ← kind?_eq_some_true_iff,
    kinds, alike.isSome_iff]

end Alike

end FileSystem

/-- Two paths that the same names lead to from one directory and from another. -/
def Twins (dir dir' q q' : Bytes) : Prop :=
  ∃ ns, (∀ e ∈ ns, Path.IsStep e) ∧ q = Path.under dir ns ∧ q' = Path.under dir' ns

/-- Twins that lie beneath the two directories. -/
def ProperTwins (dir dir' q q' : Bytes) : Prop :=
  ∃ ns, ns ≠ [] ∧ (∀ e ∈ ns, Path.IsStep e) ∧ q = Path.under dir ns ∧ q' = Path.under dir' ns

theorem ProperTwins.twins {dir dir' q q' : Bytes} (h : ProperTwins dir dir' q q') :
    Twins dir dir' q q' :=
  let ⟨ns, _, steps, same, same'⟩ := h
  ⟨ns, steps, same, same'⟩

theorem ProperTwins.under {dir dir' q q' : Bytes} {ms : List Bytes}
    (steps : ∀ e ∈ ms, Path.IsStep e)
    (twins : ProperTwins (Path.under dir ms) (Path.under dir' ms) q q') :
    ProperTwins dir dir' q q' := by
  obtain ⟨ns, nonempty, steps', rfl, rfl⟩ := twins
  exact ⟨ms ++ ns, by simp [nonempty], List.forall_mem_append.mpr ⟨steps, steps'⟩,
    Path.under_under dir steps ns, Path.under_under dir' steps ns⟩

namespace Expand

open LuaCompact.Path (IsStep locate under)
open FileSystem (Alike)

theorem filesBeneath_of_empty {fs : FileSystem} (tree : fs.IsTree) {path : Bytes}
    (empty : ∀ ns, (fs.get? (locate fs.cwd path ++ ns)).isSome → ns.length ≤ 0) (depth : Nat) :
    filesBeneath fs depth path = [] := by
  have names : fs.names path = [] := by
    refine List.eq_nil_iff_forall_not_mem.mpr fun name mem => ?_
    have below := empty [name] (tree.mem_names_iff.mp mem).2
    contradiction
  cases depth with
  | zero => rfl
  | succ depth => rw [filesBeneath_succ tree, names, List.flatMap_nil]

variable {fs fs' : FileSystem} (tree : fs.IsTree) (tree' : fs'.IsTree)

include tree tree'

/-- Where directories hold the same, a listing goes the same way through both. It has to go deep
enough in both to come to an end. -/
theorem filesBeneath_alike {dir dir' : Bytes} (alike : Alike fs fs' dir dir')
    (kinds : fs.kind? .target dir = fs'.kind? .target dir') {depth depth' : Nat}
    (deep : ∀ ns, (fs.get? (locate fs.cwd dir ++ ns)).isSome → ns.length ≤ depth)
    (deep' : ∀ ns, (fs'.get? (locate fs'.cwd dir' ++ ns)).isSome → ns.length ≤ depth') :
    List.Forall₂ (ProperTwins dir dir') (filesBeneath fs depth dir) (filesBeneath fs' depth' dir') := by
  induction depth generalizing depth' dir dir' with
  | zero =>
    rw [filesBeneath_of_empty tree' fun ns found => deep ns ((alike.isSome_iff ns).mpr found)]
    exact .nil
  | succ depth ih =>
    cases depth' with
    | zero =>
      rw [filesBeneath_of_empty tree fun ns found => deep' ns ((alike.isSome_iff ns).mp found)]
      exact .nil
    | succ depth' =>
      have names := alike.names_eq tree tree' kinds
      rw [filesBeneath_succ tree, filesBeneath_succ tree', ← names]
      refine List.rel_flatMap (R := fun a b => a = b ∧ a ∈ fs.names dir)
        (List.forall₂_same.mpr fun name mem => ⟨rfl, mem⟩) ?_
      rintro name _ ⟨rfl, mem⟩
      have isStep := tree.isStep_of_mem_names mem
      have single : ∀ e ∈ [name], IsStep e := by simpa using isStep
      have shorter {fs : FileSystem} {dir : Bytes} {depth : Nat}
          (deep : ∀ ns, (fs.get? (locate fs.cwd dir ++ ns)).isSome → ns.length ≤ depth + 1)
          (ns : List Bytes) (found : (fs.get? (locate fs.cwd (under dir [name]) ++ ns)).isSome) :
          ns.length ≤ depth := by
        rw [Path.locate_under dir single, List.append_assoc] at found
        exact Nat.le_of_succ_le_succ (deep _ found)
      beta_reduce
      rw [Path.join_eq_under (FileSystem.ne_nil_of_mem_names mem) isStep,
        Path.join_eq_under (FileSystem.ne_nil_of_mem_names (names ▸ mem)) isStep,
        ← alike.isDirectory_eq]
      split
      next =>
        refine (ih (alike.under single) (alike.kind?_under tree tree' single .target)
          (shorter deep) (shorter deep')).imp fun _ _ twins => twins.under single
      next => exact .cons ⟨[name], by simp, single, rfl, rfl⟩ .nil

omit tree' in
theorem files_eq (path : Bytes) : files fs path = match fs.kind? .target path with
    | none => []
    | some true => filesBeneath fs (fs.nodes.length + 1) path
    | some false => [path] := by
  unfold files FileSystem.kind?
  cases looked : fs.lookup .target path with
  | error => rfl
  | ok node =>
    cases node with
    | file | link => rfl
    | directory time =>
      rw [tree.lookup_itself looked]
      rfl

/-- Where paths hold the same, what is listed for them is what they hold, or the paths themselves
if they lead to files. -/
theorem files_alike {path path' : Bytes} (alike : Alike fs fs' path path')
    (kinds : fs.kind? .target path = fs'.kind? .target path') :
    List.Forall₂ (fun q q' => ProperTwins path path' q q' ∨
      fs.kind? .target path = some false ∧ q = path ∧ q' = path') (files fs path)
        (files fs' path') := by
  have deep {fs : FileSystem} (tree : fs.IsTree) {path : Bytes} (ns : List Bytes)
      (found : (fs.get? (locate fs.cwd path ++ ns)).isSome) : ns.length ≤ fs.nodes.length + 1 := by
    obtain ⟨node, held⟩ := Option.isSome_iff_exists.mp found
    have whole := tree.length_le held
    rw [List.length_append] at whole
    omega
  rw [files_eq tree, files_eq tree', ← kinds]
  match own : fs.kind? .target path with
  | none => exact .nil
  | some true =>
    exact (filesBeneath_alike tree tree' alike kinds (deep tree) (deep tree')).imp
      fun _ _ twins => .inl twins
  | some false => exact .cons (.inr ⟨rfl, rfl, rfl⟩) .nil

end Expand

end LuaCompact
