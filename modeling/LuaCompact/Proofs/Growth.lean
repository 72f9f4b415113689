import LuaCompact.Build
import LuaCompact.Proofs.Tree

namespace LuaCompact.FileSystem

open LuaCompact.Path (IsRoute follow locate)

/-- What a tree becomes when directories are made where nothing was, on some ways, and files are
written where no directory was, at some targets. All else stays. -/
structure Evolves (ways targets : Location → Prop) (fs fs' : FileSystem) : Prop where
  tree : fs'.IsTree
  cwd : fs'.cwd = fs.cwd
  clock : fs'.clock = fs.clock
  change : ∀ loc, fs'.get? loc = fs.get? loc ∨
    (ways loc ∧ fs.get? loc = none ∧ fs'.get? loc = some (.directory fs.clock)) ∨
    (targets loc ∧ fs.isDirectory loc = false ∧
      ∃ content, fs'.get? loc = some (.file content fs.clock))

namespace Evolves

variable {ways targets : Location → Prop} {fs mid fs' : FileSystem}

theorem refl (tree : fs.IsTree) : Evolves ways targets fs fs := ⟨tree, rfl, rfl, fun _ => .inl rfl⟩

theorem mono {ways' targets' : Location → Prop} (h : Evolves ways targets fs fs')
    (wider : ∀ loc, fs.get? loc = none → ways loc → ways' loc)
    (more : ∀ loc, targets loc → targets' loc) : Evolves ways' targets' fs fs' where
  tree := h.tree
  cwd := h.cwd
  clock := h.clock
  change loc := by
    rcases h.change loc with same | ⟨way, gone, made⟩ | ⟨target, plain, written⟩
    · exact .inl same
    · exact .inr (.inl ⟨wider loc gone way, gone, made⟩)
    · exact .inr (.inr ⟨more loc target, plain, written⟩)

/-- What exists and is no target stays. -/
theorem get?_eq (h : Evolves ways targets fs fs') {loc : Location} {node : Node}
    (found : fs.get? loc = some node) (apart : ¬ targets loc) : fs'.get? loc = some node := by
  rcases h.change loc with same | ⟨_, gone, _⟩ | ⟨target, _⟩
  · exact same.trans found
  · simp [gone] at found
  · exact absurd target apart

theorem isDirectory (h : Evolves ways targets fs fs') {loc : Location} (dir : fs.isDirectory loc) :
    fs'.isDirectory loc := by
  rcases h.change loc with same | ⟨_, _, made⟩ | ⟨_, plain, _⟩
  · rwa [FileSystem.isDirectory, same]
  · exact isDirectory_iff.mpr ⟨_, made⟩
  · simp [plain] at dir

/-- A file that is no target was there before. -/
theorem get?_of_file (h : Evolves ways targets fs fs') {loc : Location} {content : Bytes}
    {time : Time} (found : fs'.get? loc = some (.file content time)) (apart : ¬ targets loc) :
    fs.get? loc = some (.file content time) := by
  rcases h.change loc with same | ⟨_, _, made⟩ | ⟨target, _⟩
  · rw [← same, found]
  · simp [found] at made
  · exact absurd target apart

theorem trans (h : Evolves ways targets fs mid) (h' : Evolves ways targets mid fs') :
    Evolves ways targets fs fs' where
  tree := h'.tree
  cwd := h'.cwd.trans h.cwd
  clock := h'.clock.trans h.clock
  change loc := by
    rcases h'.change loc with same | ⟨way, gone, made⟩ | ⟨target, plain, content, written⟩
    · rw [same]
      exact h.change loc
    · rw [h.clock] at made
      rcases h.change loc with before | ⟨_, _, earlier⟩ | ⟨_, _, _, earlier⟩
      · exact .inr (.inl ⟨way, before ▸ gone, made⟩)
      · simp [gone] at earlier
      · simp [gone] at earlier
    · rw [h.clock] at written
      have before : fs.isDirectory loc = false :=
        Bool.eq_false_iff.mpr fun dir => by simp [h.isDirectory dir] at plain
      exact .inr (.inr ⟨target, before, content, written⟩)

end Evolves

/-- A way to a directory stays a way if directories stay. -/
theorem Leads.of_isDirectory {fs fs' : FileSystem}
    (kept : ∀ {loc}, fs.isDirectory loc → fs'.isDirectory loc) {loc : Location} {todo : List Bytes}
    {place : Place} (leads : Leads fs loc todo place) (dir : fs.isDirectory place.location) :
    Leads fs' loc todo ⟨place.location, fs'.get? place.location⟩ := by
  induction leads with
  | done => exact .done
  | still still _ ih => exact .still still (ih dir)
  | up _ ih => exact .up (ih dir)
  | down proper climbs short below _ ih => exact .down proper climbs short (kept below) (ih dir)
  | file _ _ _ found => simp [isDirectory, found, Node.isDirectory] at dir
  | missing _ _ _ gone => simp [isDirectory, gone] at dir

theorem Evolves.lookup_directory {ways targets : Location → Prop} {fs fs' : FileSystem}
    (h : Evolves ways targets fs fs') (tree : fs.IsTree) {path : Bytes} {time : Time}
    (opened : fs.lookup .target path = .ok (.directory time)) :
    ∃ time', fs'.lookup .target path = .ok (.directory time') := by
  obtain ⟨usable, found⟩ := tree.lookup_eq_ok opened
  cases resolved : fs.resolve .target path with
  | error => simp [lookup, resolved] at opened
  | ok place =>
    have dir : fs.isDirectory place.location := by
      rw [(tree.location_of_resolve resolved).1]
      exact isDirectory_iff.mpr ⟨time, found⟩
    have walked : fs'.walk .target linkLimit (if Path.isRooted path then [] else fs.cwd)
        (Path.elements path) = .ok ⟨place.location, fs'.get? place.location⟩ :=
      ((tree.leads_of_resolve resolved).2.of_isDirectory (fun held => h.isDirectory held) dir).walk
        (by simp)
    obtain ⟨time', found'⟩ := isDirectory_iff.mp (h.isDirectory dir)
    refine ⟨time', ?_⟩
    rw [lookup, resolve_of_usable fs' .target usable, h.cwd, walked]
    simp [found']

namespace IsTree

variable {fs : FileSystem} (tree : fs.IsTree)

include tree

theorem put {loc : Location} {node : Node} (below : loc ≠ []) (named : ∀ name ∈ loc, IsName name)
    (held : fs.isDirectory loc.dropLast) (unlinked : node.isLink = false)
    (kept : fs.isDirectory loc → node.isDirectory) : (fs.put loc node).IsTree := by
  have stays {other : Location} (dir : fs.isDirectory other) :
      (fs.put loc node).isDirectory other := by
    rw [isDirectory, get?_put fs below]
    split
    next same => exact kept (same ▸ dir)
    next => exact dir
  have others {entry : Location × Node} (mem : entry ∈ (fs.put loc node).nodes) :
      entry = (loc, node) ∨ entry ∈ fs.nodes :=
    (List.mem_cons.mp mem).imp_right fun mem => (List.mem_filter.mp mem).1
  constructor
  · simp only [FileSystem.put, List.map_cons, List.nodup_cons]
    refine ⟨by simp, ?_⟩
    exact tree.distinct.sublist (List.filter_sublist.map Prod.fst)
  · intro entry mem
    rcases others mem with rfl | mem
    · exact named
    · exact tree.named entry mem
  · intro entry mem
    rcases others mem with rfl | mem
    · exact stays held
    · exact stays (tree.held entry mem)
  · intro entry mem
    rcases others mem with rfl | mem
    · exact unlinked
    · exact tree.unlinked entry mem
  · exact stays tree.cwd

theorem evolves_makeLast (path : Bytes) :
    Evolves (· = locate fs.cwd path) (fun _ => False) fs
      (makeDirectories.makeLast fs path).1 := by
  unfold makeDirectories.makeLast
  cases h : fs.makeDirectory path with
  | error fault =>
    simp only
    split <;> exact .refl tree
  | ok made =>
    unfold makeDirectory at h
    split at h
    next => contradiction
    next place resolved =>
      split at h
      next => contradiction
      next gone =>
        cases Except.ok.inj h
        obtain ⟨same, node⟩ := tree.location_of_resolve resolved
        obtain ⟨held, named⟩ := tree.held_of_resolve resolved
        rw [gone] at node
        rw [same]
        have below : locate fs.cwd path ≠ [] := fun root => by simp [root] at node
        refine ⟨tree.put below named held rfl fun _ => rfl, rfl, rfl, fun loc => ?_⟩
        rw [get?_put fs below]
        by_cases here_ : loc = locate fs.cwd path
        · exact .inr (.inl ⟨here_, here_ ▸ node.symm, if_pos here_⟩)
        · exact .inl (if_neg here_)

/-- Going up leads to directories that exist. -/
theorem isDirectory_follow_up {loc : Location} (dir : fs.isDirectory loc) {es : List Bytes}
    (ups : ∀ e ∈ es, e = Path.up) : fs.isDirectory (follow loc es) := by
  induction es generalizing loc with
  | nil => exact dir
  | cons e es ih =>
    obtain ⟨time, found⟩ := isDirectory_iff.mp dir
    rw [follow, List.foldl_cons, ups e List.mem_cons_self, Path.step_up]
    exact ih (tree.isDirectory_dropLast found) fun e' mem => ups e' (List.mem_cons_of_mem e mem)

theorem evolves_writeFile {path content : Bytes} {written : FileSystem}
    (h : fs.writeFile path content = .ok written) :
    Evolves (fun _ => False) (· = locate fs.cwd path) fs written ∧
      written.get? (locate fs.cwd path) = some (.file content fs.clock) := by
  unfold writeFile at h
  split at h
  next => contradiction
  next place resolved =>
    obtain ⟨same, node⟩ := tree.location_of_resolve resolved
    obtain ⟨held, named⟩ := tree.held_of_resolve resolved
    split at h
    next => contradiction
    next plain =>
      cases Except.ok.inj h
      have free : fs.isDirectory (locate fs.cwd path) = false := by
        rw [Bool.eq_false_iff]
        intro dir
        obtain ⟨time, found⟩ := isDirectory_iff.mp dir
        exact plain time (node.trans found)
      rw [same]
      have below : locate fs.cwd path ≠ [] := fun root => by simp [root, isDirectory_root] at free
      have kept : fs.isDirectory (locate fs.cwd path) → (Node.file content fs.clock).isDirectory :=
        fun dir => by simp [free] at dir
      refine ⟨⟨tree.put below named held rfl kept, rfl, rfl, fun loc => ?_⟩, ?_⟩
      · rw [get?_put fs below]
        by_cases here_ : loc = locate fs.cwd path
        · exact .inr (.inr ⟨here_, here_ ▸ free, content, if_pos here_⟩)
        · exact .inl (if_neg here_)
      · rw [get?_put fs below, if_pos rfl]

end IsTree

theorem parentPath_append (dir : Bytes) {name : Bytes} (nonempty : name ≠ [])
    (free : Byte.slash ∉ name) : parentPath (dir ++ Byte.slash :: name) = dir := by
  have run := Path.ne_slash_of_mem_reverse free
  obtain ⟨b, rest, last⟩ := List.exists_cons_of_ne_nil (List.reverse_ne_nil_iff.mpr nonempty)
  have bare : ((dir ++ Byte.slash :: name).reverse.dropWhile (· == Byte.slash)) =
      name.reverse ++ Byte.slash :: dir.reverse := by
    have other : b ≠ Byte.slash := by simpa using run b (last ▸ List.mem_cons_self)
    rw [List.reverse_append, List.reverse_cons, List.append_assoc, last]
    simp [other]
  rw [parentPath, bare, List.dropWhile_append_of_pos run]
  simp

theorem parentPath_of_notMem {path : Bytes} (free : Byte.slash ∉ path) : parentPath path = [] := by
  have run : ∀ b ∈ path.reverse.dropWhile (· == Byte.slash), (b != Byte.slash) = true := by
    intro b mem
    have inside := List.mem_reverse.mp ((List.dropWhile_suffix _).subset mem)
    simpa using fun same : b = Byte.slash => free (same ▸ inside)
  rw [parentPath, ← List.append_nil (path.reverse.dropWhile _), List.dropWhile_append_of_pos run]
  rfl

theorem parentPath_text {rooted : Bool} {es : List Bytes} {e : Bytes}
    (h : IsRoute rooted (es ++ [e])) :
    parentPath (Path.text rooted (es ++ [e])) = if es = [] then [] else Path.text rooted es := by
  have free : Byte.slash ∉ e := h.slash_notMem (by simp)
  by_cases slashed : es ≠ [] ∨ rooted = true
  · rw [Path.text_concat slashed, parentPath_append _ (h.ne_nil (by simp)) free]
  · simp only [not_or, Decidable.not_not, Bool.not_eq_true] at slashed
    rw [slashed.1, slashed.2, Path.text_singleton, parentPath_of_notMem free]
    rfl

theorem makeDirectories_text_nil (fs : FileSystem) (rooted : Bool) :
    fs.makeDirectories (Path.text rooted []) =
      match fs.lookup .target (Path.text rooted []) with
      | .ok node => (fs, if node.isDirectory then .ok ()
          else .error ⟨.mkdir, Path.text rooted [], .notDirectory⟩)
      | .error _ => makeDirectories.makeLast fs (Path.text rooted []) := by
  have top : parentPath (Path.text rooted []) = [] := by cases rooted <;> decide
  rw [makeDirectories]
  cases fs.lookup .target (Path.text rooted []) with
  | ok node => rfl
  | error => exact dif_pos top

/-- A directory is made after the one that holds it. -/
theorem makeDirectories_text (fs : FileSystem) {rooted : Bool} {es : List Bytes} {e : Bytes}
    (h : IsRoute rooted (es ++ [e])) :
    fs.makeDirectories (Path.text rooted (es ++ [e])) =
      match fs.lookup .target (Path.text rooted (es ++ [e])) with
      | .ok node => (fs, if node.isDirectory then .ok ()
          else .error ⟨.mkdir, Path.text rooted (es ++ [e]), .notDirectory⟩)
      | .error _ =>
        if es = [] then makeDirectories.makeLast fs (Path.text rooted (es ++ [e]))
        else
          match fs.makeDirectories (Path.text rooted es) with
          | (fs, .ok _) => makeDirectories.makeLast fs (Path.text rooted (es ++ [e]))
          | (fs, .error cause) => (fs, .error cause) := by
  have parent := parentPath_text h
  rw [makeDirectories]
  cases fs.lookup .target (Path.text rooted (es ++ [e])) with
  | ok node => rfl
  | error =>
    by_cases first : es = []
    · rw [if_pos first] at parent
      exact (dif_pos parent).trans (if_pos first).symm
    · rw [if_neg first] at parent
      have named : parentPath (Path.text rooted (es ++ [e])) ≠ [] :=
        parent ▸ Path.text_ne_nil h.of_append
      refine (dif_neg named).trans ?_
      rewrite [parent, if_neg first]
      match fs.makeDirectories (Path.text rooted es) with
      | (_, .ok _) => rfl
      | (_, .error _) => rfl

/-- Only what lies on the way to a directory is made for it. -/
theorem IsTree.evolves_makeDirectories {fs : FileSystem} (tree : fs.IsTree) {rooted : Bool}
    {es : List Bytes} (h : IsRoute rooted es) :
    Evolves (· <+: locate fs.cwd (Path.text rooted es)) (fun _ => False) fs
      (fs.makeDirectories (Path.text rooted es)).1 := by
  have last {fs : FileSystem} (tree : fs.IsTree) (path : Bytes) :
      Evolves (· <+: locate fs.cwd path) (fun _ => False) fs
        (makeDirectories.makeLast fs path).1 :=
    (tree.evolves_makeLast path).mono (fun _ _ same => same ▸ List.prefix_rfl) fun _ => id
  induction es using List.reverseRecOn with
  | nil =>
    rw [makeDirectories_text_nil]
    split
    next => exact .refl tree
    next => exact last tree _
  | append_singleton es e ih =>
    have above : Evolves (· <+: locate fs.cwd (Path.text rooted (es ++ [e]))) (fun _ => False)
        fs (fs.makeDirectories (Path.text rooted es)).1 := by
      refine (ih h.of_append).mono (fun loc gone way => ?_) fun _ => id
      rw [Path.locate_text _ h.of_append] at way
      rw [Path.locate_text _ h, Path.follow_concat]
      rcases h.steps e (by simp) with isStep | ⟨rfl, rfl⟩
      · rw [Path.step_of_isStep _ isStep]
        exact way.trans (List.prefix_append _ _)
      · -- Nothing is missing on a way that only goes up.
        have dir := tree.isDirectory_follow_up tree.cwd fun e => h.eq_up (e := e)
        obtain ⟨below, whole⟩ := way
        simp only [Bool.false_eq_true, if_false] at whole
        rw [← whole] at dir
        by_cases here_ : below = []
        · rw [here_, List.append_nil, isDirectory, gone] at dir
          simp at dir
        · obtain ⟨time, found⟩ := isDirectory_iff.mp dir
          have := tree.isDirectory_of_append here_ found
          simp [isDirectory, gone] at this
    rw [makeDirectories_text fs h]
    split
    next => exact .refl tree
    next =>
      split
      next => exact last tree _
      next =>
        split
        next mid _ made =>
          rw [made] at above
          have final := last above.tree (Path.text rooted (es ++ [e]))
          rw [above.cwd] at final
          exact above.trans final
        next mid _ made =>
          rw [made] at above
          exact above

theorem IsTree.evolves_makeDirectories_dir {fs : FileSystem} (tree : fs.IsTree) (path : Bytes) :
    Evolves (· <+: locate fs.cwd (Path.dir path)) (fun _ => False) fs
      (fs.makeDirectories (Path.dir path)).1 := by
  rw [Path.dir, Path.clean_eq_text]
  exact tree.evolves_makeDirectories (Path.isRoute_route _)

end LuaCompact.FileSystem
