import LuaCompact.FileSystem.Resolve
import LuaCompact.Proofs.Route
import Mathlib.Data.List.Perm.Subperm

namespace LuaCompact

def Node.isLink : Node → Bool
  | .link _ => true
  | _ => false

namespace FileSystem

open LuaCompact.Path (IsStep IsRoute follow locate)

/-- Whether there is a directory at a location. -/
def isDirectory (fs : FileSystem) (loc : Location) : Bool := (fs.get? loc).any Node.isDirectory

/-- A name that an entry of a directory can have. -/
def IsName (name : Bytes) : Prop := IsStep name ∧ name.length ≤ nameLimit

instance (name : Bytes) : Decidable (IsName name) := inferInstanceAs (Decidable (_ ∧ _))

/-- A file system without links: every entry lies in a directory, under a name that a directory can
hold and that no other entry there has, and the working directory exists. -/
structure IsTree (fs : FileSystem) : Prop where
  distinct : (fs.nodes.map Prod.fst).Nodup
  named : ∀ entry ∈ fs.nodes, ∀ name ∈ entry.1, IsName name
  held : ∀ entry ∈ fs.nodes, fs.isDirectory entry.1.dropLast
  unlinked : ∀ entry ∈ fs.nodes, entry.2.isLink = false
  cwd : fs.isDirectory fs.cwd

instance (fs : FileSystem) : Decidable fs.IsTree :=
  decidable_of_iff
    ((fs.nodes.map Prod.fst).Nodup ∧ (∀ entry ∈ fs.nodes, ∀ name ∈ entry.1, IsName name) ∧
      (∀ entry ∈ fs.nodes, fs.isDirectory entry.1.dropLast) ∧
      (∀ entry ∈ fs.nodes, entry.2.isLink = false) ∧ fs.isDirectory fs.cwd)
    ⟨fun ⟨distinct, named, held, unlinked, cwd⟩ => ⟨distinct, named, held, unlinked, cwd⟩,
      fun tree => ⟨tree.distinct, tree.named, tree.held, tree.unlinked, tree.cwd⟩⟩

theorem isDirectory_iff {fs : FileSystem} {loc : Location} :
    fs.isDirectory loc ↔ ∃ time, fs.get? loc = some (.directory time) := by
  unfold isDirectory
  cases h : fs.get? loc with
  | none => simp
  | some node => cases node <;> simp [Node.isDirectory]

@[simp] theorem get?_root (fs : FileSystem) : fs.get? [] = some (.directory fs.clock) := rfl

theorem isDirectory_root (fs : FileSystem) : fs.isDirectory [] := rfl

theorem get?_of_ne_nil (fs : FileSystem) {loc : Location} (h : loc ≠ []) :
    fs.get? loc = fs.nodes.lookup loc := if_neg h

theorem mem_nodes_of_get? {fs : FileSystem} {loc : Location} (h : loc ≠ []) {node : Node}
    (found : fs.get? loc = some node) : (loc, node) ∈ fs.nodes := by
  rw [get?_of_ne_nil fs h, List.lookup_eq_some_iff] at found
  obtain ⟨before, after, whole, _⟩ := found
  simp [whole]

theorem lookup_filter_ne {loc other : Location} (h : other ≠ loc) (nodes : List (Location × Node)) :
    (nodes.filter (·.1 ≠ loc)).lookup other = nodes.lookup other := by
  induction nodes with
  | nil => rfl
  | cons entry nodes ih =>
    obtain ⟨l, held⟩ := entry
    by_cases same : l = loc
    · subst same
      have passed : (other == l) = false := by simpa using h
      simpa [List.lookup_cons, passed] using ih
    · simp only [ne_eq, same, not_false_eq_true, decide_true, List.filter_cons_of_pos,
        List.lookup_cons]
      rw [← ih]

theorem get?_put (fs : FileSystem) {loc : Location} (h : loc ≠ []) (node : Node)
    (other : Location) :
    (fs.put loc node).get? other = if other = loc then some node else fs.get? other := by
  by_cases root : other = []
  · simp [root, h.symm, put]
  · rw [get?_of_ne_nil _ root, get?_of_ne_nil _ root, put, List.lookup_cons]
    by_cases same : other = loc
    · simp [same]
    · have differs : (other == loc) = false := by simpa using same
      rw [differs, if_neg same]
      exact lookup_filter_ne same fs.nodes

namespace IsTree

variable {fs : FileSystem} (tree : fs.IsTree)

include tree

theorem get?_of_mem {loc : Location} (h : loc ≠ []) {node : Node} (mem : (loc, node) ∈ fs.nodes) :
    fs.get? loc = some node := by
  obtain ⟨before, after, whole⟩ := List.append_of_mem mem
  rw [get?_of_ne_nil fs h, List.lookup_eq_some_iff]
  refine ⟨before, after, whole, ?_⟩
  intro entry mem
  have apart := tree.distinct
  rw [whole, List.map_append, List.nodup_append] at apart
  have other : entry.1 ≠ loc := apart.2.2 entry.1 (List.mem_map_of_mem mem) loc (by simp)
  simpa using other.symm

theorem isName {loc : Location} {node : Node} (found : fs.get? loc = some node) {name : Bytes}
    (mem : name ∈ loc) : IsName name :=
  tree.named _ (mem_nodes_of_get? (List.ne_nil_of_mem mem) found) name mem

theorem isDirectory_dropLast {loc : Location} {node : Node} (found : fs.get? loc = some node) :
    fs.isDirectory loc.dropLast := by
  by_cases root : loc = []
  · subst root
    exact isDirectory_root fs
  · exact tree.held _ (mem_nodes_of_get? root found)

/-- All that an entry lies beneath is a directory. -/
theorem isDirectory_of_append {loc ns : Location} (nonempty : ns ≠ []) {node : Node}
    (found : fs.get? (loc ++ ns) = some node) : fs.isDirectory loc := by
  induction ns using List.reverseRecOn generalizing node with
  | nil => exact absurd rfl nonempty
  | append_singleton ns name ih =>
    have above := tree.isDirectory_dropLast found
    rw [← List.append_assoc, List.dropLast_concat] at above
    by_cases last : ns = []
    · simpa [last] using above
    · obtain ⟨time, above⟩ := isDirectory_iff.mp above
      exact ih last above

theorem get?_ne_link {loc : Location} {goal : Bytes} : fs.get? loc ≠ some (.link goal) := by
  intro found
  by_cases root : loc = []
  · simp [root] at found
  · have := tree.unlinked _ (mem_nodes_of_get? root found)
    simp [Node.isLink] at this

/-- No location is deeper than there are entries. -/
theorem length_le {loc : Location} {node : Node} (found : fs.get? loc = some node) :
    loc.length ≤ fs.nodes.length := by
  have here_ (i : Nat) (h : i < loc.length) : loc.take (i + 1) ∈ fs.nodes.map Prod.fst := by
    have below : loc.take (i + 1) ≠ [] := by
      rw [ne_eq, List.take_eq_nil_iff]
      rintro (h' | rfl)
      · omega
      · simp at h
    have ⟨node', found'⟩ : ∃ node', fs.get? (loc.take (i + 1)) = some node' := by
      by_cases last : loc.drop (i + 1) = []
      · rw [List.take_of_length_le (List.drop_eq_nil_iff.mp last)]
        exact ⟨node, found⟩
      · rw [← List.take_append_drop (i + 1) loc] at found
        obtain ⟨time, dir⟩ := isDirectory_iff.mp (tree.isDirectory_of_append last found)
        exact ⟨_, dir⟩
    exact List.mem_map_of_mem (mem_nodes_of_get? below found')
  have distinct : ((List.range loc.length).map fun i => loc.take (i + 1)).Nodup := by
    refine List.pairwise_map.mpr ((List.pairwise_lt_range).imp_of_mem fun {i j} _ hj lt same => ?_)
    have lengths := congrArg List.length same
    have hj := List.mem_range.mp hj
    simp only [List.length_take] at lengths
    omega
  have sub : ((List.range loc.length).map fun i => loc.take (i + 1)) ⊆ fs.nodes.map Prod.fst := by
    intro l mem
    obtain ⟨i, hi, rfl⟩ := List.mem_map.mp mem
    exact here_ i (List.mem_range.mp hi)
  simpa using (List.subperm_of_subset distinct sub).length_le

theorem mem_children_iff {loc : Location} {name : Bytes} {node : Node} :
    (name, node) ∈ fs.children loc ↔ fs.get? (loc ++ [name]) = some node := by
  have listed : (name, node) ∈ fs.children loc ↔ (loc ++ [name], node) ∈ fs.nodes := by
    simp only [children, List.mem_mergeSort, List.mem_filterMap]
    constructor
    · rintro ⟨⟨l, held⟩, mem, h⟩
      cases last : l.getLast? with
      | none => simp [last] at h
      | some final =>
        simp only [last, Option.ite_none_right_eq_some, Option.some.injEq, Prod.mk.injEq] at h
        obtain ⟨rfl, rfl, rfl⟩ := h
        obtain ⟨front, rfl⟩ := List.getLast?_eq_some_iff.mp last
        simpa using mem
    · intro mem
      exact ⟨_, mem, by simp⟩
  rw [listed]
  exact ⟨tree.get?_of_mem (by simp), mem_nodes_of_get? (by simp)⟩

end IsTree

/-- How elements lead from a directory to a place where no link is met. -/
inductive Leads (fs : FileSystem) : Location → List Bytes → Place → Prop
  | done {loc} : Leads fs loc [] ⟨loc, fs.get? loc⟩
  | still {loc e rest place} : e = [] ∨ e = Path.here → Leads fs loc rest place →
    Leads fs loc (e :: rest) place
  | up {loc rest place} : Leads fs loc.dropLast rest place → Leads fs loc (Path.up :: rest) place
  | down {loc e rest place} : ¬ (e = [] ∨ e = Path.here) → e ≠ Path.up → e.length ≤ nameLimit →
    fs.isDirectory (loc ++ [e]) → Leads fs (loc ++ [e]) rest place → Leads fs loc (e :: rest) place
  | file {loc e content time} : ¬ (e = [] ∨ e = Path.here) → e ≠ Path.up → e.length ≤ nameLimit →
    fs.get? (loc ++ [e]) = some (.file content time) →
    Leads fs loc [e] ⟨loc ++ [e], some (.file content time)⟩
  | missing {loc e rest} : ¬ (e = [] ∨ e = Path.here) → e ≠ Path.up → e.length ≤ nameLimit →
    fs.get? (loc ++ [e]) = none → onlySlashes rest → Leads fs loc (e :: rest) ⟨loc ++ [e], none⟩

theorem follow_of_onlySlashes (loc : Location) {es : List Bytes} (h : onlySlashes es) :
    follow loc es = loc := by
  induction es with
  | nil => rfl
  | cons e es ih =>
    simp only [onlySlashes, List.all_cons, Bool.and_eq_true, decide_eq_true_eq] at h
    rw [follow, List.foldl_cons, Path.step, if_pos (.inl h.1)]
    exact ih h.2

theorem Leads.location {fs : FileSystem} {loc : Location} {todo : List Bytes} {place : Place}
    (leads : Leads fs loc todo place) :
    place.location = follow loc todo ∧ place.node? = fs.get? place.location := by
  induction leads with
  | done => exact ⟨rfl, rfl⟩
  | still still _ ih => simpa [follow, Path.step, still] using ih
  | up _ ih => simpa [follow, Path.step_up] using ih
  | down proper climbs _ _ _ ih => simpa [follow, Path.step, proper, climbs] using ih
  | file proper climbs _ found => simp [follow, Path.step, proper, climbs, found]
  | @missing loc e rest proper climbs _ gone slashes =>
    have stays := follow_of_onlySlashes (loc ++ [e]) slashes
    refine ⟨?_, gone.symm⟩
    simpa [follow, Path.step, proper, climbs] using stays.symm

/-- A place lies in a directory that exists, under a name that the directory can hold. -/
theorem Leads.held {fs : FileSystem} (tree : fs.IsTree) {loc : Location} {todo : List Bytes}
    {place : Place} (leads : Leads fs loc todo place) (dir : fs.isDirectory loc)
    (free : ∀ e ∈ todo, Byte.slash ∉ e) :
    fs.isDirectory place.location.dropLast ∧ ∀ name ∈ place.location, IsName name := by
  have known {l : Location} (h : fs.isDirectory l) :
      fs.isDirectory l.dropLast ∧ ∀ name ∈ l, IsName name := by
    obtain ⟨time, found⟩ := isDirectory_iff.mp h
    exact ⟨tree.isDirectory_dropLast found, fun _ => tree.isName found⟩
  induction leads with
  | done => exact known dir
  | still _ _ ih => exact ih dir fun e mem => free e (List.mem_cons_of_mem _ mem)
  | up _ ih => exact ih (known dir).1 fun e mem => free e (List.mem_cons_of_mem _ mem)
  | down _ _ _ below _ ih => exact ih below fun e mem => free e (List.mem_cons_of_mem _ mem)
  | file _ _ _ found => exact ⟨tree.isDirectory_dropLast found, fun _ => tree.isName found⟩
  | missing proper climbs short =>
    rw [List.dropLast_concat]
    refine ⟨dir, fun name mem => ?_⟩
    rcases List.mem_append.mp mem with mem | mem
    · exact (known dir).2 name mem
    · rw [List.mem_singleton.mp mem]
      rw [not_or] at proper
      exact ⟨⟨proper.1, proper.2, climbs, free _ List.mem_cons_self⟩, short⟩

theorem Leads.walk {fs : FileSystem} {purpose : Purpose} {links : Nat} {loc : Location}
    {todo : List Bytes} {place : Place} (leads : Leads fs loc todo place)
    (full : purpose = .creation → ∀ e ∈ todo, e ≠ []) :
    fs.walk purpose links loc todo = .ok place := by
  have unfinished {rest : List Bytes} (full : purpose = .creation → ∀ e ∈ rest, e ≠ []) :
      ¬ (purpose = .creation ∧ rest ≠ [] ∧ onlySlashes rest) := by
    rintro ⟨creates, nonempty, slashes⟩
    obtain ⟨e, rest, rfl⟩ := List.exists_cons_of_ne_nil nonempty
    simp only [onlySlashes, List.all_cons, Bool.and_eq_true, decide_eq_true_eq] at slashes
    exact full creates e List.mem_cons_self slashes.1
  have later {e : Bytes} {rest : List Bytes}
      (full : purpose = .creation → ∀ e' ∈ e :: rest, e' ≠ []) :
      purpose = .creation → ∀ e' ∈ rest, e' ≠ [] :=
    fun creates e' mem => full creates e' (List.mem_cons_of_mem e mem)
  induction leads with
  | done => rw [FileSystem.walk]
  | still still _ ih =>
    rw [FileSystem.walk, if_pos still]
    exact ih (later full)
  | up _ ih =>
    rw [FileSystem.walk, if_neg (by decide), if_pos rfl]
    exact ih (later full)
  | down proper climbs short below _ ih =>
    obtain ⟨time, found⟩ := isDirectory_iff.mp below
    rw [FileSystem.walk, if_neg proper, if_neg climbs, if_neg (by omega),
      if_neg (unfinished (later full)), found]
    exact ih (later full)
  | file proper climbs short found =>
    rw [FileSystem.walk, if_neg proper, if_neg climbs, if_neg (by omega),
      if_neg (unfinished (by simp)), found]
    simp
  | missing proper climbs short gone slashes =>
    rw [FileSystem.walk, if_neg proper, if_neg climbs, if_neg (by omega),
      if_neg (unfinished (later full)), gone]
    simp [slashes]

namespace IsTree

variable {fs : FileSystem} (tree : fs.IsTree)

include tree

theorem leads_of_walk {purpose : Purpose} {links : Nat} {loc : Location} {todo : List Bytes}
    {place : Place} (h : fs.walk purpose links loc todo = .ok place) : Leads fs loc todo place := by
  induction todo generalizing loc with
  | nil =>
    rw [walk] at h
    cases Except.ok.inj h
    exact .done
  | cons e rest ih =>
    rw [walk] at h
    split at h
    next still => exact .still still (ih h)
    next proper =>
      split at h
      next climbs =>
        subst climbs
        exact .up (ih h)
      next climbs =>
        split at h
        next => contradiction
        next short =>
          rw [Nat.not_lt] at short
          split at h
          next => contradiction
          next =>
            split at h
            next gone =>
              split at h
              next slashes =>
                cases Except.ok.inj h
                exact .missing proper climbs short gone slashes
              next => contradiction
            next time found =>
              exact .down proper climbs short (isDirectory_iff.mpr ⟨time, found⟩) (ih h)
            next found =>
              split at h
              next last =>
                cases Except.ok.inj h
                subst last
                exact .file proper climbs short found
              next => contradiction
            next found => exact absurd found tree.get?_ne_link

/-- Elements as cleaning leaves them lead to every entry that they name. -/
theorem leads_of_isRoute {rooted : Bool} {es : List Bytes} (h : IsRoute rooted es) {loc : Location}
    (dir : fs.isDirectory loc) {node : Node} (found : fs.get? (follow loc es) = some node) :
    Leads fs loc es ⟨follow loc es, some node⟩ := by
  induction es generalizing loc with
  | nil =>
    rw [← found]
    exact .done
  | cons e es ih =>
    have later : IsRoute rooted es :=
      ⟨fun e' mem => h.steps e' (List.mem_cons_of_mem e mem), (List.pairwise_cons.mp h.upFirst).2⟩
    rcases h.steps e List.mem_cons_self with isStep | ⟨rfl, _⟩
    · -- After a proper name no element leads up any more.
      have steps : ∀ e' ∈ e :: es, IsStep e' := by
        intro e' mem
        rcases h.steps e' mem with isStep' | ⟨rfl, _⟩
        · exact isStep'
        · rcases List.mem_cons.mp mem with rfl | mem
          · exact isStep
          · exact absurd ((List.pairwise_cons.mp h.upFirst).1 _ mem rfl) isStep.2.2.1
      have whole : follow loc (e :: es) = follow (loc ++ [e]) es := by
        rw [follow, List.foldl_cons, Path.step_of_isStep loc isStep]
        rfl
      have below : follow (loc ++ [e]) es = (loc ++ [e]) ++ es :=
        Path.follow_steps _ fun e' mem => steps e' (List.mem_cons_of_mem e mem)
      have proper : ¬ (e = [] ∨ e = Path.here) := by simp [isStep.1, isStep.2.1]
      rw [whole] at found ⊢
      have short : e.length ≤ nameLimit := (tree.isName found (by simp [below])).2
      by_cases last : es = []
      · subst last
        have here_ : fs.get? (loc ++ [e]) = some node := found
        cases node with
        | directory time =>
          have dir : fs.isDirectory (loc ++ [e]) := isDirectory_iff.mpr ⟨time, here_⟩
          exact .down proper isStep.2.2.1 short dir (ih later dir found)
        | file content time => exact .file proper isStep.2.2.1 short here_
        | link goal => exact absurd here_ tree.get?_ne_link
      · have dir : fs.isDirectory (loc ++ [e]) := tree.isDirectory_of_append last (below ▸ found)
        exact .down proper isStep.2.2.1 short dir (ih later dir found)
    · obtain ⟨time, above⟩ := isDirectory_iff.mp dir
      have whole : follow loc (Path.up :: es) = follow loc.dropLast es := by
        rw [follow, List.foldl_cons, Path.step_up]
        rfl
      rw [whole] at found ⊢
      exact .up (ih later (tree.isDirectory_dropLast above) found)

end IsTree

theorem walk_text (fs : FileSystem) {rooted : Bool} {es : List Bytes} (h : IsRoute rooted es)
    (purpose : Purpose) (links : Nat) (loc : Location) :
    fs.walk purpose links loc (Path.elements (Path.text rooted es)) =
      fs.walk purpose links loc es := by
  refine Path.elements_text_induction (motive := fun l => fs.walk purpose links loc l = _) ?_ h rfl
  intro e l stays same
  rw [walk, if_pos stays, same]

/-- Whether a path is one that can be asked for: not empty, not too long and without a zero byte. -/
def Usable (path : Bytes) : Prop := 0 ∉ path ∧ path ≠ [] ∧ path.length ≤ pathLimit

theorem resolve_of_usable (fs : FileSystem) (purpose : Purpose) {path : Bytes}
    (usable : Usable path) :
    fs.resolve purpose path = fs.walk purpose linkLimit
      (if Path.isRooted path then [] else fs.cwd) (Path.elements path) := by
  rw [resolve, if_neg usable.1, if_neg usable.2.1, if_neg (Nat.not_lt.mpr usable.2.2)]

theorem walk_of_resolve {fs : FileSystem} {purpose : Purpose} {path : Bytes} {place : Place}
    (found : fs.resolve purpose path = .ok place) : Usable path ∧
      fs.walk purpose linkLimit (if Path.isRooted path then [] else fs.cwd) (Path.elements path) =
        .ok place := by
  unfold resolve at found
  split at found
  next => contradiction
  next clear =>
    split at found
    next => contradiction
    next nonempty =>
      split at found
      next => contradiction
      next short => exact ⟨⟨clear, nonempty, Nat.not_lt.mp short⟩, found⟩

/-- Whether there is a regular file at a location. -/
def IsFile (fs : FileSystem) (loc : Location) : Prop :=
  ∃ content time, fs.get? loc = some (.file content time)

namespace IsTree

variable {fs : FileSystem} (tree : fs.IsTree)

include tree

theorem isDirectory_start (path : Bytes) :
    fs.isDirectory (if Path.isRooted path then [] else fs.cwd) := by
  split
  next => exact isDirectory_root fs
  next => exact tree.cwd

theorem leads_of_resolve {purpose : Purpose} {path : Bytes} {place : Place}
    (h : fs.resolve purpose path = .ok place) :
    Usable path ∧
      Leads fs (if Path.isRooted path then [] else fs.cwd) (Path.elements path) place := by
  obtain ⟨usable, walked⟩ := walk_of_resolve h
  exact ⟨usable, tree.leads_of_walk walked⟩

/-- Without links a path leads where its text says. -/
theorem location_of_resolve {purpose : Purpose} {path : Bytes} {place : Place}
    (h : fs.resolve purpose path = .ok place) :
    place.location = locate fs.cwd path ∧ place.node? = fs.get? (locate fs.cwd path) := by
  obtain ⟨loc, node⟩ := (tree.leads_of_resolve h).2.location
  exact ⟨loc, node.trans (congrArg fs.get? loc)⟩

theorem held_of_resolve {purpose : Purpose} {path : Bytes} {place : Place}
    (h : fs.resolve purpose path = .ok place) :
    fs.isDirectory (locate fs.cwd path).dropLast ∧ ∀ name ∈ locate fs.cwd path, IsName name := by
  rw [← (tree.location_of_resolve h).1]
  exact (tree.leads_of_resolve h).2.held tree (tree.isDirectory_start path)
    fun _ => Path.slash_notMem_of_mem_elements

theorem lookup_eq_ok {purpose : Purpose} {path : Bytes} {node : Node}
    (h : fs.lookup purpose path = .ok node) :
    Usable path ∧ fs.get? (locate fs.cwd path) = some node := by
  unfold lookup at h
  split at h
  next => contradiction
  next place resolved =>
    split at h
    next held found =>
      cases Except.ok.inj h
      exact ⟨(tree.leads_of_resolve resolved).1, (tree.location_of_resolve resolved).2 ▸ found⟩
    next => contradiction

theorem resolve_text {rooted : Bool} {es : List Bytes} (h : IsRoute rooted es)
    (usable : Usable (Path.text rooted es)) {node : Node}
    (found : fs.get? (locate fs.cwd (Path.text rooted es)) = some node) (purpose : Purpose) :
    fs.resolve purpose (Path.text rooted es) =
      .ok ⟨locate fs.cwd (Path.text rooted es), some node⟩ := by
  have start : fs.isDirectory (if rooted then [] else fs.cwd) := by
    simpa [Path.isRooted_text h] using tree.isDirectory_start (Path.text rooted es)
  rw [Path.locate_text _ h] at found ⊢
  rw [resolve_of_usable fs purpose usable, Path.isRooted_text h, walk_text fs h]
  exact (tree.leads_of_isRoute h start found).walk fun _ _ => h.ne_nil

/-- Without links it is the same what a path names and what it leads to. -/
theorem lookup_itself {path : Bytes} {node : Node} (h : fs.lookup .target path = .ok node) :
    fs.lookup .itself path = .ok node := by
  unfold lookup at h ⊢
  cases resolved : fs.resolve .target path with
  | error => simp [resolved] at h
  | ok place =>
    obtain ⟨usable, leads⟩ := tree.leads_of_resolve resolved
    have same : fs.resolve .itself path = .ok place := by
      rw [resolve_of_usable fs .itself usable]
      exact leads.walk (by simp)
    rw [resolved] at h
    rwa [same]

/-- A cleaned path finds every entry at its location. -/
theorem lookup_text_iff {rooted : Bool} {es : List Bytes} (h : IsRoute rooted es)
    {purpose : Purpose} {node : Node} :
    fs.lookup purpose (Path.text rooted es) = .ok node ↔
      Usable (Path.text rooted es) ∧ fs.get? (locate fs.cwd (Path.text rooted es)) = some node := by
  constructor
  · exact tree.lookup_eq_ok
  · rintro ⟨usable, found⟩
    rw [lookup, tree.resolve_text h usable found]

theorem mem_list_iff {path name : Bytes} {node : Node} :
    (name, node) ∈ fs.list path ↔
      (∃ time, fs.lookup .target path = .ok (.directory time)) ∧
        fs.get? (locate fs.cwd path ++ [name]) = some node := by
  unfold list lookup
  cases h : fs.resolve .target path with
  | error fault => simp
  | ok place =>
    obtain ⟨loc, found⟩ := place
    obtain ⟨same, _⟩ := tree.location_of_resolve h
    rw [← same]
    match found with
    | none => simp
    | some (.file _ _) => simp
    | some (.link _) => simp
    | some (.directory time) => simp [tree.mem_children_iff]

end IsTree

end FileSystem

end LuaCompact
