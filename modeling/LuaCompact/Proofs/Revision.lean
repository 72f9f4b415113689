import LuaCompact.Proofs.FileByFile

namespace LuaCompact

/-- The node with other content, if it is a file. -/
def Node.revise (f : Bytes → Bytes) : Node → Node
  | .file content time => .file (f content) time
  | node => node

@[simp] theorem Node.isDirectory_revise (f : Bytes → Bytes) (node : Node) :
    (node.revise f).isDirectory = node.isDirectory := by
  cases node <;> rfl

@[simp] theorem Node.revise_id (node : Node) : node.revise id = node := by
  cases node <;> rfl

namespace FileSystem

open LuaCompact.Path (locate)

/-- The same tree with other content in its files. -/
def revise (f : Location → Bytes → Bytes) (fs : FileSystem) : FileSystem :=
  { fs with nodes := fs.nodes.map fun (loc, node) => (loc, node.revise (f loc)) }

variable (f : Location → Bytes → Bytes) (fs : FileSystem)

@[simp] theorem get?_revise (loc : Location) :
    (fs.revise f).get? loc = (fs.get? loc).map (Node.revise (f loc)) := by
  by_cases root : loc = []
  · subst root
    rfl
  · rw [get?_of_ne_nil _ root, get?_of_ne_nil _ root, revise]
    induction fs.nodes with
    | nil => rfl
    | cons entry nodes ih =>
      obtain ⟨l, node⟩ := entry
      rw [List.map_cons, List.lookup_cons, List.lookup_cons, ih]
      cases same : loc == l with
      | false => rfl
      | true => simp [eq_of_beq same]

/-- The place with other content. -/
def Place.revise (place : Place) : Place :=
  ⟨place.location, place.node?.map (Node.revise (f place.location))⟩

theorem children_revise (loc : Location) : (fs.revise f).children loc =
    (fs.children loc).map fun (name, node) => (name, node.revise (f (loc ++ [name]))) := by
  unfold children revise
  rw [List.map_mergeSort (s := fun a b => Bytes.le a.1 b.1) (by simp), List.filterMap_map,
    List.map_filterMap]
  congr 1
  refine List.filterMap_congr fun ⟨l, node⟩ _ => ?_
  cases last : l.getLast? with
  | none => simp [last]
  | some name =>
    obtain ⟨front, rfl⟩ := List.getLast?_eq_some_iff.mp last
    by_cases same : front = loc
    · simp [same]
    · simp [same]

theorem put_revise {g : Location → Bytes → Bytes} {loc : Location} {node : Node}
    (others : ∀ l, l ≠ loc → g l = f l) (same : node.revise (g loc) = node) :
    (fs.revise f).put loc node = (fs.put loc node).revise g := by
  have kept : ∀ nodes : List (Location × Node),
      (nodes.map fun (l, n) => (l, n.revise (f l))).filter (·.1 ≠ loc) =
        (nodes.filter (·.1 ≠ loc)).map fun (l, n) => (l, n.revise (g l)) := by
    intro nodes
    rw [List.filter_map]
    refine List.map_congr_left fun ⟨l, n⟩ mem => ?_
    have apart : l ≠ loc := by simpa using (List.mem_filter.mp mem).2
    simp [others l apart]
  simp only [put, revise, List.map_cons, same, kept]

variable {fs} (tree : fs.IsTree)

include tree

theorem walk_revise (purpose : Purpose) (links : Nat) (loc : Location) (todo : List Bytes) :
    (fs.revise f).walk purpose links loc todo =
      (fs.walk purpose links loc todo).map (Place.revise f) := by
  induction todo generalizing loc with
  | nil =>
    rw [walk, walk, get?_revise]
    rfl
  | cons e rest ih =>
    rw [walk, walk, get?_revise]
    by_cases still : e = [] ∨ e = Path.here
    · rw [if_pos still, if_pos still, ih]
    · rw [if_neg still, if_neg still]
      by_cases climbs : e = Path.up
      · rw [if_pos climbs, if_pos climbs, ih]
      · rw [if_neg climbs, if_neg climbs]
        by_cases long : nameLimit < e.length
        · rw [if_pos long, if_pos long]
          rfl
        · rw [if_neg long, if_neg long]
          by_cases ends : purpose = .creation ∧ rest ≠ [] ∧ onlySlashes rest
          · rw [if_pos ends, if_pos ends]
            rfl
          · rw [if_neg ends, if_neg ends]
            cases found : fs.get? (loc ++ [e]) with
            | none =>
              by_cases slashes : onlySlashes rest <;> simp [slashes, Except.map, Place.revise]
            | some node =>
              cases node with
              | directory time => exact ih (loc ++ [e])
              | file content time =>
                by_cases last : rest = [] <;> simp [last, Except.map, Place.revise, Node.revise]
              | link goal => exact absurd found tree.get?_ne_link

theorem resolve_revise (purpose : Purpose) (path : Bytes) :
    (fs.revise f).resolve purpose path = (fs.resolve purpose path).map (Place.revise f) := by
  unfold resolve
  split
  next => rfl
  next =>
    split
    next => rfl
    next =>
      split
      next => rfl
      next => exact walk_revise f tree purpose linkLimit _ _

theorem lookup_revise (purpose : Purpose) (path : Bytes) : (fs.revise f).lookup purpose path =
    (fs.lookup purpose path).map (Node.revise (f (locate fs.cwd path))) := by
  unfold lookup
  rw [resolve_revise f tree]
  cases resolved : fs.resolve purpose path with
  | error => rfl
  | ok place =>
    obtain ⟨loc, node?⟩ := place
    rw [← (tree.location_of_resolve resolved).1]
    cases node? <;> rfl

theorem list_revise (path : Bytes) : (fs.revise f).list path =
    (fs.list path).map fun (name, node) =>
      (name, node.revise (f (locate fs.cwd path ++ [name]))) := by
  unfold list
  rw [resolve_revise f tree]
  cases resolved : fs.resolve .target path with
  | error => rfl
  | ok place =>
    obtain ⟨loc, node?⟩ := place
    rw [← (tree.location_of_resolve resolved).1]
    match node? with
    | none => rfl
    | some (.directory time) => exact children_revise f fs loc
    | some (.file _ _) => rfl
    | some (.link _) => rfl

theorem makeDirectory_revise (path : Bytes) :
    (fs.revise f).makeDirectory path = (fs.makeDirectory path).map (revise f) := by
  unfold makeDirectory
  rw [resolve_revise f tree]
  cases fs.resolve .itself path with
  | error => rfl
  | ok place =>
    obtain ⟨loc, node?⟩ := place
    cases node? with
    | some => rfl
    | none => exact congrArg Except.ok (put_revise f fs (fun _ _ => rfl) rfl)

theorem makeLast_revise (path : Bytes) : makeDirectories.makeLast (fs.revise f) path =
    (makeDirectories.makeLast fs path).map (revise f) id := by
  unfold makeDirectories.makeLast
  rw [makeDirectory_revise f tree, lookup_revise f tree]
  cases fs.makeDirectory path with
  | ok => rfl
  | error fault =>
    match fs.lookup .itself path with
    | .error _ => rfl
    | .ok (.directory _) => rfl
    | .ok (.file _ _) => rfl
    | .ok (.link _) => rfl

theorem makeDirectories_revise {rooted : Bool} {es : List Bytes} (h : Path.IsRoute rooted es) :
    (fs.revise f).makeDirectories (Path.text rooted es) =
      (fs.makeDirectories (Path.text rooted es)).map (revise f) id := by
  induction es using List.reverseRecOn with
  | nil =>
    rw [makeDirectories_text_nil, makeDirectories_text_nil, lookup_revise f tree]
    cases fs.lookup .target (Path.text rooted []) with
    | ok node => simp [Except.map]
    | error => exact makeLast_revise f tree _
  | append_singleton es e ih =>
    have mid := (tree.evolves_makeDirectories h.of_append).tree
    rw [makeDirectories_text _ h, makeDirectories_text _ h, lookup_revise f tree, ih h.of_append]
    cases fs.lookup .target (Path.text rooted (es ++ [e])) with
    | ok node => simp [Except.map]
    | error =>
      by_cases first : es = []
      · simp only [first, if_true, Except.map]
        exact makeLast_revise f tree _
      · simp only [first, if_false, Except.map]
        rcases made : fs.makeDirectories (Path.text rooted es) with ⟨above, _ | _⟩
        · rfl
        · rw [made] at mid
          exact makeLast_revise f mid _

theorem writeFile_revise (path content : Bytes) : (fs.revise f).writeFile path content =
    (fs.writeFile path content).map
      (revise (Function.update f (locate fs.cwd path) id)) := by
  unfold writeFile
  rw [resolve_revise f tree]
  cases resolved : fs.resolve .creation path with
  | error => rfl
  | ok place =>
    obtain ⟨loc, node?⟩ := place
    have same := (tree.location_of_resolve resolved).1
    subst same
    have written : (fs.revise f).put (locate fs.cwd path) (.file content fs.clock) =
        (fs.put (locate fs.cwd path) (.file content fs.clock)).revise
          (Function.update f (locate fs.cwd path) id) :=
      put_revise f fs (fun l apart => Function.update_of_ne apart id f) (by simp)
    match node? with
    | some (.directory _) => rfl
    | none => exact congrArg Except.ok written
    | some (.file _ _) => exact congrArg Except.ok written
    | some (.link _) => exact congrArg Except.ok written

end FileSystem

namespace Expand

variable (f : Location → Bytes → Bytes) {fs : FileSystem} (tree : fs.IsTree)

include tree

theorem inDirectory_revise (dir pattern : Bytes) :
    inDirectory (fs.revise f) dir pattern = inDirectory fs dir pattern := by
  have names : ((fs.revise f).list dir).map Prod.fst = (fs.list dir).map Prod.fst := by
    rw [FileSystem.list_revise f tree, List.map_map]
    rfl
  simp only [inDirectory, names]

theorem paths_revise (pattern : Bytes) : paths (fs.revise f) pattern = paths fs pattern := by
  fun_induction paths fs pattern with
  | case1 pattern fault => rw [paths, if_pos fault]
  | case2 pattern sound plain node found =>
    rw [paths, if_neg sound, if_pos plain, FileSystem.lookup_revise f tree, found]
    rfl
  | case3 pattern sound plain fault missing =>
    rw [paths, if_neg sound, if_pos plain, FileSystem.lookup_revise f tree, missing]
    rfl
  | case4 pattern sound wild dir file plain =>
    rw [paths, if_neg sound, if_neg wild]
    exact (if_pos plain).trans (inDirectory_revise f tree dir file)
  | case5 pattern sound wild dir file deep shorter ih =>
    have each : inDirectory (fs.revise f) = inDirectory fs :=
      funext fun d => funext (inDirectory_revise f tree d)
    rw [paths, if_neg sound, if_neg wild, each]
    refine (if_neg deep).trans ((dif_pos shorter).trans ?_)
    rw [ih]
  | case6 pattern sound wild dir deep longer =>
    rw [paths, if_neg sound, if_neg wild]
    exact (if_neg deep).trans (dif_neg longer)

theorem filesBeneath_revise (depth : Nat) (path : Bytes) :
    filesBeneath (fs.revise f) depth path = filesBeneath fs depth path := by
  induction depth generalizing path with
  | zero => rfl
  | succ depth ih =>
    rw [filesBeneath, filesBeneath, FileSystem.list_revise f tree, List.flatMap_map]
    refine List.flatMap_congr fun ⟨name, node⟩ _ => ?_
    cases node with
    | directory => exact ih _
    | _ => rfl

theorem files_revise (path : Bytes) : files (fs.revise f) path = files fs path := by
  unfold files
  rw [FileSystem.lookup_revise f tree, FileSystem.lookup_revise f tree]
  have entries : (fs.revise f).nodes.length = fs.nodes.length := List.length_map _
  cases fs.lookup .target path with
  | error => rfl
  | ok node =>
    simp only [Except.map, Node.isDirectory_revise, entries, filesBeneath_revise f tree]
    match fs.lookup .itself path with
    | .error _ => rfl
    | .ok (.directory _) => rfl
    | .ok (.file _ _) => rfl
    | .ok (.link _) => rfl

theorem glob_revise (base pattern : Bytes) :
    glob (fs.revise f) base pattern = glob fs base pattern := by
  have same : files (fs.revise f) = files fs := funext (files_revise f tree)
  simp only [glob, same, paths_revise f tree]

theorem includes_revise (base : Bytes) (include_ exclude : List Bytes) :
    includes (fs.revise f) base include_ exclude = includes fs base include_ exclude := by
  have same : glob (fs.revise f) base = glob fs base := funext (glob_revise f tree base)
  simp only [includes, same]

end Expand

namespace Build

open LuaCompact.Path (locate)

/-- Whether a revision still stands, or has been overwritten: where it stands, there is what was
there before, or a directory. -/
def Stands (f g : Location → Bytes → Bytes) (fs fs' : FileSystem) : Prop :=
  ∀ loc, g loc = id ∨ g loc = f loc ∧ (fs'.get? loc = fs.get? loc ∨ fs'.isDirectory loc)

theorem stands_of_evolves (f : Location → Bytes → Bytes) {g : Location → Bytes → Bytes}
    {ways targets : Location → Prop} {fs fs' : FileSystem}
    (evolves : FileSystem.Evolves ways targets fs fs')
    (fresh : ∀ loc, g loc = id ∨ g loc = f loc ∧ ¬ targets loc) : Stands f g fs fs' := by
  intro loc
  refine (fresh loc).imp_right fun ⟨same, apart⟩ => ⟨same, ?_⟩
  rcases evolves.change loc with kept | ⟨_, _, made⟩ | ⟨target, _⟩
  · exact .inl kept
  · exact .inr (FileSystem.isDirectory_iff.mpr ⟨_, made⟩)
  · exact absurd target apart

theorem Stands.trans {f g h : Location → Bytes → Bytes} {fs mid fs' : FileSystem}
    (first : Stands f g fs mid) (later : Stands g h mid fs') : Stands f h fs fs' := by
  intro loc
  rcases later loc with fresh | ⟨same, final⟩
  · exact .inl fresh
  · rcases first loc with fresh | ⟨same', before⟩
    · exact .inl (same.trans fresh)
    · refine .inr ⟨same.trans same', ?_⟩
      rcases final with kept | dir
      · rw [FileSystem.isDirectory, kept]
        exact before
      · exact .inr dir

variable (f : Location → Bytes → Bytes) {fs : FileSystem} (tree : fs.IsTree)

include tree

theorem select_revise (src out : Bytes) (include_ exclude : List Bytes) :
    select (fs.revise f) src out include_ exclude = select fs src out include_ exclude := by
  unfold select FileSystem.stat
  rw [FileSystem.lookup_revise f tree, Expand.includes_revise f tree]
  cases fs.lookup .target src with
  | error => rfl
  | ok node => simp [Except.map, Except.mapError]

/-- A file is read as before if its own content is. -/
theorem readSource_revise {path : Bytes} (same : f (locate fs.cwd path) = id) :
    readSource (fs.revise f) path = readSource fs path := by
  unfold readSource FileSystem.readFile
  rw [FileSystem.lookup_revise f tree, same]
  cases fs.lookup .target path with
  | error => rfl
  | ok node => simp [Except.map]

theorem writeOutput_revise (path content : Bytes) :
    ∃ g, writeOutput (fs.revise f) path content =
        (writeOutput fs path content).map (FileSystem.revise g) id ∧
      Stands f g fs (writeOutput fs path content).1 := by
  have dirs : (fs.revise f).makeDirectories (Path.dir path) =
      (fs.makeDirectories (Path.dir path)).map (FileSystem.revise f) id := by
    rw [Path.dir, Path.clean_eq_text]
    exact FileSystem.makeDirectories_revise f tree (Path.isRoute_route _)
  have above := tree.evolves_makeDirectories_dir path
  have evolves := evolves_writeOutput tree path content
  unfold writeOutput at evolves ⊢
  rw [dirs]
  rcases made : fs.makeDirectories (Path.dir path) with ⟨mid, cause | _⟩
  · rw [made] at above
    exact ⟨f, rfl, stands_of_evolves f above fun _ => .inr ⟨rfl, id⟩⟩
  · rw [made] at above evolves
    have wrote := FileSystem.writeFile_revise f above.tree path content
    simp only [Prod.map_apply, id_eq, wrote]
    cases final : mid.writeFile path content with
    | error cause => exact ⟨f, rfl, stands_of_evolves f above fun _ => .inr ⟨rfl, id⟩⟩
    | ok written =>
      simp only [final] at evolves
      refine ⟨_, rfl, stands_of_evolves f evolves fun loc => ?_⟩
      rw [above.cwd]
      by_cases target : loc = locate fs.cwd path
      · exact .inl (target ▸ Function.update_self _ _ _)
      · exact .inr ⟨Function.update_of_ne target _ _, target⟩

theorem file_revise (policy : Policy) {input : Bytes} (output : Bytes)
    (same : f (locate fs.cwd input) = id) :
    ∃ g, file (fs.revise f) policy input output =
        (file fs policy input output).map (FileSystem.revise g) id ∧
      Stands f g fs (file fs policy input output).1 := by
  have read := readSource_revise f tree same
  cases content : readSource fs input with
  | error e =>
    rw [file_of_error (read.trans content), file_of_error content]
    exact ⟨f, rfl, fun _ => .inr ⟨rfl, .inl rfl⟩⟩
  | ok content' =>
    rw [file_of_ok (read.trans content), file_of_ok content]
    obtain ⟨g, wrote, stands⟩ := writeOutput_revise f tree output (minify policy content')
    refine ⟨g, ?_, stands⟩
    rw [wrote]
    rfl

omit tree in
/-- A build reads the inputs of its files and nothing else: with other content elsewhere it gives
the same total, prints the same and writes the same. -/
theorem files_revise (palette : Terminal.Palette) (quiet : Bool) (policy : Policy) (src out : Bytes)
    (paths : List Bytes) (p : Progress) (tree : p.fs.IsTree)
    (same : ∀ path ∈ paths, f (locate p.fs.cwd (Path.join src path)) = id) :
    ∃ g, files palette quiet policy src out paths { p with fs := p.fs.revise f } =
        { files palette quiet policy src out paths p with
          fs := (files palette quiet policy src out paths p).fs.revise g } ∧
      Stands f g p.fs (files palette quiet policy src out paths p).fs := by
  induction paths generalizing f p with
  | nil => exact ⟨f, rfl, fun _ => .inr ⟨rfl, .inl rfl⟩⟩
  | cons path paths ih =>
    have evolves := evolves_file tree policy (Path.join src path) (Path.join out path)
    obtain ⟨g, one, stands⟩ :=
      file_revise f tree policy (Path.join out path) (same path List.mem_cons_self)
    simp only [files, one]
    rcases built : file p.fs policy (Path.join src path) (Path.join out path) with ⟨fs', e | r⟩
    · rw [built] at stands
      exact ⟨g, rfl, stands⟩
    · rw [built] at stands evolves
      -- An input that has been written holds no revised content any more.
      have later : ∀ path' ∈ paths, g (locate fs'.cwd (Path.join src path')) = id := by
        intro path' mem
        rw [evolves.cwd]
        rcases stands (locate p.fs.cwd (Path.join src path')) with fresh | ⟨kept, _⟩
        · exact fresh
        · exact kept.trans (same path' (List.mem_cons_of_mem path mem))
      obtain ⟨h, rest, stands'⟩ := ih g
        { p with
          fs := fs'
          total := p.total.add r
          output := if quiet then p.output else p.output ++ fileNotice palette path r }
        evolves.tree later
      exact ⟨h, rest, stands.trans stands'⟩

end Build

end LuaCompact
