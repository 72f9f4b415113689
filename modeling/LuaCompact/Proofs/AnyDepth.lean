import LuaCompact.Proofs.Entries
import LuaCompact.Proofs.PatternAgreement

namespace LuaCompact

theorem Bytes.upToFirst_of_notMem {c : UInt8} {mark text : Bytes} (free : c ∉ text) :
    UpToFirst (c :: mark) text := by
  induction text with
  | nil =>
    intro before after h
    have lengths := congrArg List.length h
    simp only [List.nil_append, List.length_append, List.length_cons] at lengths
    exact List.eq_nil_of_length_eq_zero (by omega)
  | cons d text ih =>
    rw [List.mem_cons, not_or] at free
    intro before after h
    cases before with
    | nil => exact absurd (List.cons.inj h).1.symm free.1
    | cons e before => exact ih free.2 before after (List.cons.inj h).2

namespace Path

theorem ofElements_injective {es ns : List Bytes} (steps : ∀ e ∈ es, IsStep e)
    (steps' : ∀ e ∈ ns, IsStep e) (nonempty : es ≠ []) (nonempty' : ns ≠ [])
    (same : ofElements es = ofElements ns) : es = ns := by
  have read := elements_ofElements nonempty fun e mem => (steps e mem).2.2.2
  have read' := elements_ofElements nonempty' fun e mem => (steps' e mem).2.2.2
  rw [← read, same, read']

theorem join_ofElements (dir : Bytes) {es : List Bytes} (nonempty : es ≠ [])
    (steps : ∀ e ∈ es, IsStep e) : join dir (ofElements es) = under dir es := by
  rw [join_of_descends dir (descends_ofElements nonempty steps),
    elements_ofElements nonempty fun e mem => (steps e mem).2.2.2, under]

end Path

namespace Selection

/-- The pattern that asks for any number of directories below the one that some names lead to, and
for what follows behind them. -/
def anyDepthPattern (above : List Bytes) (after : Bytes) : Bytes :=
  Path.ofElements (above ++ [anyDepth, after])

theorem splitDepth?_anyDepthPattern {above : List Bytes} (literal : ∀ e ∈ above, Pattern.star ∉ e)
    (after : Bytes) :
    splitDepth? (anyDepthPattern above after) = some (Path.ofElements above, after) := by
  have parted {text : Bytes} (free : Pattern.star ∉ text) :
      splitDepth? (text ++ anyDepth ++ Byte.slash :: after) =
        some (Bytes.dropEnd [Byte.slash] text, after) := by
    have first : Bytes.UpToFirst anyDepth text := Bytes.upToFirst_of_notMem free
    rw [splitDepth?, Bytes.cut_of_upToFirst (by decide) first]
    simp [Bytes.dropStart]
  have mark : Path.ofElements [anyDepth, after] = anyDepth ++ Byte.slash :: after := by
    simp [Path.ofElements, List.intercalate_cons_cons]
  by_cases bare : above = []
  · subst bare
    have direct := @parted [] (by simp)
    rw [List.nil_append, ← mark] at direct
    exact direct
  · have whole : anyDepthPattern above after =
        (Path.ofElements above ++ [Byte.slash]) ++ anyDepth ++ Byte.slash :: after := by
      rw [anyDepthPattern, Path.ofElements_append bare (by simp), mark]
      simp
    have free : Pattern.star ∉ Path.ofElements above ++ [Byte.slash] := by
      intro mem
      rcases List.mem_append.mp mem with mem | mem
      · obtain slash | ⟨e, inside, star⟩ := Path.mem_ofElements mem
        · exact absurd slash (by decide)
        · exact literal e inside star
      · exact absurd mem (by decide)
    rw [whole, parted free]
    simp [Bytes.dropEnd]

end Selection

namespace Expand

open LuaCompact.Path (IsStep under locate)
open Selection (anyDepthPattern)

/-- A directory holds a file that names lead down to: each directory on the way can be opened. -/
def Holds (fs : FileSystem) (dir : Bytes) (ns : List Bytes) : Prop :=
  (∃ time, fs.lookup .target dir = .ok (.directory time)) ∧
    Reaches (Path.isRooted dir) (Path.route dir) (Path.route dir ++ ns) ∧
    fs.IsFile (locate fs.cwd dir ++ ns)

theorem Holds.ne_nil_and_steps {fs : FileSystem} {dir : Bytes} {ns : List Bytes}
    (holds : Holds fs dir ns) : ns ≠ [] ∧ ∀ e ∈ ns, IsStep e := by
  obtain ⟨ms, nonempty, steps, same⟩ := holds.2.1.exists_append
  rw [List.append_cancel_left same]
  exact ⟨nonempty, steps⟩

/-- Where the search for what follows an any-depth mark starts. -/
def start (base : Bytes) (above : List Bytes) : Bytes :=
  if above = [] then base else under base above

theorem route_start (base : Bytes) {above : List Bytes} (steps : ∀ e ∈ above, IsStep e) :
    Path.isRooted (start base above) = Path.isRooted base ∧
      Path.route (start base above) = Path.route base ++ above := by
  unfold start
  split
  next bare => simp [bare]
  next => exact ⟨Path.isRooted_under base steps, Path.route_under base steps⟩

theorem relative?_start (base : Bytes) {above : List Bytes} (steps : ∀ e ∈ above, IsStep e) :
    Path.relative? base (start base above) =
      some (if above = [] then Path.here else Path.ofElements above) := by
  unfold start
  split
  next => simp [Path.relative?]
  next below => exact Path.relative?_text base below steps

theorem start_eq_join (base : Bytes) {above : List Bytes} (steps : ∀ e ∈ above, IsStep e) :
    start base above = if Path.ofElements above = [] then base
      else Path.join base (Path.ofElements above) := by
  have bare := Path.ofElements_eq_nil_iff fun e mem => (steps e mem).1
  rw [start, if_congr bare rfl rfl]
  split
  next => rfl
  next below => exact (Path.join_ofElements base below steps).symm

theorem Holds.endsAtFile {fs : FileSystem} {path : Bytes} {ns : List Bytes}
    (holds : Holds fs path ns) : fs.endsAtFile path = false := by
  obtain ⟨⟨time, opened⟩, -⟩ := holds
  simp [FileSystem.endsAtFile, opened, Node.isDirectory]

theorem relative?_of_holds {fs : FileSystem} (base : Bytes) {above ns : List Bytes}
    (steps : ∀ e ∈ above, IsStep e) (holds : Holds fs (start base above) ns) :
    Path.relative? base (under (start base above) ns) = some (Path.ofElements (above ++ ns)) := by
  obtain ⟨nonempty, steps'⟩ := holds.ne_nil_and_steps
  obtain ⟨root, whole⟩ := route_start base steps
  rw [under, root, whole, List.append_assoc]
  exact Path.relative?_text base (by simp [nonempty]) (List.forall_mem_append.mpr ⟨steps, steps'⟩)

theorem glob_anyDepthPattern (fs : FileSystem) (base : Bytes) {above : List Bytes}
    (steps : ∀ e ∈ above, IsStep e) (literal : ∀ e ∈ above, Pattern.star ∉ e) (after : Bytes) :
    glob fs base (anyDepthPattern above after) = .ok (((files fs (start base above)).filter
      fun path => after = [] || Selection.matchesAfter (start base above) path after).filterMap
        (Path.relative? base)) := by
  rw [glob, Selection.splitDepth?_anyDepthPattern literal, start_eq_join base steps]

/-- The names behind some directories are matched. -/
def MatchesBehind (after : Bytes) (ds ns : List Bytes) : Prop :=
  ∃ rest, ns = ds ++ rest ∧ rest ≠ [] ∧ Pattern.admits after (Path.ofElements rest)

/-- The name of a file is what is left behind all directories, and its path what is left behind
none. -/
theorem matchesAfter_under_iff {dir after : Bytes} {ns : List Bytes} (nonempty : ns ≠ [])
    (steps : ∀ e ∈ ns, IsStep e) : Selection.matchesAfter dir (under dir ns) after = true ↔
      ∃ ds, MatchesBehind after ds ns ∧ (ds = [] ∨ ds.length + 1 = ns.length) := by
  obtain ⟨front, name, rfl⟩ := (List.eq_nil_or_concat' ns).resolve_left nonempty
  have isStep : IsStep name := steps name (by simp)
  have whole := Path.relative?_text dir nonempty steps
  have single : Path.ofElements [name] = name := by simp [Path.ofElements]
  rw [Selection.matchesAfter, Path.base_under dir front isStep, under, whole, Bool.or_eq_true]
  constructor
  · rintro (own | whole)
    · exact ⟨front, ⟨[name], rfl, by simp, by rwa [single]⟩, .inr (by simp)⟩
    · exact ⟨[], ⟨front ++ [name], rfl, by simp, whole⟩, .inl rfl⟩
  · rintro ⟨ds, ⟨rest, same, more, admits⟩, rfl | last⟩
    · rw [List.nil_append] at same
      exact .inr (same ▸ admits)
    · have short := congrArg List.length same
      simp only [List.length_append, List.length_singleton] at short last
      obtain ⟨-, tail⟩ := List.append_inj same (by omega)
      rw [← tail, single] at admits
      exact .inl admits

/-- What stands for no slash is matched behind all directories only. -/
theorem length_of_matchesBehind {after : Bytes} (within : Pattern.slashFree after)
    {ds ns : List Bytes} (behind : MatchesBehind after ds ns) : ds.length + 1 = ns.length := by
  obtain ⟨rest, rfl, nonempty, admits⟩ := behind
  obtain ⟨front, name, rfl⟩ := (List.eq_nil_or_concat' rest).resolve_left nonempty
  have free := Pattern.slash_notMem_of_admits within admits
  have single : front = [] := by
    by_contra deep
    simp [Path.ofElements_concat deep] at free
  simp [single]

variable {fs : FileSystem} (tree : fs.IsTree)

include tree

/-- What is listed for a path: the files that it holds as a directory, or itself as a file. -/
theorem mem_files_iff {path q : Bytes} : q ∈ files fs path ↔
    (∃ ns, Holds fs path ns ∧ q = under path ns) ∨ fs.endsAtFile path = true ∧ q = path := by
  cases looked : fs.lookup .target path with
  | error => simp [files, Holds, FileSystem.endsAtFile, looked]
  | ok node =>
    obtain ⟨usable, held⟩ := tree.lookup_eq_ok looked
    cases node with
    | link => exact absurd held tree.get?_ne_link
    | file => simp [files, Holds, FileSystem.endsAtFile, looked, Node.isDirectory]
    | directory time =>
      have listed := mem_files (q := q) tree fun (_ : FileSystem.Usable path) found => by
        rw [looked, ← Option.some.inj (held.symm.trans found)]
      simp only [listed, FileSystem.endsAtFile, looked, Node.isDirectory, Bool.not_true,
        Bool.false_eq_true, false_and, or_false]
      constructor
      · rintro ⟨⟨_, rfl | ⟨goal, reaches, rfl⟩⟩, file⟩
        · obtain ⟨content, time', file⟩ := file
          simp [held] at file
        · obtain ⟨ns, nonempty, steps, rfl⟩ := reaches.exists_append
          rw [Path.locate_route_append fs.cwd path steps] at file
          exact ⟨ns, ⟨⟨time, looked⟩, reaches, file⟩, rfl⟩
      · rintro ⟨ns, holds, rfl⟩
        rw [Path.locate_under path holds.ne_nil_and_steps.2]
        exact ⟨⟨usable, .inr ⟨_, holds.2.1, rfl⟩⟩, holds.2.2⟩

section

variable (base : Bytes) {above : List Bytes} (steps : ∀ e ∈ above, IsStep e)

include steps

/-- Seen from the directory that a search starts from, what it lists stays distinct. -/
theorem nodup_relative {listed : List Bytes} (distinct : listed.Nodup)
    (sub : ∀ q ∈ listed, q ∈ files fs (start base above)) :
    (listed.filterMap (Path.relative? base)).Nodup := by
  refine (List.Pairwise.and_mem.mp distinct).filterMap _ ?_
  rintro q q' ⟨mem, mem', apart⟩ p rel p' rel' rfl
  have same : Path.relative? base q = Path.relative? base q' := rel.trans rel'.symm
  rcases (mem_files_iff tree).mp (sub q mem) with ⟨ns, holds, rfl⟩ | ⟨file, rfl⟩ <;>
    rcases (mem_files_iff tree).mp (sub q' mem') with ⟨ms, holds', rfl⟩ | ⟨file', rfl⟩
  · obtain ⟨nonempty, below⟩ := holds.ne_nil_and_steps
    obtain ⟨nonempty', below'⟩ := holds'.ne_nil_and_steps
    rw [relative?_of_holds base steps holds, relative?_of_holds base steps holds'] at same
    have names := Path.ofElements_injective (List.forall_mem_append.mpr ⟨steps, below⟩)
      (List.forall_mem_append.mpr ⟨steps, below'⟩) (by simp [nonempty]) (by simp [nonempty'])
      (Option.some.inj same)
    rw [List.append_cancel_left names] at apart
    exact apart rfl
  · rw [holds.endsAtFile] at file'
    contradiction
  · rw [holds'.endsAtFile] at file
    contradiction
  · exact apart rfl

end

/-- The paths that a search finds, one by one. -/
theorem mem_search_iff (base : Bytes) {above : List Bytes} (steps : ∀ e ∈ above, IsStep e)
    {fits : Bytes → Bool} {path : Bytes} :
    path ∈ ((files fs (start base above)).filter fits).filterMap (Path.relative? base) ↔
      (∃ ns, Holds fs (start base above) ns ∧ path = Path.ofElements (above ++ ns) ∧
        fits (under (start base above) ns) = true) ∨
      (fs.endsAtFile (start base above) = true ∧
        path = (if above = [] then Path.here else Path.ofElements above) ∧
        fits (start base above) = true) := by
  have itself := relative?_start base steps
  simp only [List.mem_filterMap, List.mem_filter, mem_files_iff tree]
  constructor
  · rintro ⟨_, ⟨⟨ns, holds, rfl⟩ | ⟨file, rfl⟩, taken⟩, rel⟩
    · rw [relative?_of_holds base steps holds] at rel
      exact .inl ⟨ns, holds, (Option.some.inj rel).symm, taken⟩
    · rw [itself] at rel
      exact .inr ⟨file, (Option.some.inj rel).symm, taken⟩
  · rintro (⟨ns, holds, rfl, taken⟩ | ⟨file, rfl, taken⟩)
    · exact ⟨_, ⟨.inl ⟨ns, holds, rfl⟩, taken⟩, relative?_of_holds base steps holds⟩
    · exact ⟨_, ⟨.inr ⟨file, rfl⟩, taken⟩, itself⟩

/-- What follows an any-depth mark is looked for behind no directory and behind all of them, and
nowhere between. A pattern of one element is thus found at any depth: each file below the start
whose path ends with a match is selected, and selected once. -/
theorem glob_anyDepth (base : Bytes) {above : List Bytes} (steps : ∀ e ∈ above, IsStep e)
    (literal : ∀ e ∈ above, Pattern.star ∉ e) (after : Bytes) :
    ∃ found, glob fs base (anyDepthPattern above after) = .ok found ∧ found.Nodup ∧
      (∀ path, path ∈ found ↔
        (∃ ns, Holds fs (start base above) ns ∧ path = Path.ofElements (above ++ ns) ∧
          (after = [] ∨
            ∃ ds, MatchesBehind after ds ns ∧ (ds = [] ∨ ds.length + 1 = ns.length))) ∨
        (fs.endsAtFile (start base above) = true ∧
          path = (if above = [] then Path.here else Path.ofElements above) ∧
          (after = [] ∨ Pattern.admits after (Path.base (start base above)) ∨
            Pattern.admits after Path.here))) ∧
      (Pattern.slashFree after → after ≠ [] → fs.endsAtFile (start base above) = false →
        ∀ path, path ∈ found ↔ ∃ ns, Holds fs (start base above) ns ∧
          path = Path.ofElements (above ++ ns) ∧ ∃ ds, MatchesBehind after ds ns) := by
  have fitsIff {ns : List Bytes} (holds : Holds fs (start base above) ns) :
      (decide (after = []) || Selection.matchesAfter (start base above)
        (under (start base above) ns) after) = true ↔
      after = [] ∨ ∃ ds, MatchesBehind after ds ns ∧ (ds = [] ∨ ds.length + 1 = ns.length) := by
    obtain ⟨nonempty, below⟩ := holds.ne_nil_and_steps
    rw [Bool.or_eq_true, decide_eq_true_eq, matchesAfter_under_iff nonempty below]
  have itself : Path.relative? (start base above) (start base above) = some Path.here := by
    simp [Path.relative?]
  refine ⟨_, glob_anyDepthPattern fs base steps literal after, ?_, fun path => ?_, ?_⟩
  · exact nodup_relative tree base steps ((nodup_files tree _).filter _)
      fun q mem => List.mem_of_mem_filter mem
  · rw [mem_search_iff tree base steps]
    refine or_congr (exists_congr fun ns => and_congr_right fun holds => ?_) ?_
    · rw [fitsIff holds]
    · simp [Selection.matchesAfter, itself]
  · intro within named plain path
    rw [mem_search_iff tree base steps, plain]
    simp only [Bool.false_eq_true, false_and, or_false]
    refine exists_congr fun ns => and_congr_right fun holds => ?_
    rw [fitsIff holds]
    refine and_congr_right fun _ => ⟨fun fits => ?_, fun fits => ?_⟩
    · obtain ⟨ds, behind, -⟩ := fits.resolve_left named
      exact ⟨ds, behind⟩
    · obtain ⟨ds, behind⟩ := fits
      exact .inr ⟨ds, behind, .inr (length_of_matchesBehind within behind)⟩

omit tree

/-- A file three directories down. -/
def nestedSource : FileSystem :=
  ⟨[([utf8 "s"], .directory .zero), ([utf8 "s", utf8 "a"], .directory .zero),
    ([utf8 "s", utf8 "a", utf8 "b"], .directory .zero),
    ([utf8 "s", utf8 "a", utf8 "b", utf8 "x.lua"], .file (utf8 "x = 1\n") .zero)], [], .zero⟩

theorem isTree_nestedSource : nestedSource.IsTree := by decide

/-- What a listing comes to is held. -/
theorem holds_of_files {fs : FileSystem} (tree : fs.IsTree) {path q : Bytes} {ns : List Bytes}
    (steps : ∀ e ∈ ns, IsStep e) (listed : q ∈ files fs path) (spelled : q = under path ns)
    (opens : fs.endsAtFile path = false) : Holds fs path ns := by
  rcases (mem_files_iff tree).mp listed with ⟨ms, holds, same⟩ | ⟨file, -⟩
  · rwa [Path.under_injective path steps holds.ne_nil_and_steps.2 (spelled.symm.trans same)]
  · rw [opens] at file
    contradiction

theorem glob_anyDepth_nested :
    nestedSource.IsTree ∧ (∀ e ∈ [utf8 "a"], IsStep e ∧ Pattern.star ∉ e) ∧
      anyDepthPattern [utf8 "a"] (utf8 "*.lua") = utf8 "a/**/*.lua" ∧
      ∃ found, glob nestedSource (utf8 "s") (utf8 "a/**/*.lua") = .ok found ∧ found.Nodup ∧
        utf8 "a/b/x.lua" ∈ found := by
  have steps : ∀ e ∈ [utf8 "a"], IsStep e ∧ Pattern.star ∉ e := by decide
  have written : anyDepthPattern [utf8 "a"] (utf8 "*.lua") = utf8 "a/**/*.lua" := by decide
  have listed : files nestedSource (start (utf8 "s") [utf8 "a"]) = [utf8 "s/a/b/x.lua"] := by cbv
  have opens : nestedSource.endsAtFile (start (utf8 "s") [utf8 "a"]) = false := by cbv
  have holds : Holds nestedSource (start (utf8 "s") [utf8 "a"]) [utf8 "b", utf8 "x.lua"] :=
    holds_of_files isTree_nestedSource (by decide) (by rw [listed]; exact List.mem_cons_self)
      (by decide) opens
  have fits : Pattern.admits (utf8 "*.lua") (utf8 "x.lua") = true := by cbv
  obtain ⟨found, ok, distinct, -, whole⟩ := glob_anyDepth isTree_nestedSource (utf8 "s")
    (fun e mem => (steps e mem).1) (fun e mem => (steps e mem).2) (utf8 "*.lua")
  rw [written] at ok
  refine ⟨isTree_nestedSource, steps, written, found, ok, distinct, ?_⟩
  refine (whole (by cbv) (by decide) opens _).mpr
    ⟨_, holds, by decide, [utf8 "b"], [utf8 "x.lua"], rfl, by simp, ?_⟩
  simpa [Path.ofElements] using fits

/-- A pattern of two elements is not found behind one directory of two. -/
theorem glob_anyDepth_misses :
    nestedSource.IsTree ∧ anyDepthPattern [] (utf8 "b/x.lua") = utf8 "**/b/x.lua" ∧
      glob nestedSource (utf8 "s") (utf8 "**/b/x.lua") = .ok [] ∧
      ¬ ∀ path, path ∈ ([] : List Bytes) ↔ ∃ ns, Holds nestedSource (start (utf8 "s") []) ns ∧
        path = Path.ofElements ([] ++ ns) ∧ ∃ ds, MatchesBehind (utf8 "b/x.lua") ds ns := by
  have listed : files nestedSource (start (utf8 "s") []) = [utf8 "s/a/b/x.lua"] := by cbv
  have opens : nestedSource.endsAtFile (start (utf8 "s") []) = false := by cbv
  have holds : Holds nestedSource (start (utf8 "s") []) [utf8 "a", utf8 "b", utf8 "x.lua"] :=
    holds_of_files isTree_nestedSource (by decide) (by rw [listed]; exact List.mem_cons_self)
      (by decide) opens
  have fits : Pattern.admits (utf8 "b/x.lua") (Path.ofElements [utf8 "b", utf8 "x.lua"]) := by cbv
  refine ⟨isTree_nestedSource, by decide, by cbv, fun claimed => ?_⟩
  have taken := (claimed (utf8 "a/b/x.lua")).mpr
    ⟨_, holds, by decide, [utf8 "a"], [utf8 "b", utf8 "x.lua"], rfl, by simp, fits⟩
  contradiction

end Expand

end LuaCompact
