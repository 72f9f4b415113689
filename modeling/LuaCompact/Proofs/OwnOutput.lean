import LuaCompact.Proofs.Confinement
import LuaCompact.Proofs.PlainPattern

namespace LuaCompact

namespace Expand

open LuaCompact.Path (IsStep IsRoute locate)

/-- More exclude patterns take out more of the same files. -/
theorem includes_append (fs : FileSystem) (base : Bytes) (include_ exclude more : List Bytes) :
    includes fs base include_ (exclude ++ more) =
      (includes fs base include_ exclude).map
        (List.filter fun path => !Selection.isExcluded path more) := by
  cases each : include_.mapM (glob fs base) with
  | error => simp [includes_eq, each, Except.map]
  | ok found =>
    have listed (patterns : List Bytes) : includes fs base include_ patterns = .ok
        ((found.flatten.filter fun path => !Selection.isExcluded path patterns).eraseDups.mergeSort
          Bytes.le) := by
      simp [includes_eq, each, Except.map]
    rw [listed, listed]
    refine congrArg Except.ok (Bytes.eq_of_mem_iff (pairwise_includes (listed _)) ?_
      (nodup_includes (listed _)) ?_ fun path => ?_)
    · exact (pairwise_includes (listed exclude)).filter _
    · exact (nodup_includes (listed exclude)).filter _
    · simp only [List.mem_mergeSort, List.mem_eraseDups, List.mem_filter, Selection.isExcluded,
        List.any_append, Bool.not_or, Bool.and_eq_true, and_assoc]

/-- Whether no element of a pattern without any-depth mark is malformed. -/
def Faultless (base pattern : Bytes) : Prop :=
  Selection.splitDepth? pattern = none →
    ∀ e ∈ Path.route (Path.join base pattern), PatternPart.fault ∉ Pattern.parts e

theorem exists_inDirectory (fs : FileSystem) (dir : Bytes) {pattern : Bytes}
    (sound : PatternPart.fault ∉ Pattern.parts pattern) :
    ∃ found, inDirectory fs dir pattern = .ok found := by
  refine ⟨_, if_neg ?_⟩
  simp [Pattern.isSome_accepts? sound, ← Option.not_isSome]

theorem exists_paths_of_plain {fs : FileSystem} (fs' : FileSystem) {pattern : Bytes}
    (plain : Pattern.hasMeta pattern = false) {found : List Bytes}
    (ok : paths fs pattern = .ok found) : ∃ found', paths fs' pattern = .ok found' := by
  rw [paths] at ok ⊢
  split at ok
  next => contradiction
  next sound =>
    simp only [plain, Bool.not_false, if_true, if_neg sound]
    cases fs'.lookup .itself pattern with
    | ok => exact ⟨_, rfl⟩
    | error => exact ⟨_, rfl⟩

/-- A pattern without fault is refused in no tree if it is accepted in one. -/
theorem exists_paths {fs : FileSystem} (fs' : FileSystem) {rooted : Bool} {es : List Bytes}
    (h : IsRoute rooted es) (sound : ∀ e ∈ es, PatternPart.fault ∉ Pattern.parts e)
    {found : List Bytes} (ok : paths fs (Path.text rooted es) = .ok found) :
    ∃ found', paths fs' (Path.text rooted es) = .ok found' := by
  induction es using List.reverseRecOn generalizing found with
  | nil => exact exists_paths_of_plain fs' (by cases rooted <;> decide) ok
  | append_singleton es e ih =>
    by_cases wild : Pattern.hasMeta (Path.text rooted (es ++ [e])) = true
    · have last : PatternPart.fault ∉ Pattern.parts e := sound e (by simp)
      rw [paths_text fs h wild] at ok
      rw [paths_text fs' h wild]
      split at ok
      next => contradiction
      next decided =>
        rw [if_neg decided]
        split at ok
        next deep =>
          cases above : paths fs (Path.text rooted es) with
          | error => simp [above, bind, Except.bind] at ok
          | ok dirs =>
            obtain ⟨dirs', above'⟩ :=
              ih h.of_append (fun e' mem => sound e' (List.mem_append_left [e] mem)) above
            obtain ⟨lists, each⟩ := exists_mapM fun dir (_ : dir ∈ dirs') =>
              exists_inDirectory fs' dir last
            refine ⟨lists.flatten, ?_⟩
            simp [deep, above', each, bind, Except.bind, pure, Except.pure]
        next plain =>
          rw [if_neg plain]
          exact exists_inDirectory fs' _ last
    · exact exists_paths_of_plain fs' (by simpa using wild) ok

theorem exists_includes {fs : FileSystem} (fs' : FileSystem) {base : Bytes} (named : base ≠ [])
    {include_ exclude paths : List Bytes} (sound : ∀ pattern ∈ include_, Faultless base pattern)
    (ok : includes fs base include_ exclude = .ok paths) :
    ∃ paths', includes fs' base include_ exclude = .ok paths' := by
  refine exists_includes_iff.mpr fun pattern mem => ?_
  obtain ⟨found, ok⟩ := exists_includes_iff.mp ⟨paths, ok⟩ pattern mem
  cases marked : Selection.splitDepth? pattern with
  | some parts =>
    rw [glob, marked]
    exact ⟨_, rfl⟩
  | none =>
    simp only [glob, marked] at ok ⊢
    rw [Path.join_eq_text named] at ok ⊢
    cases listed : Expand.paths fs
        (Path.text (Path.isRooted base) (Path.route (Path.join base pattern))) with
    | error => simp [listed, bind, Except.bind] at ok
    | ok starts =>
      obtain ⟨starts', listed'⟩ := exists_paths fs' (Path.isRoute_join named pattern)
        (sound pattern mem marked) listed
      exact ⟨_, by simp [listed', bind, Except.bind, pure, Except.pure]; rfl⟩

end Expand

namespace Build

open LuaCompact.Path (IsStep locate)
open Expand (Inward Faultless)

section

variable {src out : Bytes} {ns : List Bytes} (root : Path.isRooted src = Path.isRooted out)
  (nonempty : ns ≠ []) (steps : ∀ e ∈ ns, IsStep e)
  (inside : Path.route out = Path.route src ++ ns)
  (ahead : ¬ Path.up <+: Path.ofElements ns)

include root nonempty steps inside ahead

theorem withOwnOutput_of_inside (exclude : List Bytes) :
    withOwnOutput src out exclude = exclude ++ [Path.ofElements ns] := by
  have named : Path.ofElements ns ≠ Path.here := by
    intro same
    have only : ns = [Path.here] := by
      rw [← Path.elements_ofElements nonempty fun e mem => (steps e mem).2.2.2, same]
      decide
    exact (steps Path.here (by simp [only])).2.1 rfl
  have apart : Path.up.isPrefixOf (Path.ofElements ns) = false := by
    simpa [← Bool.not_eq_true, List.isPrefixOf_iff_prefix] using ahead
  simp [withOwnOutput, Path.relative?_of_route root nonempty inside, named, apart]

variable (plain : Pattern.hasMeta (Path.ofElements ns) = false)

include plain

theorem isExcluded_of_prefix (exclude : List Bytes) {path : Bytes}
    (beneath : ns <+: Path.elements path) :
    Selection.isExcluded path (withOwnOutput src out exclude) = true := by
  have taken := (Selection.matchesPattern_of_plain nonempty steps plain path).mpr (.inl beneath)
  simp [withOwnOutput_of_inside root nonempty steps inside ahead, Selection.isExcluded, taken]

/-- What a pattern stands for and no exclude pattern takes out does not lie in the output
directory. -/
theorem not_prefix_of_kept (exclude : List Bytes) {pattern q path : Bytes}
    (inward : Inward src pattern) (stands : Expand.StandsFor src pattern q)
    (rel : Path.relative? src q = some path)
    (kept : Selection.isExcluded path (withOwnOutput src out exclude) = false) (cwd : Location) :
    ¬ locate cwd out <+: locate cwd q := by
  intro beneath
  obtain ⟨root', ms, steps', whole⟩ := stands.beneath inward
  rw [Path.locate_of_route root' steps' whole, Path.locate_of_route root.symm steps inside]
    at beneath
  have shared : ns <+: ms := (List.prefix_append_right_inj _).mp beneath
  have below : ms ≠ [] := by
    rintro rfl
    exact nonempty (List.prefix_nil.mp shared)
  rw [Path.relative?_of_route root'.symm below whole] at rel
  cases Option.some.inj rel
  rw [← Path.elements_ofElements below fun e mem => (steps' e mem).2.2.2] at shared
  have taken := isExcluded_of_prefix root nonempty steps inside ahead plain exclude shared
  rw [kept] at taken
  contradiction

/-- The files that a build selects, for an output directory within the source directory. -/
theorem select_inside_iff {fs : FileSystem} {include_ exclude paths : List Bytes} :
    select fs src out include_ exclude = .ok paths ↔
      (∃ time, fs.lookup .target src = .ok (.directory time)) ∧
      ∃ found, Expand.includes fs src include_ exclude = .ok found ∧
        paths = found.filter fun path =>
          !(ns.isPrefixOf (Path.elements path) || Path.base path = Path.ofElements ns) := by
  have taken : (fun path => !Selection.isExcluded path [Path.ofElements ns]) = fun path =>
      !(ns.isPrefixOf (Path.elements path) || Path.base path = Path.ofElements ns) := by
    funext path
    have exact_ := Selection.matchesPattern_of_plain nonempty steps plain path
    congr 1
    rw [Bool.eq_iff_iff]
    simpa [Selection.isExcluded, List.isPrefixOf_iff_prefix] using exact_
  rw [select_eq_ok_iff, withOwnOutput_of_inside root nonempty steps inside ahead,
    Expand.includes_append, taken]
  refine and_congr_right fun _ => ?_
  cases Expand.includes fs src include_ exclude with
  | error => simp [Except.map]
  | ok found => simp [Except.map, eq_comm]

variable {fs : FileSystem} (tree : fs.IsTree) (palette : Terminal.Palette) (quiet : Bool)
  (policy : Policy) {include_ : List Bytes} (exclude : List Bytes)
  (inward : ∀ pattern ∈ include_, Inward src pattern)

omit root nonempty steps inside ahead plain in
include tree inward in
/-- Outside its output directory a build makes no files and removes none. -/
theorem isFile_directory_iff {loc : Location} (apart : ¬ locate fs.cwd out <+: loc) :
    (directory fs palette quiet policy src out include_ exclude).fs.IsFile loc ↔ fs.IsFile loc := by
  rcases directory_writes_beneath tree palette quiet policy out exclude inward loc with
    same | beneath | ⟨_, gone, made⟩
  · simp only [FileSystem.IsFile, same]
  · exact absurd beneath apart
  · obtain ⟨time, made⟩ := FileSystem.isDirectory_iff.mp made
    simp [FileSystem.IsFile, gone, made]

include tree inward in
/-- A build right after another selects the same files. -/
theorem select_directory (sound : ∀ pattern ∈ include_, Faultless src pattern) :
    select (directory fs palette quiet policy src out include_ exclude).fs src out include_
        exclude =
      select fs src out include_ exclude := by
  cases selected : select fs src out include_ exclude with
  | error e => simp [directory, selected]
  | ok paths =>
    obtain ⟨⟨time, opened⟩, ok⟩ := select_eq_ok_iff.mp selected
    have evolves := evolves_directory tree palette quiet policy selected
    obtain ⟨time', opened'⟩ := evolves.lookup_directory tree opened
    obtain ⟨paths', ok'⟩ := Expand.exists_includes
      (directory fs palette quiet policy src out include_ exclude).fs
      (tree.lookup_eq_ok opened).1.2.1 sound ok
    have same : paths' = paths := by
      refine Bytes.eq_of_mem_iff (Expand.pairwise_includes ok') (Expand.pairwise_includes ok)
        (Expand.nodup_includes ok') (Expand.nodup_includes ok) fun p => ?_
      rw [Expand.mem_includes evolves.tree opened' ok', Expand.mem_includes tree opened ok,
        evolves.cwd]
      refine and_congr_left fun kept => exists_congr fun pattern =>
        and_congr_right fun mem => exists_congr fun q => and_congr_right fun stands =>
        and_congr_left fun rel => ?_
      refine isFile_directory_iff tree palette quiet policy exclude inward ?_
      exact not_prefix_of_kept root nonempty steps inside ahead plain exclude
        (inward pattern mem) stands rel kept fs.cwd
    rw [select_eq_ok_iff, ← same]
    exact ⟨⟨time', opened'⟩, ok'⟩

end

/-- An output directory within the source directory, under a name without special characters that
does not begin with two dots, is left out: of the files that the patterns give, a build selects
those that are not at the output directory or beneath it and do not bear its path as their name. In
a tree, and with patterns that lead inward and hold no fault, a build selects the same files before
and after another. -/
theorem own_output_left_out {src out : Bytes} {ns : List Bytes}
    (root : Path.isRooted src = Path.isRooted out) (nonempty : ns ≠ [])
    (steps : ∀ e ∈ ns, IsStep e) (inside : Path.route out = Path.route src ++ ns)
    (ahead : ¬ Path.up <+: Path.ofElements ns)
    (plain : Pattern.hasMeta (Path.ofElements ns) = false) :
    (∀ fs include_ exclude paths, select fs src out include_ exclude = .ok paths ↔
      (∃ time, fs.lookup .target src = .ok (.directory time)) ∧
      ∃ found, Expand.includes fs src include_ exclude = .ok found ∧
        paths = found.filter fun path =>
          !(ns.isPrefixOf (Path.elements path) || Path.base path = Path.ofElements ns)) ∧
    ∀ fs palette quiet policy include_ exclude, fs.IsTree →
      (∀ pattern ∈ include_, Inward src pattern ∧ Faultless src pattern) →
      select (directory fs palette quiet policy src out include_ exclude).fs src out include_
          exclude =
        select fs src out include_ exclude := by
  constructor
  · intro fs include_ exclude paths
    exact select_inside_iff root nonempty steps inside ahead plain
  · intro fs palette quiet policy include_ exclude tree patterns
    exact select_directory root nonempty steps inside ahead plain tree palette quiet policy exclude
      (fun pattern mem => (patterns pattern mem).1) fun pattern mem => (patterns pattern mem).2

def oneSource : FileSystem :=
  ⟨[([utf8 "s"], .directory .zero), ([utf8 "s", utf8 "x.lua"], .file (utf8 "x = 1\n") .zero)],
    [], .zero⟩

theorem own_output_left_out_sample :
    Path.route (utf8 "s/dist") = Path.route (utf8 "s") ++ [utf8 "dist"] ∧ oneSource.IsTree ∧
      (∀ pattern ∈ [utf8 "**/*.lua"], Inward (utf8 "s") pattern ∧ Faultless (utf8 "s") pattern) ∧
      select (directory oneSource .plain true .literal (utf8 "s") (utf8 "s/dist")
          [utf8 "**/*.lua"] []).fs (utf8 "s") (utf8 "s/dist") [utf8 "**/*.lua"] [] =
        select oneSource (utf8 "s") (utf8 "s/dist") [utf8 "**/*.lua"] [] := by
  have inside : Path.route (utf8 "s/dist") = Path.route (utf8 "s") ++ [utf8 "dist"] := by
    decide
  have tree : oneSource.IsTree := by decide
  have patterns : ∀ pattern ∈ [utf8 "**/*.lua"],
      Inward (utf8 "s") pattern ∧ Faultless (utf8 "s") pattern := by
    intro pattern mem
    cases List.mem_singleton.mp mem
    have marked : Selection.splitDepth? (utf8 "**/*.lua") = some ([], utf8 "*.lua") := by
      decide
    simp [Inward, Faultless, marked]
  exact ⟨inside, tree, patterns,
    (own_output_left_out (by decide) (by decide) (by decide) inside
      (by decide) (by decide)).2 oneSource .plain true .literal [utf8 "**/*.lua"] []
        tree patterns⟩

/-- An output directory whose name is a pattern is not left out: the next build takes what this one
has written. -/
theorem own_output_taken :
    oneSource.IsTree ∧ IsStep (utf8 "d?") ∧
      Path.isRooted (utf8 "s") = Path.isRooted (utf8 "s/d?") ∧
      Path.route (utf8 "s/d?") = Path.route (utf8 "s") ++ [utf8 "d?"] ∧
      (directory oneSource .plain true .literal (utf8 "s") (utf8 "s/d?") [utf8 "**/*.lua"]
        []).error? = none ∧
      select (directory oneSource .plain true .literal (utf8 "s") (utf8 "s/d?") [utf8 "**/*.lua"]
          []).fs (utf8 "s") (utf8 "s/d?") [utf8 "**/*.lua"] [] ≠
        select oneSource (utf8 "s") (utf8 "s/d?") [utf8 "**/*.lua"] [] := by
  have first : select oneSource (utf8 "s") (utf8 "s/d?") [utf8 "**/*.lua"] [] =
      .ok [utf8 "x.lua"] := by cbv
  have done : (directory oneSource .plain true .literal (utf8 "s") (utf8 "s/d?")
      [utf8 "**/*.lua"] []).error? = none := by
    rw [directory, first]
    cbv
  have second : select (directory oneSource .plain true .literal (utf8 "s") (utf8 "s/d?")
      [utf8 "**/*.lua"] []).fs (utf8 "s") (utf8 "s/d?") [utf8 "**/*.lua"] [] =
        .ok [utf8 "d?/x.lua", utf8 "x.lua"] := by
    rw [directory, first]
    cbv
  refine ⟨by decide, by decide, by decide, by decide, done, ?_⟩
  rw [first, second]
  simp

end Build

end LuaCompact
