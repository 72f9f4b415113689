import LuaCompact.Proofs.Descent
import LuaCompact.Proofs.FileByFile
import Mathlib

namespace LuaCompact.Build

open LuaCompact.Path (locate)
open FileSystem (Evolves)
open Expand (Inward)

theorem readSource_eq_ok_iff {fs : FileSystem} {path content : Bytes} :
    readSource fs path = .ok content ↔
      (∃ time, fs.lookup .target path = .ok (.file content time)) ∧ Utf8.isValid content := by
  unfold readSource FileSystem.readFile
  match fs.lookup .target path with
  | .error _ => simp
  | .ok (.directory _) => simp
  | .ok (.link _) => simp
  | .ok (.file held time) =>
    simp only [Except.ok.injEq, Node.file.injEq, exists_and_left, exists_eq', and_true]
    split
    next valid =>
      refine ⟨fun same => ?_, fun both => congrArg Except.ok both.1⟩
      cases Except.ok.inj same
      exact ⟨rfl, valid⟩
    next invalid =>
      simp only [reduceCtorEq, false_iff, not_and]
      rintro rfl
      exact invalid

/-- A source that is no target reads the same before and after. -/
theorem readSource_iff_of_evolves {ways targets : Location → Prop} {fs fs' : FileSystem}
    (tree : fs.IsTree) (evolves : Evolves ways targets fs fs') {src : Bytes} (named : src ≠ [])
    {path content : Bytes} (apart : ¬ targets (locate fs.cwd (Path.join src path))) :
    readSource fs' (Path.join src path) = .ok content ↔
      readSource fs (Path.join src path) = .ok content := by
  have isRoute := Path.isRoute_join named path
  rw [readSource_eq_ok_iff, readSource_eq_ok_iff]
  rw [Path.join_eq_text named] at apart ⊢
  simp only [tree.lookup_text_iff isRoute, evolves.tree.lookup_text_iff isRoute, evolves.cwd]
  refine and_congr_left fun _ => exists_congr fun time => and_congr_right fun _ => ?_
  exact ⟨fun found => evolves.get?_of_file found apart, fun found => evolves.get?_eq found apart⟩

/-- What a build leaves: all inputs have been read as they were at first, every output to which no
later path leads too holds the minified content of its input, and else there are only new
directories on the ways to the outputs. -/
structure Mirrors (policy : Policy) (src out : Bytes) (fs : FileSystem)
    (paths contents : List Bytes) (fs' : FileSystem) : Prop where
  read : List.Forall₂ (fun path content => readSource fs (Path.join src path) = .ok content)
    paths contents
  written : ∀ {before path after content}, paths = before ++ path :: after →
    (∀ later ∈ after, locate fs.cwd (Path.join out later) ≠ locate fs.cwd (Path.join out path)) →
    readSource fs (Path.join src path) = .ok content →
    fs'.get? (locate fs.cwd (Path.join out path)) = some (.file (minify policy content) fs.clock)
  evolves : Evolves (OnWay fs.cwd out paths) (IsTarget fs.cwd out paths) fs fs'

theorem Builds.mirrors {policy : Policy} {src out : Bytes} {fs fs' : FileSystem}
    {paths contents : List Bytes} (h : Builds policy src out fs paths contents fs')
    (tree : fs.IsTree) (named : src ≠ [])
    (apart : ∀ path ∈ paths, ∀ other ∈ paths,
      locate fs.cwd (Path.join out path) ≠ locate fs.cwd (Path.join src other)) :
    Mirrors policy src out fs paths contents fs' := by
  induction h with
  | nil => exact ⟨.nil, by simp, .refl tree⟩
  | @cons fs mid fs' path paths content contents read wrote later ih =>
    obtain ⟨evolves, holds⟩ := evolves_output tree wrote
    have rest := ih evolves.tree fun path' mem other mem' => by
      rw [evolves.cwd]
      exact apart path' (List.mem_cons_of_mem path mem) other (List.mem_cons_of_mem path mem')
    -- The first output is the source of none of the later paths.
    have same {other c : Bytes} (mem : other ∈ paths) :
        readSource mid (Path.join src other) = .ok c ↔
          readSource fs (Path.join src other) = .ok c := by
      refine readSource_iff_of_evolves tree evolves named ?_
      rintro ⟨_, first, target⟩
      cases List.mem_singleton.mp first
      exact apart path List.mem_cons_self other (List.mem_cons_of_mem path mem) target.symm
    refine ⟨.cons read ?_, ?_, (Builds.cons read wrote later).evolves tree⟩
    · have both := (List.forall₂_and_left paths contents).mpr ⟨fun _ => id, rest.read⟩
      exact both.imp fun _ _ ⟨mem, read⟩ => (same mem).mp read
    · intro before path' after content' whole last read'
      cases before with
      | nil =>
        obtain ⟨rfl, rfl⟩ := List.cons.inj whole
        cases Except.ok.inj (read.symm.trans read')
        have tail := later.evolves evolves.tree
        rw [evolves.cwd] at tail
        refine tail.get?_eq holds ?_
        rintro ⟨other, mem, target⟩
        exact last other mem target.symm
      | cons first before =>
        obtain ⟨rfl, rfl⟩ := List.cons.inj whole
        have mem : path' ∈ before ++ path' :: after := by simp
        have final := rest.written rfl (by rwa [evolves.cwd]) ((same mem).mpr read')
        rwa [evolves.cwd, evolves.clock] at final

/-- Where all patterns lead inward no two outputs are the same file. -/
theorem pairwise_outputs {fs : FileSystem} (tree : fs.IsTree) {src out : Bytes}
    {include_ exclude paths : List Bytes} (inward : ∀ pattern ∈ include_, Inward src pattern)
    (selected : select fs src out include_ exclude = .ok paths) :
    paths.Pairwise fun path later =>
      locate fs.cwd (Path.join out later) ≠ locate fs.cwd (Path.join out path) := by
  have distinct := Expand.nodup_includes (select_eq_ok_iff.mp selected).2
  refine distinct.imp_of_mem fun {path later} mem mem' apart same => apart ?_
  have down {p : Bytes} (mem : p ∈ paths) := (descends_of_mem_select tree inward selected mem).1
  rw [Path.locate_join_of_descends _ _ (down mem), Path.locate_join_of_descends _ _ (down mem')]
    at same
  rw [← Path.ofElements_elements path, ← Path.ofElements_elements later,
    List.append_cancel_left same]

/-- A build of a directory, where no output is an input. Either it builds all files, or it stops at
the first that fails, with the error of that one, the total of those before it and no regard to
those after it. -/
theorem directory_mirrors {fs : FileSystem} (tree : fs.IsTree) (palette : Terminal.Palette)
    (quiet : Bool) (policy : Policy) {src out : Bytes} {include_ exclude paths : List Bytes}
    (selected : select fs src out include_ exclude = .ok paths)
    (apart : ∀ path ∈ paths, ∀ other ∈ paths,
      locate fs.cwd (Path.join out path) ≠ locate fs.cwd (Path.join src other)) :
    let r := directory fs palette quiet policy src out include_ exclude
    ((∃ contents, r.error? = none ∧ r.total? = some (total policy contents) ∧
        Mirrors policy src out fs paths contents r.fs) ∨
      ∃ done path rest contents mid e, paths = done ++ path :: rest ∧ r.error? = some e ∧
        r.total? = some (total policy contents) ∧ Mirrors policy src out fs done contents mid ∧
        file mid policy (Path.join src path) (Path.join out path) = (r.fs, .error e) ∧
        Evolves (· <+: locate fs.cwd (Path.dir (Path.join out path))) (fun _ => False) mid r.fs ∧
        ∀ other, files palette quiet policy src out (done ++ path :: other) ⟨fs, .empty, [], none⟩ =
          files palette quiet policy src out paths ⟨fs, .empty, [], none⟩) ∧
    ((∀ pattern ∈ include_, Inward src pattern) → paths.Pairwise fun path later =>
      locate fs.cwd (Path.join out later) ≠ locate fs.cwd (Path.join out path)) := by
  intro r
  refine ⟨?_, fun inward => pairwise_outputs tree inward selected⟩
  obtain ⟨⟨time, opened⟩, _⟩ := select_eq_ok_iff.mp selected
  have named : src ≠ [] := (tree.lookup_eq_ok opened).1.2.1
  rcases exists_builds_or_fails policy src out fs paths with ⟨contents, fs', built⟩ |
    ⟨done, path, rest, contents, mid, fs', e, rfl, built, fails⟩
  · obtain ⟨output, run⟩ := built.files_append palette quiet .empty [] none
    have whole := run []
    rw [List.append_nil, Report.empty_add, files] at whole
    have result : r = ⟨fs', some (total policy contents), output, none⟩ := by
      simp only [r, directory, selected, whole]
    rw [result]
    exact .inl ⟨contents, rfl, rfl, built.mirrors tree named apart⟩
  · obtain ⟨output, run⟩ := built.files_append palette quiet .empty [] none
    have whole (other : List Bytes) :
        files palette quiet policy src out (done ++ path :: other) ⟨fs, .empty, [], none⟩ =
          ⟨fs', total policy contents, output, some e⟩ := by
      rw [run, files_cons_of_error fails, Report.empty_add]
    have result : r = ⟨fs', some (total policy contents), output, some e⟩ := by
      simp only [r, directory, selected, whole]
    have mirrors := built.mirrors tree named fun path' mem other mem' =>
      apart path' (List.mem_append_left _ mem) other (List.mem_append_left _ mem')
    have final := evolves_file_of_error mirrors.evolves.tree fails
    rw [mirrors.evolves.cwd] at final
    rw [result]
    exact .inr ⟨done, path, rest, contents, mid, e, rfl, rfl, rfl, mirrors, fails, final,
      fun other => (whole other).trans (whole rest).symm⟩

def twoSources : FileSystem :=
  ⟨[([utf8 "s"], .directory .zero), ([utf8 "s", utf8 "a"], .directory .zero),
    ([utf8 "s", utf8 "a", utf8 "x.lua"], .file (utf8 "x = 1 -- one\n") .zero),
    ([utf8 "s", utf8 "y.lua"], .file (utf8 "y = 22\n") .zero)], [], .zero⟩

theorem directory_mirrors_sample :
    twoSources.IsTree ∧
      select twoSources (utf8 "s") (utf8 "o") [utf8 "**/*.lua"] [] =
        .ok [utf8 "a/x.lua", utf8 "y.lua"] ∧
      ∃ contents,
        (directory twoSources .plain true .literal (utf8 "s") (utf8 "o") [utf8 "**/*.lua"]
          []).total? = some (total .literal contents) ∧
        Mirrors .literal (utf8 "s") (utf8 "o") twoSources [utf8 "a/x.lua", utf8 "y.lua"] contents
          (directory twoSources .plain true .literal (utf8 "s") (utf8 "o") [utf8 "**/*.lua"]
            []).fs := by
  have tree : twoSources.IsTree := by decide
  have selected : select twoSources (utf8 "s") (utf8 "o") [utf8 "**/*.lua"] [] =
      .ok [utf8 "a/x.lua", utf8 "y.lua"] := by cbv
  have apart : ∀ path ∈ [utf8 "a/x.lua", utf8 "y.lua"], ∀ other ∈ [utf8 "a/x.lua", utf8 "y.lua"],
      locate twoSources.cwd (Path.join (utf8 "o") path) ≠
        locate twoSources.cwd (Path.join (utf8 "s") other) := by decide
  have done : (directory twoSources .plain true .literal (utf8 "s") (utf8 "o") [utf8 "**/*.lua"]
      []).error? = none := by
    rw [directory, selected]
    cbv
  obtain ⟨⟨contents, _, sum, mirrors⟩ | ⟨_, _, _, _, _, e, _, fails, _⟩, _⟩ :=
    directory_mirrors tree .plain true .literal selected apart
  · exact ⟨tree, selected, contents, sum, mirrors⟩
  · exact absurd (done.symm.trans fails) (by simp)

def lookalikes : FileSystem :=
  ⟨[([utf8 "a?"], .directory .zero), ([utf8 "a?", utf8 "-x.lua"], .file (utf8 "x = 1\n") .zero),
    ([utf8 "ab"], .directory .zero), ([utf8 "ab", utf8 "-x.lua"], .file (utf8 "x = 22\n") .zero)],
    [], .zero⟩

/-- A source directory whose name is a pattern can bring in a file from its neighbour that has the
same output as one of its own: the build succeeds, and the output holds the neighbour's content. -/
theorem directory_loses_output :
    lookalikes.IsTree ∧
      select lookalikes (utf8 "a?") (utf8 "o/ab") [utf8 "*.lua"] [] =
        .ok [utf8 "-x.lua", utf8 "../ab/-x.lua"] ∧
      (∀ path ∈ [utf8 "-x.lua", utf8 "../ab/-x.lua"],
        ∀ other ∈ [utf8 "-x.lua", utf8 "../ab/-x.lua"],
        locate lookalikes.cwd (Path.join (utf8 "o/ab") path) ≠
          locate lookalikes.cwd (Path.join (utf8 "a?") other)) ∧
      (directory lookalikes .plain true .literal (utf8 "a?") (utf8 "o/ab") [utf8 "*.lua"]
        []).error? = none ∧
      ¬ ∀ path ∈ [utf8 "-x.lua", utf8 "../ab/-x.lua"], ∀ content,
        readSource lookalikes (Path.join (utf8 "a?") path) = .ok content →
        (directory lookalikes .plain true .literal (utf8 "a?") (utf8 "o/ab") [utf8 "*.lua"]
          []).fs.get? (locate lookalikes.cwd (Path.join (utf8 "o/ab") path)) =
          some (.file (minify .literal content) .zero) := by
  have selected : select lookalikes (utf8 "a?") (utf8 "o/ab") [utf8 "*.lua"] [] =
      .ok [utf8 "-x.lua", utf8 "../ab/-x.lua"] := by cbv
  have done : (directory lookalikes .plain true .literal (utf8 "a?") (utf8 "o/ab")
      [utf8 "*.lua"] []).error? = none := by
    rw [directory, selected]
    cbv
  have holds : (directory lookalikes .plain true .literal (utf8 "a?") (utf8 "o/ab")
      [utf8 "*.lua"] []).fs.get?
        (locate lookalikes.cwd (Path.join (utf8 "o/ab") (utf8 "-x.lua"))) =
      some (.file (utf8 "x=22") .zero) := by
    rw [directory, selected]
    cbv
  refine ⟨by decide, selected, by decide, done, fun each => ?_⟩
  have read : readSource lookalikes (Path.join (utf8 "a?") (utf8 "-x.lua")) =
      .ok (utf8 "x = 1\n") := by cbv
  have lost := holds.symm.trans (each _ List.mem_cons_self _ read)
  revert lost
  decide_cbv

end LuaCompact.Build
