import LuaCompact.Proofs.Descent
import LuaCompact.Proofs.Revision
import Mathlib

namespace LuaCompact.Build

open LuaCompact.Path (IsStep Descends locate)
open Expand (Inward)

/-- The directory that a path leads down to in another lies in that one. -/
theorem locate_dir_join {path : Bytes} (down : Descends path) (cwd : Location) (out : Bytes) :
    locate cwd (Path.dir (Path.join out path)) =
      locate cwd out ++ (Path.elements path).dropLast := by
  obtain ⟨rooted, es, isRoute, joined, located⟩ := Path.exists_join_eq_text out down
  have nonempty : Path.elements path ≠ [] := List.splitOn_ne_nil Byte.slash path
  have whole : (Path.elements path).dropLast ++ [(Path.elements path).getLast nonempty] =
      Path.elements path := List.dropLast_append_getLast nonempty
  have ways : IsStep ((Path.elements path).getLast nonempty) := down _ (List.getLast_mem nonempty)
  have above : ∀ e ∈ (Path.elements path).dropLast, IsStep e :=
    fun e mem => down e (List.dropLast_subset _ mem)
  have route : Path.IsRoute rooted
      (es ++ (Path.elements path).dropLast ++ [(Path.elements path).getLast nonempty]) :=
    (isRoute.append above).append (by simpa using ways)
  rw [joined, ← whole, ← List.append_assoc, Path.dir_text route, whole,
    Path.locate_text_append cwd isRoute above, Path.locate_text cwd isRoute, ← located cwd]

section

variable {fs : FileSystem} (tree : fs.IsTree) (palette : Terminal.Palette) (quiet : Bool)
  (policy : Policy) {src : Bytes} (out : Bytes) {include_ : List Bytes} (exclude : List Bytes)
  (inward : ∀ pattern ∈ include_, Inward src pattern)

include tree inward

theorem directory_writes_beneath (loc : Location) :
    (directory fs palette quiet policy src out include_ exclude).fs.get? loc = fs.get? loc ∨
    locate fs.cwd out <+: loc ∨
    (loc <+: locate fs.cwd out ∧ fs.get? loc = none ∧
      (directory fs palette quiet policy src out include_ exclude).fs.isDirectory loc) := by
  cases selected : select fs src out include_ exclude with
  | error e => exact .inl (by simp [directory, selected])
  | ok paths =>
    have down {path : Bytes} (mem : path ∈ paths) :=
      (descends_of_mem_select tree inward selected mem).1
    have evolves := evolves_directory tree palette quiet policy selected
    rcases evolves.change loc with same | ⟨⟨path, mem, way⟩, gone, made⟩ | ⟨⟨path, mem, rfl⟩, _⟩
    · exact .inl same
    · rw [locate_dir_join (down mem)] at way
      rcases List.prefix_or_prefix_of_prefix way (List.prefix_append _ _) with above | beneath
      · exact .inr (.inr ⟨above, gone, FileSystem.isDirectory_iff.mpr ⟨_, made⟩⟩)
      · exact .inr (.inl beneath)
    · rw [Path.locate_join_of_descends fs.cwd out (down mem)]
      exact .inr (.inl (List.prefix_append _ _))

theorem directory_reads_beneath {f : Location → Bytes → Bytes}
    (inside : ∀ loc, locate fs.cwd src <+: loc → f loc = id) :
    ∃ g, directory (fs.revise f) palette quiet policy src out include_ exclude =
        { directory fs palette quiet policy src out include_ exclude with
          fs := (directory fs palette quiet policy src out include_ exclude).fs.revise g } ∧
      Stands f g fs (directory fs palette quiet policy src out include_ exclude).fs := by
  unfold directory
  rw [select_revise f tree]
  cases selected : select fs src out include_ exclude with
  | error e => exact ⟨f, rfl, fun _ => .inr ⟨rfl, .inl rfl⟩⟩
  | ok paths =>
    have same : ∀ path ∈ paths, f (locate fs.cwd (Path.join src path)) = id := by
      intro path mem
      rw [Path.locate_join_of_descends fs.cwd src
        (descends_of_mem_select tree inward selected mem).1]
      exact inside _ (List.prefix_append _ _)
    obtain ⟨g, run, stands⟩ := files_revise f palette quiet policy src out paths
      ⟨fs, .empty, [], none⟩ tree same
    refine ⟨g, ?_, stands⟩
    simp only [run]

end

/-- A build of a directory whose patterns lead inward writes only in its output directory, the
missing directories on the way there apart, and reads only in its source directory: with other
content in files elsewhere it gives the same total, prints the same, fails with the same error and
writes the same. -/
theorem directory_confined {fs : FileSystem} (tree : fs.IsTree) (palette : Terminal.Palette)
    (quiet : Bool) (policy : Policy) (src out : Bytes) (include_ exclude : List Bytes)
    (inward : ∀ pattern ∈ include_, Inward src pattern) :
    (∀ loc,
      (directory fs palette quiet policy src out include_ exclude).fs.get? loc = fs.get? loc ∨
      locate fs.cwd out <+: loc ∨
      (loc <+: locate fs.cwd out ∧ fs.get? loc = none ∧
        (directory fs palette quiet policy src out include_ exclude).fs.isDirectory loc)) ∧
    ∀ f : Location → Bytes → Bytes, (∀ loc, locate fs.cwd src <+: loc → f loc = id) →
      let r := directory fs palette quiet policy src out include_ exclude
      let s := directory (fs.revise f) palette quiet policy src out include_ exclude
      s.total? = r.total? ∧ s.output = r.output ∧ s.error? = r.error? ∧
        ∀ loc, s.fs.get? loc = r.fs.get? loc ∨
          (r.fs.get? loc = fs.get? loc ∧ s.fs.get? loc = (fs.revise f).get? loc) := by
  refine ⟨directory_writes_beneath tree palette quiet policy out exclude inward, ?_⟩
  intro f inside r s
  obtain ⟨g, run, stands⟩ :=
    directory_reads_beneath tree palette quiet policy out exclude inward inside
  have same : s = { r with fs := r.fs.revise g } := run
  refine ⟨by rw [same], by rw [same], by rw [same], fun loc => ?_⟩
  rw [same, FileSystem.get?_revise]
  rcases stands loc with fresh | ⟨kept, unchanged | dir⟩
  · left
    rw [fresh]
    cases r.fs.get? loc <;> simp
  · right
    refine ⟨unchanged, ?_⟩
    rw [FileSystem.get?_revise, kept]
    exact congrArg (Option.map _) unchanged
  · left
    obtain ⟨time, made⟩ := FileSystem.isDirectory_iff.mp dir
    have there : r.fs.get? loc = some (.directory time) := made
    rw [there]
    rfl

/-- Two directories, the name of one of which is a pattern that the other fits. -/
def neighbours : FileSystem :=
  ⟨[([utf8 "a?"], .directory .zero), ([utf8 "a?", utf8 "x.lua"], .file (utf8 "x = 1\n") .zero),
    ([utf8 "ab"], .directory .zero), ([utf8 "ab", utf8 "y.lua"], .file (utf8 "y = 2\n") .zero)],
    [], .zero⟩

theorem directory_confined_sample :
    let blanked : Location → Bytes → Bytes := fun loc content =>
      if loc = [utf8 "a?", utf8 "x.lua"] then [] else content
    neighbours.IsTree ∧ (∀ pattern ∈ [utf8 "*.lua"], Inward (utf8 "ab") pattern) ∧
      (∀ loc, locate neighbours.cwd (utf8 "ab") <+: loc → blanked loc = id) ∧
      (∀ loc, (directory neighbours .plain true .literal (utf8 "ab") (utf8 "o/p") [utf8 "*.lua"]
          []).fs.get? loc = neighbours.get? loc ∨ locate neighbours.cwd (utf8 "o/p") <+: loc ∨
        (loc <+: locate neighbours.cwd (utf8 "o/p") ∧ neighbours.get? loc = none ∧
          (directory neighbours .plain true .literal (utf8 "ab") (utf8 "o/p") [utf8 "*.lua"]
            []).fs.isDirectory loc)) ∧
      (directory (neighbours.revise blanked) .plain true .literal (utf8 "ab") (utf8 "o/p")
          [utf8 "*.lua"] []).total? =
        (directory neighbours .plain true .literal (utf8 "ab") (utf8 "o/p") [utf8 "*.lua"]
          []).total? := by
  intro blanked
  have tree : neighbours.IsTree := by decide
  have inward : ∀ pattern ∈ [utf8 "*.lua"], Inward (utf8 "ab") pattern := by
    intro pattern mem
    cases List.mem_singleton.mp mem
    have flat : Selection.splitDepth? (utf8 "*.lua") = none := by decide
    simp only [Inward, flat]
    exact ⟨by decide, by decide, [utf8 "*.lua"], by decide,
      by decide⟩
  have inside : ∀ loc, locate neighbours.cwd (utf8 "ab") <+: loc → blanked loc = id := by
    rintro _ ⟨rest, rfl⟩
    have there : locate neighbours.cwd (utf8 "ab") = [utf8 "ab"] := by decide
    have apart : utf8 "ab" ≠ utf8 "a?" := by decide
    funext content
    simp [blanked, there, apart]
  obtain ⟨writes, reads⟩ :=
    directory_confined tree .plain true .literal (utf8 "ab") (utf8 "o/p") [utf8 "*.lua"] [] inward
  exact ⟨tree, inward, inside, writes, (reads blanked inside).1⟩

/-- A source directory whose name is a pattern lets its neighbour in: what is read there is written
beside the output directory. -/
theorem directory_not_confined :
    neighbours.IsTree ∧ ¬ ∀ loc,
      (directory neighbours .plain true .literal (utf8 "a?") (utf8 "o/p") [utf8 "*.lua"]
        []).fs.get? loc = neighbours.get? loc ∨ locate neighbours.cwd (utf8 "o/p") <+: loc ∨
      (loc <+: locate neighbours.cwd (utf8 "o/p") ∧ neighbours.get? loc = none ∧
        (directory neighbours .plain true .literal (utf8 "a?") (utf8 "o/p") [utf8 "*.lua"]
          []).fs.isDirectory loc) := by
  have selected : select neighbours (utf8 "a?") (utf8 "o/p") [utf8 "*.lua"] [] =
      .ok [utf8 "../ab/y.lua", utf8 "x.lua"] := by cbv
  have written : (directory neighbours .plain true .literal (utf8 "a?") (utf8 "o/p")
      [utf8 "*.lua"] []).fs.get? [utf8 "o", utf8 "ab", utf8 "y.lua"] =
        some (.file (minify .literal (utf8 "y = 2\n")) .zero) := by
    rw [directory, selected]
    cbv
  refine ⟨by decide, fun confined => ?_⟩
  rcases confined [utf8 "o", utf8 "ab", utf8 "y.lua"] with same | beneath | ⟨above, _⟩
  · have gone : neighbours.get? [utf8 "o", utf8 "ab", utf8 "y.lua"] = none := by decide
    rw [written, gone] at same
    contradiction
  · revert beneath
    decide
  · revert above
    decide

end LuaCompact.Build
