import LuaCompact.Proofs.Growth
import Mathlib.Algebra.GroupWithZero.Nat

namespace LuaCompact

namespace Report

theorem empty_add (r : Report) : empty.add r = r := by
  simp [empty, add]

theorem add_assoc (r s t : Report) : (r.add s).add t = r.add (s.add t) := by
  simp [add, Int64.add_assoc]

end Report

namespace Build

open LuaCompact.Path (locate)
open FileSystem (Evolves)

theorem file_of_error {fs : FileSystem} {policy : Policy} {input output : Bytes} {e : Error}
    (unread : readSource fs input = .error e) : file fs policy input output = (fs, .error e) := by
  simp [file, unread]

theorem file_of_ok {fs : FileSystem} {input content : Bytes}
    (read : readSource fs input = .ok content) (policy : Policy) (output : Bytes) :
    file fs policy input output =
      ((writeOutput fs output (minify policy content)).1,
        (writeOutput fs output (minify policy content)).2.map
          fun _ => Report.ofFile content (minify policy content)) := by
  simp only [file, read]
  split
  next made => simp [made, Except.map]
  next made => simp [made, Except.map]

/-- What a build makes of the tree for one output: on failure only directories on the way to it, on
success also the file itself. -/
theorem writeOutput_cases {fs : FileSystem} (tree : fs.IsTree) (output content : Bytes) :
    (∃ mid cause, writeOutput fs output content = (mid, .error (.writeFailed cause)) ∧
      Evolves (· <+: locate fs.cwd (Path.dir output)) (fun _ => False) fs mid) ∨
    (∃ fs', writeOutput fs output content = (fs', .ok ()) ∧
      Evolves (· <+: locate fs.cwd (Path.dir output)) (· = locate fs.cwd output) fs fs' ∧
      fs'.get? (locate fs.cwd output) = some (.file content fs.clock)) := by
  have above := tree.evolves_makeDirectories_dir output
  unfold writeOutput
  split
  next mid cause made =>
    rw [made] at above
    exact .inl ⟨mid, cause, rfl, above⟩
  next mid _ made =>
    rw [made] at above
    split
    next cause _ => exact .inl ⟨mid, cause, rfl, above⟩
    next written wrote =>
      obtain ⟨final, holds⟩ := above.tree.evolves_writeFile wrote
      rw [above.cwd] at final holds
      rw [above.clock] at holds
      exact .inr ⟨written, rfl,
        (above.mono (fun _ _ => id) fun _ => False.elim).trans
          (final.mono (fun _ _ => False.elim) fun _ => id),
        holds⟩

theorem evolves_writeOutput {fs : FileSystem} (tree : fs.IsTree) (output content : Bytes) :
    Evolves (· <+: locate fs.cwd (Path.dir output)) (· = locate fs.cwd output) fs
      (writeOutput fs output content).1 := by
  rcases writeOutput_cases tree output content with ⟨_, _, failed, evolves⟩ | ⟨_, made, evolves, _⟩
  · rw [failed]
    exact evolves.mono (fun _ _ => id) fun _ => False.elim
  · rw [made]
    exact evolves

theorem evolves_file {fs : FileSystem} (tree : fs.IsTree) (policy : Policy) (input output : Bytes) :
    Evolves (· <+: locate fs.cwd (Path.dir output)) (· = locate fs.cwd output) fs
      (file fs policy input output).1 := by
  cases read : readSource fs input with
  | error =>
    rw [file_of_error read]
    exact .refl tree
  | ok content =>
    rw [file_of_ok read]
    exact evolves_writeOutput tree output (minify policy content)

/-- Files that are read and built one after another, with what was read of each. -/
inductive Builds (policy : Policy) (src out : Bytes) :
    FileSystem → List Bytes → List Bytes → FileSystem → Prop
  | nil {fs} : Builds policy src out fs [] [] fs
  | cons {fs mid fs' path paths content contents} :
    readSource fs (Path.join src path) = .ok content →
    writeOutput fs (Path.join out path) (minify policy content) = (mid, .ok ()) →
    Builds policy src out mid paths contents fs' →
    Builds policy src out fs (path :: paths) (content :: contents) fs'

/-- How many files there were, and how many bytes before and after. -/
def total (policy : Policy) (contents : List Bytes) : Report :=
  ⟨Int64.ofNat contents.length, Int64.ofNat (contents.map List.length).sum,
    Int64.ofNat (contents.map fun content => (minify policy content).length).sum⟩

theorem ofFile_add_total (policy : Policy) (content : Bytes) (contents : List Bytes) :
    (Report.ofFile content (minify policy content)).add (total policy contents) =
      total policy (content :: contents) := by
  simp only [Report.add, Report.ofFile, total, List.map_cons, List.sum_cons, List.length_cons,
    Int64.ofNat_add, Report.mk.injEq, and_true]
  exact Int64.add_comm 1 _

variable {policy : Policy} {src out : Bytes}

/-- A build takes the files in their order, up to the first that fails. -/
theorem exists_builds_or_fails (policy : Policy) (src out : Bytes) (fs : FileSystem)
    (paths : List Bytes) :
    (∃ contents fs', Builds policy src out fs paths contents fs') ∨
    (∃ done path rest contents mid fs' e, paths = done ++ path :: rest ∧
      Builds policy src out fs done contents mid ∧
      file mid policy (Path.join src path) (Path.join out path) = (fs', .error e)) := by
  induction paths generalizing fs with
  | nil => exact .inl ⟨[], fs, .nil⟩
  | cons path paths ih =>
    cases read : readSource fs (Path.join src path) with
    | error e => exact .inr ⟨[], path, paths, [], fs, fs, e, rfl, .nil, file_of_error read⟩
    | ok content =>
      have whole := file_of_ok read policy (Path.join out path)
      cases wrote : writeOutput fs (Path.join out path) (minify policy content) with
      | mk mid result =>
        rw [wrote] at whole
        cases result with
        | error e => exact .inr ⟨[], path, paths, [], fs, mid, e, rfl, .nil, whole⟩
        | ok =>
          rcases ih mid with ⟨contents, fs', later⟩ |
            ⟨done, next, rest, contents, last, fs', e, rfl, later, fails⟩
          · exact .inl ⟨content :: contents, fs', .cons read wrote later⟩
          · exact .inr ⟨path :: done, next, rest, content :: contents, last, fs', e, rfl,
              .cons read wrote later, fails⟩

theorem Builds.files_append {fs fs' : FileSystem} {done contents : List Bytes}
    (h : Builds policy src out fs done contents fs') (palette : Terminal.Palette) (quiet : Bool)
    (sum : Report) (printed : Bytes) (error? : Option Error) :
    ∃ output, ∀ more, files palette quiet policy src out (done ++ more) ⟨fs, sum, printed, error?⟩ =
      files palette quiet policy src out more
        ⟨fs', sum.add (total policy contents), output, error?⟩ := by
  induction h generalizing sum printed with
  | nil =>
    refine ⟨printed, fun more => ?_⟩
    have none : total policy [] = Report.empty := rfl
    simp [none, Report.add, Report.empty]
  | @cons fs mid fs' path paths content contents read wrote _ ih =>
    have whole := file_of_ok read policy (Path.join out path)
    rw [wrote] at whole
    obtain ⟨output, later⟩ := ih (sum.add (Report.ofFile content (minify policy content))) _
    refine ⟨output, fun more => ?_⟩
    rw [List.cons_append, files, whole, ← ofFile_add_total, ← Report.add_assoc]
    exact later more

theorem files_cons_of_error {fs fs' : FileSystem} {path : Bytes} {e : Error}
    (fails : file fs policy (Path.join src path) (Path.join out path) = (fs', .error e))
    (palette : Terminal.Palette) (quiet : Bool) (sum : Report) (printed : Bytes)
    (error? : Option Error) (rest : List Bytes) :
    files palette quiet policy src out (path :: rest) ⟨fs, sum, printed, error?⟩ =
      ⟨fs', sum, printed, some e⟩ := by
  simp [files, fails]

variable {fs mid fs' : FileSystem}

/-- What a build makes of the tree for a file that it cannot build. -/
theorem evolves_file_of_error (tree : fs.IsTree) {input output : Bytes} {e : Error}
    (fails : file fs policy input output = (fs', .error e)) :
    Evolves (· <+: locate fs.cwd (Path.dir output)) (fun _ => False) fs fs' := by
  cases read : readSource fs input with
  | error =>
    rw [file_of_error read] at fails
    cases (Prod.mk.inj fails).1
    exact .refl tree
  | ok content =>
    rw [file_of_ok read] at fails
    rcases writeOutput_cases tree output (minify policy content) with
      ⟨mid, cause, wrote, evolves⟩ | ⟨mid, wrote, _⟩
    · rw [wrote] at fails
      cases (Prod.mk.inj fails).1
      exact evolves
    · rw [wrote] at fails
      have := (Prod.mk.inj fails).2
      simp [Except.map] at this

/-- Where the directories may lie that are made for the outputs of some paths. -/
def OnWay (cwd : Location) (out : Bytes) (paths : List Bytes) (loc : Location) : Prop :=
  ∃ path ∈ paths, loc <+: locate cwd (Path.dir (Path.join out path))

/-- Where the outputs of some paths lie. -/
def IsTarget (cwd : Location) (out : Bytes) (paths : List Bytes) (loc : Location) : Prop :=
  ∃ path ∈ paths, loc = locate cwd (Path.join out path)

theorem OnWay.mono {cwd : Location} {paths more : List Bytes} (sub : paths ⊆ more) {loc : Location}
    (h : OnWay cwd out paths loc) : OnWay cwd out more loc :=
  let ⟨path, mem, way⟩ := h
  ⟨path, sub mem, way⟩

theorem IsTarget.mono {cwd : Location} {paths more : List Bytes} (sub : paths ⊆ more)
    {loc : Location} (h : IsTarget cwd out paths loc) : IsTarget cwd out more loc :=
  let ⟨path, mem, same⟩ := h
  ⟨path, sub mem, same⟩

/-- One output of a build. -/
theorem evolves_output (tree : fs.IsTree) {path content : Bytes}
    (wrote : writeOutput fs (Path.join out path) content = (mid, .ok ())) :
    Evolves (OnWay fs.cwd out [path]) (IsTarget fs.cwd out [path]) fs mid ∧
      mid.get? (locate fs.cwd (Path.join out path)) = some (.file content fs.clock) := by
  rcases writeOutput_cases tree (Path.join out path) content with
    ⟨_, _, failed, _⟩ | ⟨_, made, evolves, holds⟩
  · simp [wrote] at failed
  · rw [wrote] at made
    cases (Prod.mk.inj made).1
    exact ⟨evolves.mono (fun _ _ way => ⟨path, List.mem_singleton_self path, way⟩)
      (fun _ same => ⟨path, List.mem_singleton_self path, same⟩), holds⟩

theorem Builds.evolves {paths contents : List Bytes}
    (h : Builds policy src out fs paths contents fs')
    (tree : fs.IsTree) : Evolves (OnWay fs.cwd out paths) (IsTarget fs.cwd out paths) fs fs' := by
  induction h with
  | nil => exact .refl tree
  | @cons fs mid fs' path paths content contents _ wrote _ ih =>
    obtain ⟨first, _⟩ := evolves_output tree wrote
    have later := ih first.tree
    rw [first.cwd] at later
    exact (first.mono (fun _ _ => OnWay.mono (by simp)) fun _ => IsTarget.mono (by simp)).trans
      (later.mono (fun _ _ => OnWay.mono (by simp)) fun _ => IsTarget.mono (by simp))

/-- A build of a directory makes directories on the ways to the outputs of the selected files and
writes these outputs, and does nothing else. -/
theorem evolves_directory (tree : fs.IsTree) (palette : Terminal.Palette) (quiet : Bool)
    (policy : Policy) {include_ exclude paths : List Bytes}
    (selected : select fs src out include_ exclude = .ok paths) :
    Evolves (OnWay fs.cwd out paths) (IsTarget fs.cwd out paths) fs
      (directory fs palette quiet policy src out include_ exclude).fs := by
  simp only [directory, selected]
  rcases exists_builds_or_fails policy src out fs paths with ⟨contents, fs', built⟩ |
    ⟨done, path, rest, contents, mid, fs', e, rfl, built, fails⟩
  · obtain ⟨output, run⟩ := built.files_append palette quiet .empty [] none
    have whole := run []
    rw [List.append_nil] at whole
    rw [whole, files]
    exact built.evolves tree
  · obtain ⟨output, run⟩ := built.files_append palette quiet .empty [] none
    rw [run, files_cons_of_error fails]
    have earlier := built.evolves tree
    have final := evolves_file_of_error earlier.tree fails
    rw [earlier.cwd] at final
    exact (earlier.mono (fun _ _ => OnWay.mono (by simp)) fun _ => IsTarget.mono (by simp)).trans
      (final.mono (fun _ _ way => ⟨path, by simp, way⟩) fun _ => False.elim)

end Build

end LuaCompact
