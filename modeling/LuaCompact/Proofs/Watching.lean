import LuaCompact.Watch
import LuaCompact.Proofs.NoticeKind
import LuaCompact.Proofs.ReadBack
import Mathlib.Data.Prod.Lex

namespace LuaCompact

namespace Time

theorem eq_of_toLex_eq {s t : Time} (same : toLex (s.sec, s.nsec) = toLex (t.sec, t.nsec)) :
    s = t := by
  obtain ⟨sec, nsec⟩ := Prod.mk.inj (toLex.injective same)
  cases s
  cases t
  rw [Time.mk.injEq]
  exact ⟨sec, nsec⟩

instance : LinearOrder Time :=
  .lift' (fun t => toLex (t.sec, t.nsec)) fun _ _ => eq_of_toLex_eq

theorem isBefore_iff_lt {s t : Time} : s.isBefore t ↔ s < t := by
  change _ ↔ toLex (s.sec, s.nsec) < toLex (t.sec, t.nsec)
  rw [Prod.Lex.lt_iff]
  simp [isBefore]

end Time

theorem Build.readFile_of_readSource {fs : FileSystem} {path content : Bytes}
    (read : readSource fs path = .ok content) : fs.readFile path = .ok content := by
  unfold readSource at read
  split at read
  next => contradiction
  next found =>
    split at read
    next =>
      cases Except.ok.inj read
      exact found
    next => contradiction

theorem Build.exists_file_of_wrote {fs : FileSystem} {policy : Policy}
    {input output content : Bytes} (read : readSource fs input = .ok content)
    (wrote : (writeOutput fs output (minify policy content)).2.toBool) :
    ∃ fs' r, file fs policy input output = (fs', .ok r) := by
  rw [file_of_ok read]
  cases done : (writeOutput fs output (minify policy content)).2 with
  | error e =>
    rw [done] at wrote
    contradiction
  | ok => exact ⟨_, _, rfl⟩

namespace Watch

open Terminal (Palette Notice)

/-- When the node that a path leads to was last changed, if it can be seen. -/
def modified? (fs : FileSystem) (path : Bytes) : Option Time :=
  (fs.stat path).toOption.map Node.modified

section Rebuild

variable (fs : FileSystem) (palette : Palette) (clock : Bytes) (policy : Policy)
  (input output : Bytes)

theorem rebuild_fst : (rebuild fs palette clock policy input output).1 =
    (Build.file fs policy input output).1 := by
  unfold rebuild
  split <;> next built => rw [built]

/-- A rebuild says how it went. -/
theorem exists_rebuild_snd : ∃ (kind : Notice) (text : Bytes),
    (rebuild fs palette clock policy input output).2 = kind.print palette text ∧
      kind ≠ .warning := by
  unfold rebuild
  split
  next => exact ⟨.error, _, rfl, by decide⟩
  next => exact ⟨.success, _, rfl, by decide⟩

end Rebuild

section Poll

variable {fs : FileSystem} {palette : Palette} {clock : Bytes} {policy : Policy}
  {input output : Bytes} {last : Time}

theorem modified?_of_error {e : PathError} (unseen : fs.stat input = .error e) :
    modified? fs input = none := by
  rw [modified?, unseen]
  rfl

theorem modified?_of_ok {node : Node} (seen : fs.stat input = .ok node) :
    modified? fs input = some node.modified := by
  rw [modified?, seen]
  rfl

theorem poll_of_error {e : PathError} (unseen : fs.stat input = .error e) :
    poll fs palette clock policy input output last =
      ⟨fs, last, Notice.warning.print palette
        (utf8 "Cannot stat " ++ input ++ utf8 ", retrying: " ++ e.message)⟩ := by
  rw [poll, unseen]

theorem poll_of_lt {node : Node} (seen : fs.stat input = .ok node) (newer : last < node.modified) :
    poll fs palette clock policy input output last =
      ⟨(rebuild fs palette clock policy input output).1, node.modified,
        (rebuild fs palette clock policy input output).2⟩ := by
  rw [poll, seen]
  exact if_pos (Time.isBefore_iff_lt.mpr newer)

theorem poll_of_le {node : Node} (seen : fs.stat input = .ok node) (old : node.modified ≤ last) :
    poll fs palette clock policy input output last = ⟨fs, last, []⟩ := by
  rw [poll, seen]
  exact if_neg (mt Time.isBefore_iff_lt.mp old.not_gt)

/-- A look keeps the latest time it knows of. -/
theorem last_poll : (poll fs palette clock policy input output last).last =
    (modified? fs input).elim last (max last) := by
  cases found : fs.stat input with
  | error e =>
    rw [poll_of_error found, modified?_of_error found]
    rfl
  | ok node =>
    rw [modified?_of_ok found]
    rcases lt_or_ge last node.modified with newer | old
    · rw [poll_of_lt found newer]
      exact (max_eq_right newer.le).symm
    · rw [poll_of_le found old]
      exact (max_eq_left old).symm

/-- Whether a look has come to a rebuild can be told from what it leaves and prints: a rebuild says
how it went, all other looks say nothing or give a warning. -/
theorem poll_eq_rebuild_iff :
    ((poll fs palette clock policy input output last).fs,
        (poll fs palette clock policy input output last).output) =
      rebuild fs palette clock policy input output ↔
    ∃ t, modified? fs input = some t ∧ last < t := by
  obtain ⟨kind, text, prints, other⟩ := exists_rebuild_snd fs palette clock policy input output
  cases found : fs.stat input with
  | error e =>
    rw [poll_of_error found, modified?_of_error found]
    refine ⟨fun same => ?_, by simp⟩
    have printed := (congrArg Prod.snd same).trans prints
    exact absurd (Notice.eq_of_print_eq printed).symm other
  | ok node =>
    rw [modified?_of_ok found]
    rcases lt_or_ge last node.modified with newer | old
    · rw [poll_of_lt found newer]
      exact ⟨fun _ => ⟨_, rfl, newer⟩, fun _ => rfl⟩
    · rw [poll_of_le found old]
      refine ⟨fun same => ?_, ?_⟩
      · have printed := (congrArg Prod.snd same).trans prints
        exact absurd printed.symm (Notice.print_ne_nil kind palette text)
      · rintro ⟨t, seen, newer⟩
        cases Option.some.inj seen
        exact absurd newer old.not_gt

theorem fs_poll_of_not (quiet : ¬ ∃ t, modified? fs input = some t ∧ last < t) :
    (poll fs palette clock policy input output last).fs = fs := by
  cases found : fs.stat input with
  | error e => rw [poll_of_error found]
  | ok node =>
    rcases lt_or_ge last node.modified with newer | old
    · exact absurd ⟨_, modified?_of_ok found, newer⟩ quiet
    · rw [poll_of_le found old]

end Poll

/-- One round of watching: what others do to the files before the look, and the time of day. -/
structure Turn where
  change : FileSystem → FileSystem
  clock : Bytes

/-- One look of a run, with the files as it found them. -/
structure Look where
  found : FileSystem
  clock : Bytes
  poll : Poll

section Run

variable (palette : Palette) (policy : Policy) (input output : Bytes)

/-- The looks of a run. Each starts from what the one before it left, with what others have done to
the files since. -/
def run : FileSystem → Time → List Turn → List Look
  | _, _, [] => []
  | fs, last, turn :: turns =>
    let found := turn.change fs
    let p := poll found palette turn.clock policy input output last
    ⟨found, turn.clock, p⟩ :: run p.fs p.last turns

/-- The modification time that a look has seen. -/
def Look.seen? (look : Look) : Option Time := modified? look.found input

/-- The look has left and printed what a rebuild leaves and prints. -/
def Look.Rebuilds (look : Look) : Prop :=
  (look.poll.fs, look.poll.output) = rebuild look.found palette look.clock policy input output

variable {palette policy input output} {fs : FileSystem} {start : Time} {turns : List Turn}
  {earlier later : List Look} {look : Look}

theorem latest_cons (look : Look) (looks : List Look) :
    ((look :: looks).filterMap (·.seen? input)).foldl max start =
      (looks.filterMap (·.seen? input)).foldl max ((look.seen? input).elim start (max start)) := by
  rw [List.filterMap_cons]
  cases look.seen? input <;> rfl

/-- At every look of a run the time to compare with is the latest of those seen before it. -/
theorem poll_of_run
    (split : run palette policy input output fs start turns = earlier ++ look :: later) :
    look.poll = poll look.found palette look.clock policy input output
      ((earlier.filterMap (·.seen? input)).foldl max start) := by
  induction turns generalizing fs start earlier with
  | nil => simp [run] at split
  | cons turn turns ih =>
    cases earlier with
    | nil =>
      obtain ⟨rfl, -⟩ := List.cons.inj split
      rfl
    | cons first earlier =>
      obtain ⟨rfl, rest⟩ := List.cons.inj split
      -- the first look hands on the time that the maximum of the later ones starts from
      rw [ih rest, last_poll, latest_cons]
      rfl

theorem foldl_max_lt_iff {times : List Time} {t : Time} :
    times.foldl max start < t ↔ ∀ s ∈ start :: times, s < t := by
  have latest : (start :: times).max? = some (times.foldl max start) := List.max?_cons'
  obtain ⟨mem, bound⟩ := List.max?_eq_some_iff.mp latest
  exact ⟨fun below s hs => (bound s hs).trans_lt below, fun all => all _ mem⟩

/-- Whatever others do to the files between the looks of a run: the time kept is the latest of all
seen so far, the output is built anew at exactly those looks that see a later time than all before,
all other looks leave the files as they are, and where the build succeeds the output holds what the
input has become. -/
theorem run_follows_latest
    (split : run palette policy input output fs start turns = earlier ++ look :: later) :
    (start :: (earlier ++ [look]).filterMap (·.seen? input)).max? = some look.poll.last ∧
    (look.Rebuilds palette policy input output ↔ ∃ t, look.seen? input = some t ∧
      ∀ s ∈ start :: earlier.filterMap (·.seen? input), s < t) ∧
    (¬ look.Rebuilds palette policy input output → look.poll.fs = look.found) ∧
    (look.Rebuilds palette policy input output → ∀ fs' r,
      Build.file look.found policy input output = (fs', .ok r) →
      look.poll.fs = fs' ∧ ∃ content, look.found.readFile input = .ok content ∧
        fs'.readFile output = .ok (minify policy content)) := by
  have look_eq := poll_of_run split
  have attempts : look.Rebuilds palette policy input output ↔ ∃ t, look.seen? input = some t ∧
      (earlier.filterMap (·.seen? input)).foldl max start < t := by
    rw [Look.Rebuilds, look_eq]
    exact poll_eq_rebuild_iff
  refine ⟨?_, ?_, ?_, ?_⟩
  · rw [List.max?_cons', List.filterMap_append, List.foldl_append, latest_cons, look_eq, last_poll]
    rfl
  · simpa only [foldl_max_lt_iff] using attempts
  · intro quiet
    rw [look_eq]
    exact fs_poll_of_not (mt attempts.mpr quiet)
  · intro rebuilds fs' r built
    obtain ⟨content, read, wrote⟩ := Build.exists_readSource_of_file built
    have left := (congrArg Prod.fst rebuilds).trans (rebuild_fst ..)
    rw [built] at left
    exact ⟨left, content, Build.readFile_of_readSource read, Build.readFile_writeOutput wrote⟩

end Run

/-- A source that stands alone, last changed some seconds and nanoseconds from the epoch. -/
def source (content : Bytes) (sec nsec : Int) : FileSystem where
  nodes := [([utf8 "a.lua"], .file content ⟨sec, nsec⟩)]
  cwd := []
  clock := ⟨20, 0⟩

/-- A source that is missing, written, replaced by an older one, broken and mended. -/
def edits : List Turn :=
  [⟨fun fs => fs.erase [utf8 "a.lua"], []⟩, ⟨fun _ => source (utf8 "x = 1") 9 0, []⟩,
    ⟨fun _ => source (utf8 "y = 2") 7 0, []⟩, ⟨fun _ => source [0xff] 9 1, []⟩,
    ⟨fun _ => source (utf8 "z = 3 -- c") 10 0, []⟩]

theorem modified?_source (content : Bytes) (sec nsec : Int) :
    modified? (source content sec nsec) (utf8 "a.lua") = some ⟨sec, nsec⟩ := by
  cbv

theorem modified?_erase_source :
    modified? ((source [] 5 0).erase [utf8 "a.lua"]) (utf8 "a.lua") = none := by
  cbv

theorem readSource_source :
    Build.readSource (source (utf8 "z = 3 -- c") 10 0) (utf8 "a.lua") =
      .ok (utf8 "z = 3 -- c") := by
  cbv

theorem file_source : ∃ fs' r,
    Build.file (source (utf8 "z = 3 -- c") 10 0) .literal (utf8 "a.lua") (utf8 "b.lua") =
      (fs', .ok r) := by
  have wrote : (Build.writeOutput (source (utf8 "z = 3 -- c") 10 0) (utf8 "b.lua")
      (minify .literal (utf8 "z = 3 -- c"))).2.toBool := by cbv
  exact Build.exists_file_of_wrote readSource_source wrote

theorem run_follows_latest_edits : ∃ earlier look,
    run .plain .literal (utf8 "a.lua") (utf8 "b.lua") (source [] 5 0) ⟨5, 0⟩ edits =
        earlier ++ [look] ∧
      earlier.map (·.seen? (utf8 "a.lua")) =
        [none, some ⟨9, 0⟩, some ⟨7, 0⟩, some ⟨9, 1⟩] ∧
      look.poll.last = ⟨10, 0⟩ ∧
      look.Rebuilds .plain .literal (utf8 "a.lua") (utf8 "b.lua") ∧
      look.poll.fs.readFile (utf8 "b.lua") = .ok (utf8 "z=3") := by
  obtain ⟨earlier, look, split, found, seen, sees⟩ : ∃ earlier look,
      run .plain .literal (utf8 "a.lua") (utf8 "b.lua") (source [] 5 0) ⟨5, 0⟩ edits =
          earlier ++ [look] ∧
        look.found = source (utf8 "z = 3 -- c") 10 0 ∧
        earlier.map (·.seen? (utf8 "a.lua")) =
          [none, some ⟨9, 0⟩, some ⟨7, 0⟩, some ⟨9, 1⟩] ∧
        look.seen? (utf8 "a.lua") = some ⟨10, 0⟩ := by
    refine ⟨[_, _, _, _], _, rfl, rfl, ?_, ?_⟩
    · simp only [List.map, Look.seen?, modified?_source, modified?_erase_source]
    · exact modified?_source _ _ _
  have times : earlier.filterMap (·.seen? (utf8 "a.lua")) = [⟨9, 0⟩, ⟨7, 0⟩, ⟨9, 1⟩] := by
    have kept := congrArg (List.filterMap id) seen
    rwa [List.filterMap_map] at kept
  obtain ⟨latest, attempts, -, holds⟩ := run_follows_latest split
  have last : look.poll.last = ⟨10, 0⟩ := by
    rw [List.filterMap_append, times, List.filterMap_cons_some sees] at latest
    exact (Option.some.inj latest).symm
  have rebuilds : look.Rebuilds .plain .literal (utf8 "a.lua") (utf8 "b.lua") := by
    rw [attempts, times]
    exact ⟨_, sees, by decide⟩
  obtain ⟨fs', r, built⟩ := file_source
  rw [← found] at built
  obtain ⟨left, content, read, output⟩ := holds rebuilds fs' r built
  have itself : look.found.readFile (utf8 "a.lua") = .ok (utf8 "z = 3 -- c") := by
    rw [found]
    exact Build.readFile_of_readSource readSource_source
  obtain rfl := Except.ok.inj (itself.symm.trans read)
  have short : minify .literal (utf8 "z = 3 -- c") = utf8 "z=3" := by decide_cbv
  rw [short, ← left] at output
  exact ⟨earlier, look, split, seen, last, rebuilds, output⟩

end Watch

end LuaCompact
