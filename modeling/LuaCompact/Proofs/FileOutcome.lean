import LuaCompact.Proofs.ReadBack

namespace LuaCompact

namespace Path

/-- A path, or one above it, cleaned. -/
def Above (path above : Bytes) : Prop :=
  ∃ es, es <+: route path ∧ above = text (isRooted path) es

theorem above_self {rooted : Bool} {es : List Bytes} (h : IsRoute rooted es) :
    Above (text rooted es) (text rooted es) :=
  ⟨es, by rw [route_text h], by rw [isRooted_text h]⟩

theorem Above.concat {rooted : Bool} {es : List Bytes} {e : Bytes} (h : IsRoute rooted (es ++ [e]))
    {path : Bytes} (above : Above (text rooted es) path) : Above (text rooted (es ++ [e])) path := by
  obtain ⟨ns, first, spelled⟩ := above
  rw [route_text h.of_append] at first
  rw [isRooted_text h.of_append] at spelled
  refine ⟨ns, ?_, by rw [isRooted_text h, spelled]⟩
  rw [route_text h]
  exact first.trans (List.prefix_append es [e])

end Path

namespace FileSystem

open LuaCompact.Path (IsRoute Above)

theorem walk_onlySlashes (fs : FileSystem) (purpose : Purpose) (links : Nat) (loc : Location)
    {todo : List Bytes} (slashes : onlySlashes todo) :
    fs.walk purpose links loc todo = .ok ⟨loc, fs.get? loc⟩ := by
  induction todo with
  | nil => rw [walk]
  | cons e todo ih =>
    simp only [onlySlashes, List.all_cons, Bool.and_eq_true, decide_eq_true_eq] at slashes
    rw [walk, if_pos (.inl slashes.1)]
    exact ih slashes.2

/-- A walk ends at the same place once a directory is there, if nothing that it may pass is gone. -/
theorem walk_of_kept {fs fs' : FileSystem}
    (kept : ∀ loc node, fs.get? loc = some node → fs'.get? loc = some node) {purpose : Purpose}
    {links : Nat} {loc : Location} {todo : List Bytes} {place : Place}
    (found : fs.walk purpose links loc todo = .ok place) {time : Time}
    (ends : fs'.get? place.location = some (.directory time)) :
    fs'.walk .target links loc todo = .ok ⟨place.location, some (.directory time)⟩ := by
  fun_induction walk fs purpose links loc todo with
  | case1 =>
    cases Except.ok.inj found
    rw [walk, ends]
  | case2 _ _ _ _ skip ih => rw [walk, if_pos skip, ih found]
  | case3 _ _ _ step ih => rw [walk, if_neg step, if_pos rfl, ih found]
  | case4 | case5 | case7 | case10 | case12 | case13 => contradiction
  | case6 _ loc e rest skip up short slashed _ only =>
    cases Except.ok.inj found
    rw [walk, if_neg skip, if_neg up, if_neg short, if_neg (by simp), ends]
    exact (walk_onlySlashes fs' .target _ _ only).trans (by rw [ends])
  | case8 _ loc e rest skip up short _ _ held ih =>
    rw [walk, if_neg skip, if_neg up, if_neg short, if_neg (by simp), kept _ _ held]
    exact ih found
  | case9 _ _ _ _ _ _ _ _ held | case11 _ _ _ _ _ _ _ _ _ held =>
    cases Except.ok.inj found
    simp [kept _ _ held] at ends
  | case14 loc e rest skip up short _ goal held aim links named ih =>
    rw [walk, if_neg skip, if_neg up, if_neg short, if_neg (by simp), kept _ _ held]
    simp only
    rw [if_neg (by simp), if_neg named]
    exact ih found

/-- What a file system becomes when directories are made where nothing was, at some places. All
else stays. -/
structure Grows (places : Location → Prop) (fs fs' : FileSystem) : Prop where
  cwd : fs'.cwd = fs.cwd
  clock : fs'.clock = fs.clock
  change : ∀ loc, fs'.get? loc = fs.get? loc ∨
    (places loc ∧ fs.get? loc = none ∧ fs'.get? loc = some (.directory fs.clock))

namespace Grows

variable {places places' : Location → Prop} {fs mid fs' : FileSystem}

theorem refl (fs : FileSystem) : Grows places fs fs := ⟨rfl, rfl, fun _ => .inl rfl⟩

theorem mono (h : Grows places fs fs') (wider : ∀ loc, places loc → places' loc) :
    Grows places' fs fs' where
  cwd := h.cwd
  clock := h.clock
  change loc := (h.change loc).imp_right fun ⟨place, gone, made⟩ => ⟨wider loc place, gone, made⟩

theorem kept (h : Grows places fs fs') (loc : Location) (node : Node)
    (found : fs.get? loc = some node) : fs'.get? loc = some node := by
  rcases h.change loc with same | ⟨_, gone, _⟩
  · exact same.trans found
  · simp [gone] at found

theorem trans (h : Grows places fs mid) (h' : Grows places mid fs') : Grows places fs fs' where
  cwd := h'.cwd.trans h.cwd
  clock := h'.clock.trans h.clock
  change loc := by
    rcases h'.change loc with same | ⟨place, gone, made⟩
    · rw [same]
      exact h.change loc
    · rw [h.clock] at made
      rcases h.change loc with before | ⟨_, _, earlier⟩
      · exact .inr ⟨place, before ▸ gone, made⟩
      · simp [gone] at earlier

theorem resolve (h : Grows places fs fs') {purpose : Purpose} {path : Bytes} {place : Place}
    (found : fs.resolve purpose path = .ok place) {time : Time}
    (ends : fs'.get? place.location = some (.directory time)) :
    fs'.resolve .target path = .ok ⟨place.location, some (.directory time)⟩ := by
  obtain ⟨usable, walked⟩ := walk_of_resolve found
  rw [resolve_of_usable fs' .target usable, h.cwd]
  exact walk_of_kept h.kept walked ends

end Grows

theorem node?_of_resolve {fs : FileSystem} {purpose : Purpose} {path : Bytes} {place : Place}
    (found : fs.resolve purpose path = .ok place) : place.node? = fs.get? place.location :=
  node?_of_walk (walk_of_resolve found).2

/-- A directory that a path leads to, or that a path above it leads to. -/
def OnWay (fs : FileSystem) (path : Bytes) (loc : Location) : Prop :=
  ∃ above, Above path above ∧
    ∃ time, fs.resolve .target above = .ok ⟨loc, some (.directory time)⟩

theorem OnWay.concat {fs : FileSystem} {rooted : Bool} {es : List Bytes} {e : Bytes}
    (h : IsRoute rooted (es ++ [e])) {loc : Location} (way : fs.OnWay (Path.text rooted es) loc) :
    fs.OnWay (Path.text rooted (es ++ [e])) loc := by
  obtain ⟨path, above, found⟩ := way
  exact ⟨path, above.concat h, found⟩

theorem Grows.onWay {places : Location → Prop} {fs fs' : FileSystem} (h : Grows places fs fs')
    {path : Bytes} {loc : Location} (way : fs.OnWay path loc) : fs'.OnWay path loc := by
  obtain ⟨above, isAbove, time, found⟩ := way
  have held : fs'.get? loc = some (.directory time) :=
    h.kept loc _ (node?_of_resolve found).symm
  exact ⟨above, isAbove, time, h.resolve found held⟩

/-- How the making of a directory ends: the path leads to one, or a path on the way to it does not
name one and is to blame. -/
def Arrives (fs : FileSystem) (path : Bytes) : Except PathError Unit → Prop
  | .ok _ => ∃ time, fs.lookup .target path = .ok (.directory time)
  | .error cause => cause.call = .mkdir ∧ Above path cause.path ∧
    ∀ time, fs.lookup .itself cause.path ≠ .ok (.directory time)

/-- What the making of a directory does: directories are made on the way to it, and nothing else
changes, even if it fails halfway. -/
structure Makes (fs fs' : FileSystem) (path : Bytes) (result : Except PathError Unit) : Prop where
  grows : Grows (fs'.OnWay path) fs fs'
  arrives : fs'.Arrives path result

theorem exists_location_of_makeDirectory {fs made : FileSystem} {path : Bytes}
    (ok : fs.makeDirectory path = .ok made) :
    ∃ loc, Grows (· = loc) fs made ∧
      made.resolve .target path = .ok ⟨loc, some (.directory fs.clock)⟩ := by
  unfold makeDirectory at ok
  split at ok
  next => contradiction
  next place found =>
    split at ok
    next => contradiction
    next gone =>
      cases Except.ok.inj ok
      have free : fs.get? place.location = none := (node?_of_resolve found).symm.trans gone
      have below : place.location ≠ [] := fun root => by simp [root, get?] at free
      have change (loc : Location) := get?_put fs below (.directory fs.clock) loc
      have grows : Grows (· = place.location) fs
          (fs.put place.location (.directory fs.clock)) := by
        refine ⟨rfl, rfl, fun loc => ?_⟩
        by_cases here_ : loc = place.location
        · exact .inr ⟨here_, here_ ▸ free, by rw [change, if_pos here_]⟩
        · exact .inl (by rw [change, if_neg here_])
      exact ⟨place.location, grows, grows.resolve found (by rw [change, if_pos rfl])⟩

theorem lookup_target_of_itself {fs : FileSystem} {path : Bytes} {time : Time}
    (named : fs.lookup .itself path = .ok (.directory time)) :
    fs.lookup .target path = .ok (.directory time) := by
  unfold lookup at named ⊢
  cases found : fs.resolve .itself path with
  | error => simp [found] at named
  | ok place =>
    have held : fs.get? place.location = some (.directory time) := by
      rw [← node?_of_resolve found]
      rw [found] at named
      cases node : place.node? with
      | none => simp [node] at named
      | some node' =>
        simp only [node, Except.ok.injEq] at named
        rw [named]
    rw [(Grows.refl fs : Grows (fun _ => False) fs fs).resolve found held]

theorem makes_of_lookup {fs : FileSystem} {rooted : Bool} {es : List Bytes} (h : IsRoute rooted es)
    {node : Node} (looked : fs.lookup .target (Path.text rooted es) = .ok node) :
    Makes fs fs (Path.text rooted es) (if node.isDirectory then .ok ()
      else .error ⟨.mkdir, Path.text rooted es, .notDirectory⟩) := by
  refine ⟨.refl fs, ?_⟩
  split
  next dir =>
    cases node with
    | directory time => exact ⟨time, looked⟩
    | file | link => contradiction
  next other =>
    refine ⟨rfl, Path.above_self h, fun time named => ?_⟩
    rw [lookup_target_of_itself named] at looked
    cases Except.ok.inj looked
    exact other rfl

theorem makes_makeLast (fs : FileSystem) {rooted : Bool} {es : List Bytes} (h : IsRoute rooted es) :
    Makes fs (makeDirectories.makeLast fs (Path.text rooted es)).1 (Path.text rooted es)
      (makeDirectories.makeLast fs (Path.text rooted es)).2 := by
  unfold makeDirectories.makeLast
  cases ok : fs.makeDirectory (Path.text rooted es) with
  | ok made =>
    obtain ⟨loc, grows, found⟩ := exists_location_of_makeDirectory ok
    refine ⟨grows.mono fun loc' here_ => ?_, fs.clock, by rw [lookup, found]⟩
    exact ⟨_, Path.above_self h, fs.clock, here_ ▸ found⟩
  | error fault =>
    simp only
    split
    next time named => exact ⟨.refl fs, time, lookup_target_of_itself named⟩
    next other => exact ⟨.refl fs, rfl, Path.above_self h, other⟩

/-- A directory is made after those above it, unless one of them cannot be made. -/
theorem makes_makeDirectories (fs : FileSystem) {rooted : Bool} {es : List Bytes}
    (h : IsRoute rooted es) :
    Makes fs (fs.makeDirectories (Path.text rooted es)).1 (Path.text rooted es)
      (fs.makeDirectories (Path.text rooted es)).2 := by
  induction es using List.reverseRecOn with
  | nil =>
    rw [makeDirectories_text_nil]
    split
    next looked => exact makes_of_lookup h looked
    next => exact makes_makeLast fs h
  | append_singleton es e ih =>
    obtain ⟨grows, arrives⟩ := ih h.of_append
    have grows := grows.mono fun _ way => way.concat h
    rw [makeDirectories_text fs h]
    split
    next looked => exact makes_of_lookup h looked
    next =>
      split
      next => exact makes_makeLast fs h
      next =>
        split
        next mid _ made =>
          rw [made] at grows
          have last := makes_makeLast mid h
          exact ⟨(grows.mono fun _ way => last.grows.onWay way).trans last.grows, last.arrives⟩
        next mid cause made =>
          rw [made] at grows arrives
          obtain ⟨call, above, other⟩ := arrives
          exact ⟨grows, call, above.concat h, other⟩

end FileSystem

namespace Build

open FileSystem (Makes)

/-- How the build of one file ends, and what has become of the files by then. -/
inductive Outcome (fs : FileSystem) (policy : Policy) (input output : Bytes) :
    FileSystem × Except Error Report → Prop
  | missing : fs.lookup .target input = .error .missing →
    Outcome fs policy input output (fs, .error (.inputNotFound input))
  | unreachable {fault} : fs.lookup .target input = .error fault → fault ≠ .missing →
    Outcome fs policy input output (fs, .error (.readFailed ⟨.openFile, input, fault⟩))
  | noFile {node} : fs.lookup .target input = .ok node →
    (∀ content time, node ≠ .file content time) →
    Outcome fs policy input output (fs, .error (.readFailed ⟨.read, input, .isDirectory⟩))
  | malformed {content time} : fs.lookup .target input = .ok (.file content time) →
    Utf8.isValid content = false → Outcome fs policy input output (fs, .error (.encoding input))
  | blocked {content time fs' cause} : fs.lookup .target input = .ok (.file content time) →
    Utf8.isValid content → fs.makeDirectories (Path.dir output) = (fs', .error cause) →
    Makes fs fs' (Path.dir output) (.error cause) →
    Outcome fs policy input output (fs', .error (.writeFailed cause))
  | unreachableOutput {content time fs' fault} :
    fs.lookup .target input = .ok (.file content time) → Utf8.isValid content →
    fs.makeDirectories (Path.dir output) = (fs', .ok ()) → Makes fs fs' (Path.dir output) (.ok ()) →
    fs'.resolve .creation output = .error fault →
    Outcome fs policy input output (fs', .error (.writeFailed ⟨.openFile, output, fault⟩))
  | directoryOutput {content time fs' place made} :
    fs.lookup .target input = .ok (.file content time) → Utf8.isValid content →
    fs.makeDirectories (Path.dir output) = (fs', .ok ()) → Makes fs fs' (Path.dir output) (.ok ()) →
    fs'.resolve .creation output = .ok place →
    fs'.get? place.location = some (.directory made) →
    Outcome fs policy input output (fs', .error (.writeFailed ⟨.openFile, output, .isDirectory⟩))
  | written {content time mid fs' place} : fs.lookup .target input = .ok (.file content time) →
    Utf8.isValid content → fs.makeDirectories (Path.dir output) = (mid, .ok ()) →
    Makes fs mid (Path.dir output) (.ok ()) →
    mid.resolve .creation output = .ok place → fs.isDirectory place.location = false →
    fs'.resolve .target output =
      .ok ⟨place.location, some (.file (minify policy content) fs.clock)⟩ →
    (∀ loc, loc ≠ place.location → fs'.get? loc = fs.get? loc ∨
      (mid.OnWay (Path.dir output) loc ∧ fs.get? loc = none ∧
        fs'.get? loc = some (.directory fs.clock))) →
    Outcome fs policy input output
      (fs', .ok ⟨1, Int64.ofNat content.length, Int64.ofNat (minify policy content).length⟩)

theorem readFile_eq_ok_iff {fs : FileSystem} {path content : Bytes} :
    fs.readFile path = .ok content ↔ ∃ time, fs.lookup .target path = .ok (.file content time) := by
  unfold FileSystem.readFile
  match fs.lookup .target path with
  | .error _ => simp
  | .ok (.file _ _) => simp
  | .ok (.directory _) => simp
  | .ok (.link _) => simp

theorem makes_makeDirectories_dir (fs : FileSystem) (output : Bytes) :
    Makes fs (fs.makeDirectories (Path.dir output)).1 (Path.dir output)
      (fs.makeDirectories (Path.dir output)).2 := by
  rw [Path.dir, Path.clean_eq_text]
  exact FileSystem.makes_makeDirectories fs (Path.isRoute_route _)

/-- A file is written where its path leads, or the path leads nowhere or to a directory. -/
theorem writeFile_cases (fs : FileSystem) (path content : Bytes) :
    (∃ fault, fs.resolve .creation path = .error fault ∧
      fs.writeFile path content = .error ⟨.openFile, path, fault⟩) ∨
    (∃ place made, fs.resolve .creation path = .ok place ∧
      fs.get? place.location = some (.directory made) ∧
      fs.writeFile path content = .error ⟨.openFile, path, .isDirectory⟩) ∨
    ∃ place written, fs.resolve .creation path = .ok place ∧ fs.isDirectory place.location = false ∧
      fs.writeFile path content = .ok written ∧
      written.resolve .target path = .ok ⟨place.location, some (.file content fs.clock)⟩ ∧
      ∀ loc, loc ≠ place.location → written.get? loc = fs.get? loc := by
  unfold FileSystem.writeFile
  cases found : fs.resolve .creation path with
  | error fault => exact .inl ⟨fault, rfl, rfl⟩
  | ok place =>
    have holds := FileSystem.node?_of_resolve found
    simp only
    split
    next time dir => exact .inr (.inl ⟨place, time, rfl, holds.symm.trans dir, rfl⟩)
    next free =>
      have plain : fs.isDirectory place.location = false := by
        rw [Bool.eq_false_iff]
        intro dir
        obtain ⟨time, held⟩ := FileSystem.isDirectory_iff.mp dir
        exact free time (holds.trans held)
      have below : place.location ≠ [] := by
        intro root
        simp [root, FileSystem.isDirectory_root] at plain
      refine .inr (.inr ⟨place, _, rfl, plain, rfl,
        FileSystem.resolve_put found free content fs.clock, fun loc other => ?_⟩)
      rw [FileSystem.get?_put fs below, if_neg other]

theorem outcome_of_content {fs : FileSystem} {input content : Bytes} {time : Time}
    (looked : fs.lookup .target input = .ok (.file content time)) (policy : Policy)
    (output : Bytes) : Outcome fs policy input output (file fs policy input output) := by
  have read : fs.readFile input = .ok content := readFile_eq_ok_iff.mpr ⟨time, looked⟩
  cases valid : Utf8.isValid content with
  | false =>
    have refused : readSource fs input = .error (.encoding input) := by
      simp [readSource, read, valid]
    rw [file_of_error refused]
    exact .malformed looked valid
  | true =>
    have makes := makes_makeDirectories_dir fs output
    rw [file_of_ok (readSource_of_readFile read valid), writeOutput]
    cases dirs : fs.makeDirectories (Path.dir output) with
    | mk mid made =>
      rw [dirs] at makes
      cases made with
      | error cause => exact .blocked looked valid dirs makes
      | ok =>
        simp only
        rcases writeFile_cases mid output (minify policy content) with
          ⟨fault, lost, wrote⟩ | ⟨place, made, found, dir, wrote⟩ |
          ⟨place, fs', found, plain, wrote, back, same⟩
        · rw [wrote]
          exact .unreachableOutput looked valid dirs makes lost
        · rw [wrote]
          exact .directoryOutput looked valid dirs makes found dir
        · rw [makes.grows.clock] at back
          rw [wrote]
          refine .written looked valid dirs makes found ?_ back fun loc other => ?_
          · rw [Bool.eq_false_iff] at plain ⊢
            intro dir
            obtain ⟨time, held⟩ := FileSystem.isDirectory_iff.mp dir
            exact plain (FileSystem.isDirectory_iff.mpr ⟨time, makes.grows.kept _ _ held⟩)
          · rw [same loc other]
            exact makes.grows.change loc

theorem outcome_of_lookup (fs : FileSystem) (policy : Policy) (input output : Bytes) :
    Outcome fs policy input output (file fs policy input output) := by
  have unread {cause : PathError} {e : Error} (failed : fs.readFile input = .error cause)
      (same : inputError input cause = e) :
      file fs policy input output = (fs, .error e) :=
    file_of_error (by rw [readSource, failed, ← same])
  cases looked : fs.lookup .target input with
  | error fault =>
    have failed : fs.readFile input = .error ⟨.openFile, input, fault⟩ := by
      rw [FileSystem.readFile, looked]
    by_cases gone : fault = .missing
    · rw [unread failed (if_pos gone)]
      exact .missing (gone ▸ looked)
    · rw [unread failed (if_neg gone)]
      exact .unreachable looked gone
  | ok node =>
    by_cases held : ∃ content time, node = .file content time
    · obtain ⟨content, time, rfl⟩ := held
      exact outcome_of_content looked policy output
    · have other : ∀ content time, node ≠ .file content time :=
        fun content time same => held ⟨content, time, same⟩
      have failed : fs.readFile input = .error ⟨.read, input, .isDirectory⟩ := by
        unfold FileSystem.readFile
        rw [looked]
        cases node with
        | file content time => exact absurd rfl (other content time)
        | directory => rfl
        | link => rfl
      rw [unread failed (if_neg (by simp))]
      exact .noFile looked other

/-- The build of one file ends in one of eight ways. It is refused for its encoding if and only if
it could be read and is not valid. -/
theorem file_outcome (fs : FileSystem) (policy : Policy) (input output : Bytes) :
    Outcome fs policy input output (file fs policy input output) ∧
      ((∃ path, (file fs policy input output).2 = .error (.encoding path)) ↔
        ∃ content, fs.readFile input = .ok content ∧ Utf8.isValid content = false) := by
  have outcome := outcome_of_lookup fs policy input output
  refine ⟨outcome, ?_⟩
  simp only [readFile_eq_ok_iff]
  generalize file fs policy input output = result at outcome
  cases outcome with
  | missing looked => simp [looked]
  | unreachable looked => simp [looked]
  | noFile looked other => simp [looked, other]
  | malformed looked invalid => simp [looked, invalid]
  | blocked looked valid => simp [looked, valid]
  | unreachableOutput looked valid => simp [looked, valid]
  | directoryOutput looked valid => simp [looked, valid]
  | written looked valid => simp [looked, valid]

/-- A source, and a link to it. -/
def linkToSource : FileSystem :=
  ⟨[([utf8 "a.lua"], .file (utf8 "x = 1 -- one\n") .zero), ([utf8 "b.lua"], .link (utf8 "a.lua"))],
    [], .zero⟩

example : (file linkToSource .literal (utf8 "a.lua") (utf8 "b.lua")).1.readFile (utf8 "a.lua") =
    .ok (utf8 "x=1") := by
  cbv

end Build

end LuaCompact
