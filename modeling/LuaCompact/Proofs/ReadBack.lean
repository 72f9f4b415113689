import LuaCompact.Proofs.FileByFile
import LuaCompact.Proofs.Utf8Closure

namespace LuaCompact

namespace FileSystem

theorem node?_of_walk {fs : FileSystem} {purpose : Purpose} {links : Nat} {loc : Location}
    {todo : List Bytes} {place : Place} (found : walk fs purpose links loc todo = .ok place) :
    place.node? = fs.get? place.location := by
  fun_induction walk fs purpose links loc todo with
  | case1 =>
    cases Except.ok.inj found
    rfl
  | case2 _ _ _ _ _ ih | case3 _ _ _ _ ih | case8 _ _ _ _ _ _ _ _ _ _ ih
  | case14 _ _ _ _ _ _ _ _ _ _ _ _ ih => exact ih found
  | case4 | case5 | case7 | case10 | case12 | case13 => contradiction
  | case6 _ _ _ _ _ _ _ _ held | case9 _ _ _ _ _ _ _ _ held | case11 _ _ _ _ _ _ _ _ _ held =>
    cases Except.ok.inj found
    exact held.symm

/-- Once a walk is away from a link, it comes to an end neither at the link nor beneath it. -/
theorem not_prefix_of_walk {fs : FileSystem} {links : Nat} {loc : Location} {todo : List Bytes}
    {place : Place} (found : walk fs .creation links loc todo = .ok place) {linked : Location}
    {goal : Bytes} (link : fs.get? linked = some (.link goal)) (away : ¬ linked <+: loc) :
    ¬ linked <+: place.location := by
  have enter {loc : Location} {e : Bytes} (away : ¬ linked <+: loc)
      (other : fs.get? (loc ++ [e]) ≠ some (.link goal)) : ¬ linked <+: loc ++ [e] := by
    rw [List.prefix_concat_iff]
    rintro (rfl | inside)
    · exact other link
    · exact away inside
  fun_induction walk fs .creation links loc todo with
  | case1 =>
    cases Except.ok.inj found
    exact away
  | case2 _ _ _ _ _ ih => exact ih found away
  | case3 _ loc _ _ ih => exact ih found fun h => away (h.trans (List.dropLast_prefix loc))
  | case8 _ _ _ _ _ _ _ _ _ held ih => exact ih found (enter away (by simp [held]))
  | case14 _ loc _ _ _ _ _ goal _ _ _ _ ih =>
    refine ih found ?_
    split
    · exact fun h => away (h.trans (List.nil_prefix))
    · exact away
  | case4 | case5 | case7 | case10 | case12 | case13 => contradiction
  | case6 _ _ _ _ _ _ _ _ held | case9 _ _ _ _ _ _ _ _ held =>
    cases Except.ok.inj found
    exact enter away (by simp [held])
  | case11 _ _ _ _ _ _ _ _ _ _ last => exact absurd last.2 (by decide)

/-- Where a walk for a new file ends, a walk for reading ends once the file is there. What it went
through on its way stands elsewhere, so that the file changes none of it. -/
theorem walk_put {fs : FileSystem} {links : Nat} {loc : Location} {todo : List Bytes}
    {place : Place} (found : walk fs .creation links loc todo = .ok place)
    (free : ∀ time, place.node? ≠ some (.directory time)) (content : Bytes) (time : Time) :
    walk (fs.put place.location (.file content time)) .target links loc todo =
      .ok ⟨place.location, some (.file content time)⟩ := by
  have holds := node?_of_walk found
  have below : place.location ≠ [] := by
    intro root
    exact free fs.clock (by rw [holds, root]; rfl)
  have get (other : Location) : (fs.put place.location (.file content time)).get? other =
      if other = place.location then some (.file content time) else fs.get? other :=
    get?_put fs below _ other
  fun_induction walk fs .creation links loc todo with
  | case1 =>
    cases Except.ok.inj found
    rw [walk, get, if_pos rfl]
  | case2 _ _ _ _ skip ih => rw [walk, if_pos skip, ih found]
  | case3 _ _ _ step ih => rw [walk, if_neg step, if_pos rfl, ih found]
  | case4 | case5 | case7 | case10 | case12 | case13 => contradiction
  | case6 _ loc e rest skip up short slashed missing only =>
    cases Except.ok.inj found
    have last : rest = [] := by
      by_contra more
      exact slashed ⟨rfl, more, only⟩
    rw [walk, if_neg skip, if_neg up, if_neg short, if_neg (by simp), get, if_pos rfl]
    simp [last]
  | case8 _ loc e rest skip up short slashed _ held ih =>
    have other : loc ++ [e] ≠ place.location := by
      intro h
      exact free _ (by rw [holds, ← h, held])
    rw [walk, if_neg skip, if_neg up, if_neg short, if_neg (by simp), get, if_neg other, held]
    exact ih found
  | case9 _ loc e skip up short old _ held =>
    cases Except.ok.inj found
    rw [walk, if_neg skip, if_neg up, if_neg short, if_neg (by simp), get, if_pos rfl]
    simp
  | case11 _ _ _ _ _ _ _ _ _ _ last => exact absurd last.2 (by decide)
  | case14 loc e rest skip up short slashed goal held aim links named ih =>
    have away : ¬ loc ++ [e] <+: if Path.isRooted goal then [] else loc := by
      intro inside
      have longer := inside.length_le
      rw [List.length_append, List.length_singleton] at longer
      split at longer
      · exact absurd longer (Nat.not_succ_le_zero _)
      · omega
    have other : loc ++ [e] ≠ place.location := by
      intro h
      exact not_prefix_of_walk found held away (h ▸ List.prefix_rfl)
    rw [walk, if_neg skip, if_neg up, if_neg short, if_neg (by simp), get, if_neg other, held]
    simp only
    rw [if_neg (by simp), if_neg named]
    exact ih found

theorem resolve_put {fs : FileSystem} {path : Bytes} {place : Place}
    (found : fs.resolve .creation path = .ok place)
    (free : ∀ time, place.node? ≠ some (.directory time)) (content : Bytes) (time : Time) :
    (fs.put place.location (.file content time)).resolve .target path =
      .ok ⟨place.location, some (.file content time)⟩ := by
  obtain ⟨usable, walked⟩ := walk_of_resolve found
  rw [resolve_of_usable _ .target usable]
  exact walk_put walked free content time

/-- A file that has just been written is read back, whatever links its path leads through. -/
theorem readFile_writeFile {fs written : FileSystem} {path content : Bytes}
    (wrote : fs.writeFile path content = .ok written) : written.readFile path = .ok content := by
  unfold writeFile at wrote
  split at wrote
  next => contradiction
  next place found =>
    split at wrote
    next => contradiction
    next free =>
      cases Except.ok.inj wrote
      rw [readFile, lookup, resolve_put found free]

end FileSystem

namespace Build

theorem readFile_writeOutput {fs written : FileSystem} {path content : Bytes}
    (wrote : writeOutput fs path content = (written, .ok ())) :
    written.readFile path = .ok content := by
  unfold writeOutput at wrote
  split at wrote
  next => cases wrote
  next =>
    split at wrote
    next => cases wrote
    next made =>
      obtain ⟨rfl, -⟩ := Prod.mk.inj wrote
      exact FileSystem.readFile_writeFile made

theorem readSource_of_readFile {fs : FileSystem} {path content : Bytes}
    (read : fs.readFile path = .ok content) (valid : Utf8.isValid content) :
    readSource fs path = .ok content := by
  rw [readSource, read]
  exact if_pos valid

theorem isValid_of_readSource {fs : FileSystem} {path content : Bytes}
    (read : readSource fs path = .ok content) : Utf8.isValid content := by
  unfold readSource at read
  split at read
  next => contradiction
  next =>
    split at read
    next valid => exact Except.ok.inj read ▸ valid
    next => contradiction

theorem exists_readSource_of_file {fs fs' : FileSystem} {policy : Policy} {input output : Bytes}
    {r : Report} (built : file fs policy input output = (fs', .ok r)) :
    ∃ content, readSource fs input = .ok content ∧
      writeOutput fs output (minify policy content) = (fs', .ok ()) := by
  cases read : readSource fs input with
  | error e =>
    rw [file_of_error read] at built
    cases (Prod.mk.inj built).2
  | ok content =>
    rw [file_of_ok read] at built
    obtain ⟨same, done⟩ := Prod.mk.inj built
    refine ⟨content, rfl, Prod.ext same ?_⟩
    cases result : (writeOutput fs output (minify policy content)).2 with
    | error e =>
      rw [result] at done
      contradiction
    | ok => rfl

end Build

/-- No cut divides a character: all segments of a valid text are valid, and so is what it is
minified to. A file that a build has written is read back as it was written, and wherever its
content stands later, it is never refused for its encoding. -/
theorem isValid_minify_and_readSource_of_file :
    (∀ (policy : Policy) (s : Bytes), Utf8.isValid s →
      (∀ seg ∈ strip policy s, Utf8.isValid seg.text) ∧ Utf8.isValid (minify policy s)) ∧
    ∀ (fs fs' : FileSystem) (policy : Policy) (input output : Bytes) (r : Report),
      Build.file fs policy input output = (fs', .ok r) →
      ∃ content, Build.readSource fs input = .ok content ∧
        Build.readSource fs' output = .ok (minify policy content) ∧
        ∀ (later : FileSystem) (path : Bytes), later.readFile path = .ok (minify policy content) →
          Build.readSource later path = .ok (minify policy content) := by
  refine ⟨fun policy s valid => ⟨isValid_strip policy valid, isValid_minify policy valid⟩, ?_⟩
  intro fs fs' policy input output r built
  obtain ⟨content, read, wrote⟩ := Build.exists_readSource_of_file built
  have valid := isValid_minify policy (Build.isValid_of_readSource read)
  have back := Build.readFile_writeOutput wrote
  exact ⟨content, read, Build.readSource_of_readFile back valid,
    fun later path same => Build.readSource_of_readFile same valid⟩

/-- A directory that a link leads to, and a source with characters of two, three and four bytes. -/
def linkedSource : FileSystem where
  nodes := [([utf8 "src"], .directory .zero),
    ([utf8 "src", utf8 "a.lua"], .file (utf8 "x = 'é\\é' -- €\ny = '😀'\n") .zero),
    ([utf8 "out"], .link (utf8 "src/../made")), ([utf8 "made"], .directory .zero)]
  cwd := []
  clock := .zero

theorem isValid_minify_and_readSource_of_linkedSource :
    Utf8.isValid (utf8 "x = 'é\\é' -- €\ny = '😀'\n") ∧
      (∀ seg ∈ strip .literal (utf8 "x = 'é\\é' -- €\ny = '😀'\n"), Utf8.isValid seg.text) ∧
      ∃ fs' r, Build.file linkedSource .literal (utf8 "src/a.lua") (utf8 "out/b/a.lua") =
          (fs', .ok r) ∧
        Build.readSource fs' (utf8 "out/b/a.lua") = .ok (utf8 "x='é\\é'\ny='😀'") := by
  have valid : Utf8.isValid (utf8 "x = 'é\\é' -- €\ny = '😀'\n") := by decide_cbv
  refine ⟨valid, (isValid_minify_and_readSource_of_file.1 .literal _ valid).1, ?_⟩
  have source : Build.readSource linkedSource (utf8 "src/a.lua") =
      .ok (utf8 "x = 'é\\é' -- €\ny = '😀'\n") := by cbv
  have short : minify .literal (utf8 "x = 'é\\é' -- €\ny = '😀'\n") =
      utf8 "x='é\\é'\ny='😀'" := by decide_cbv
  have wrote : (Build.writeOutput linkedSource (utf8 "out/b/a.lua")
      (utf8 "x='é\\é'\ny='😀'")).2.toBool := by cbv
  have file := Build.file_of_ok source .literal (utf8 "out/b/a.lua")
  rw [short] at file
  revert wrote file
  generalize Build.writeOutput linkedSource (utf8 "out/b/a.lua") (utf8 "x='é\\é'\ny='😀'") = made
  obtain ⟨fs', done⟩ := made
  intro wrote file
  cases done with
  | error => contradiction
  | ok =>
    obtain ⟨content, read, back, -⟩ := isValid_minify_and_readSource_of_file.2 linkedSource _
      .literal (utf8 "src/a.lua") (utf8 "out/b/a.lua") _ file
    obtain rfl := Except.ok.inj (source.symm.trans read)
    rw [short] at back
    exact ⟨_, _, file, back⟩

end LuaCompact
