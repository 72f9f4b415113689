import LuaCompact.Proofs.Descent
import LuaCompact.Proofs.Listing
import LuaCompact.Proofs.PatternElements

namespace LuaCompact

namespace Path

theorem ofElements_append {es ns : List Bytes} (nonempty : es ≠ []) (nonempty' : ns ≠ []) :
    ofElements (es ++ ns) = ofElements es ++ Byte.slash :: ofElements ns := by
  obtain ⟨first, es, rfl⟩ := List.exists_cons_of_ne_nil nonempty
  obtain ⟨next, ns, rfl⟩ := List.exists_cons_of_ne_nil nonempty'
  simp only [ofElements, List.cons_append, intercalate_cons_eq]
  simp

theorem eq_or_eq_append_slash (path : Bytes) :
    Bytes.dropEnd [Byte.slash] path = path ∨
      path = Bytes.dropEnd [Byte.slash] path ++ [Byte.slash] := by
  rw [Bytes.dropEnd]
  split
  next ends =>
    obtain ⟨front, whole⟩ := List.isSuffixOf_iff_suffix.mp ends
    right
    simp [← whole]
  next => exact .inl rfl

theorem join_append_slash (dir : Bytes) {path : Bytes} (down : Descends path) :
    join dir (path ++ [Byte.slash]) = join dir path := by
  have split : elements (path ++ [Byte.slash]) = elements path ++ [[]] := elements_append path []
  by_cases unnamed : dir = []
  · subst unnamed
    have root : isRooted (path ++ [Byte.slash]) = isRooted path := isRooted_append down.ne_nil _
    have same : route (path ++ [Byte.slash]) = route path := by
      rw [route, split, List.foldl_append, root, route]
      rfl
    rw [join, join, if_pos rfl, if_pos rfl, if_neg (by simp), if_neg down.ne_nil, clean_eq_text,
      clean_eq_text, root, same]
  · have same : route (join dir (path ++ [Byte.slash])) = route (join dir path) := by
      rw [route_join unnamed, route_join unnamed, split, List.foldl_append]
      rfl
    rw [join_eq_text unnamed, join_eq_text unnamed path, same]

theorem base_ofElements (es : List Bytes) {name : Bytes} (isStep : IsStep name) :
    base (ofElements (es ++ [name])) = name := by
  simpa [text] using base_text false es isStep

end Path

namespace Selection

open LuaCompact.Path (IsStep)

/-- The path lies beneath one that a pattern with special characters, but without any-depth mark,
takes out. -/
def MatchesAbove (path pattern : Bytes) : Prop :=
  splitDepth? pattern = none ∧ Pattern.hasMeta pattern = true ∧
    ∃ dir, dir ++ [Byte.slash] <+: path ∧ matchesPattern dir pattern = true

theorem matchesPattern_of_admits {pattern path : Bytes} (marked : splitDepth? pattern = none)
    (admits : Pattern.admits pattern path) : matchesPattern path pattern := by
  simp [matchesPattern, marked, matchesFlat, admits]

/-- What lies beneath the directory that a pattern without special characters names is taken out. -/
theorem matchesPattern_beneath {pattern : Bytes} (plain : Pattern.hasMeta pattern = false)
    (rest : Bytes) :
    matchesPattern (Bytes.dropEnd [Byte.slash] pattern ++ Byte.slash :: rest) pattern := by
  have tame : Pattern.hasWildcard pattern = false := by
    simp only [Pattern.hasMeta, Bool.or_eq_false_iff] at plain
    exact plain.1
  have starts : Bytes.dropEnd [Byte.slash] pattern ++ [Byte.slash] <+:
      Bytes.dropEnd [Byte.slash] pattern ++ Byte.slash :: rest := ⟨rest, by simp⟩
  rw [matchesPattern, splitDepth?_of_plain plain]
  simp [matchesFlat, tame, List.isPrefixOf_iff_prefix, starts]

/-- Beneath what stands before an any-depth mark, a file is taken out if its name or the path to it
matches what follows the mark, which must stand for no slash unless it is written as it is. -/
theorem matchesPattern_of_marked {pattern before after : Bytes}
    (marked : splitDepth? pattern = some (before, after)) {above front : List Bytes} {name : Bytes}
    (spelled : above = [] ∧ before = [] ∨ above ≠ [] ∧ before = Path.ofElements above)
    (isStep : IsStep name)
    (shape : Pattern.slashFree after ∨ before ≠ [] ∧ Pattern.hasMeta after = false)
    (fits : after = [] ∨ Pattern.admits after name ∨
      Pattern.admits after (Path.ofElements (front ++ [name]))) :
    matchesPattern (Path.ofElements (above ++ (front ++ [name]))) pattern := by
  have last : Path.base (Path.ofElements (above ++ (front ++ [name]))) = name := by
    rw [← List.append_assoc, Path.base_ofElements _ isStep]
  have joined (nonempty : above ≠ []) : Path.ofElements (above ++ (front ++ [name])) =
      Path.ofElements above ++ Byte.slash :: Path.ofElements (front ++ [name]) :=
    Path.ofElements_append nonempty (by simp)
  simp only [matchesPattern, marked, matchesDeep, last, Bool.and_eq_true, Bool.or_eq_true,
    decide_eq_true_eq, List.isPrefixOf_iff_prefix, List.isSuffixOf_iff_suffix]
  constructor
  · rcases spelled with ⟨-, rfl⟩ | ⟨nonempty, rfl⟩
    · exact .inl (.inl rfl)
    · rw [joined nonempty]
      exact .inl (.inr ⟨Path.ofElements (front ++ [name]), by simp⟩)
  · rcases fits with empty | own | whole
    · exact .inl (.inl empty)
    · exact .inl (.inr own)
    · rcases shape with within | ⟨named, plain⟩
      · have free := Pattern.slash_notMem_of_admits within whole
        have single : front = [] := by
          by_contra deep
          simp [Path.ofElements_concat deep] at free
        rw [single] at whole
        simpa [Path.ofElements] using Or.inl (Or.inr whole)
      · obtain ⟨nonempty, rfl⟩ := spelled.resolve_left fun bare => named bare.2
        rw [joined nonempty, ← (Pattern.admits_iff_of_plain plain).mp whole]
        exact .inr (List.suffix_append _ _)

end Selection

namespace Expand

open LuaCompact.Path (IsStep IsRoute Descends)
open Selection (matchesPattern MatchesAbove)

/-- Where a pattern has one reading. Without any-depth mark it is a path that leads down, the
directory has a name without special characters, and no class before the last slash of the pattern
can stand for a slash; a slash at the end marks a directory that is named as it is written. Before
an any-depth mark there is nothing or a path that leads down, and no file is where the search
starts; what follows the mark stands for no slash, or is written as it is below a directory. -/
def Uniform (fs : FileSystem) (base pattern : Bytes) : Prop :=
  match Selection.splitDepth? pattern with
  | some (before, after) =>
    (before = [] ∨ Descends before) ∧
      fs.endsAtFile (if before = [] then base else Path.join base before) = false ∧
      (Pattern.slashFree after ∨ before ≠ [] ∧ Pattern.hasMeta after = false)
  | none =>
    let bare := Bytes.dropEnd [Byte.slash] pattern
    Pattern.hasMeta (Path.clean base) = false ∧ Descends bare ∧
      (∀ e ∈ (Path.elements bare).dropLast, Pattern.slashFree e) ∧
      (bare = pattern ∨
        Pattern.hasMeta pattern = false ∧ fs.endsAtFile (Path.join base bare) = false)

section

variable {fs : FileSystem} (named : fs.Named)

include named

/-- Without any-depth mark, the paths that are found begin with names that the elements of the
pattern match one by one. -/
theorem exists_names_of_mem_glob {base pattern bare : Bytes}
    (marked : Selection.splitDepth? pattern = none)
    (plain : Pattern.hasMeta (Path.clean base) = false) (down : Descends bare)
    (joined : Path.join base pattern = Path.join base bare) {found : List Bytes}
    (ok : glob fs base pattern = .ok found) {path : Bytes} (mem : path ∈ found) :
    ∃ names, List.Forall₂ (fun e name => Pattern.admits e name) (Path.elements bare) names ∧
      names ≠ [] ∧ (∀ name ∈ names, IsStep name) ∧
      (path = Path.ofElements names ∧
          fs.endsAtFile (Path.text (Path.isRooted base) (Path.route base ++ names)) = true ∨
        ∃ ns, ns ≠ [] ∧ (∀ e ∈ ns, IsStep e) ∧ path = Path.ofElements (names ++ ns)) := by
  simp only [glob, marked, joined, Path.join_of_descends base down] at ok
  cases each :
      paths fs (Path.text (Path.isRooted base) (Path.route base ++ Path.elements bare)) with
  | error => simp [each, bind, Except.bind] at ok
  | ok starts =>
    simp only [each, bind, Except.bind, pure, Except.pure, Except.ok.injEq] at ok
    rw [← ok, List.mem_filterMap] at mem
    obtain ⟨q, inside, rel⟩ := mem
    obtain ⟨start, started, listed⟩ := List.mem_flatMap.mp inside
    rw [Path.clean_eq_text] at plain
    obtain ⟨names, fits, steps, rfl⟩ :=
      exists_of_mem_paths named (Path.isRoute_route base) plain down each started
    have isRoute := (Path.isRoute_route base).append steps
    have nonempty : names ≠ [] := by
      rintro rfl
      exact List.splitOn_ne_nil _ _ (List.forall₂_nil_right_iff.mp fits)
    refine ⟨names, fits, nonempty, steps, ?_⟩
    rcases eq_or_exists_of_mem_files named listed with ⟨rfl, file⟩ | ⟨ns, more, below, rfl⟩
    · rw [Path.relative?_text _ nonempty steps] at rel
      exact .inl ⟨(Option.some.inj rel).symm, file⟩
    · have deeper := List.forall_mem_append.mpr ⟨steps, below⟩
      rw [Path.isRooted_text isRoute, Path.route_text isRoute, List.append_assoc,
        Path.relative?_text _ (by simp [nonempty]) deeper] at rel
      exact .inr ⟨ns, more, below, (Option.some.inj rel).symm⟩

theorem matches_of_mem_glob_flat {base pattern : Bytes}
    (marked : Selection.splitDepth? pattern = none) (uniform : Uniform fs base pattern)
    {found : List Bytes} (ok : glob fs base pattern = .ok found) {path : Bytes}
    (mem : path ∈ found) : matchesPattern path pattern ∨ MatchesAbove path pattern := by
  simp only [Uniform, marked] at uniform
  generalize written : Bytes.dropEnd [Byte.slash] pattern = bare at uniform
  obtain ⟨plain, down, within, shape⟩ := uniform
  have slashed : bare = pattern ∨ pattern = bare ++ [Byte.slash] :=
    written ▸ Path.eq_or_eq_append_slash pattern
  have joined : Path.join base pattern = Path.join base bare := by
    rcases slashed with rfl | rfl
    · rfl
    · exact Path.join_append_slash base down
  obtain ⟨names, fits, nonempty, steps, found⟩ :=
    exists_names_of_mem_glob named marked plain down joined ok mem
  have free : ∀ name ∈ names, Byte.slash ∉ name := fun name mem => (steps name mem).2.2.2
  have admits : Pattern.admits bare (Path.ofElements names) := by
    have whole := Pattern.admits_ofElements within free fits (List.splitOn_ne_nil _ _)
    rwa [Path.ofElements_elements] at whole
  -- A pattern without special characters finds the one path that it spells.
  have spelled (tame : Pattern.hasMeta pattern = false) : Path.ofElements names = bare := by
    have sub : bare ⊆ pattern := by
      rcases slashed with rfl | rfl
      · exact List.Subset.refl _
      · exact List.subset_append_left _ _
    exact (Pattern.admits_iff_of_plain (Pattern.hasMeta_of_subset sub tame)).mp admits
  rcases found with ⟨rfl, file⟩ | ⟨ns, more, below, rfl⟩
  · rcases shape with rfl | ⟨tame, opens⟩
    · exact .inl (Selection.matchesPattern_of_admits marked admits)
    · have same : Path.elements bare = names := by
        rw [← spelled tame, Path.elements_ofElements nonempty free]
      rw [Path.join_of_descends base down, same, file] at opens
      contradiction
  · rw [Path.ofElements_append nonempty more]
    by_cases wild : Pattern.hasMeta pattern = true
    · have same : bare = pattern := shape.resolve_right fun tame => by simp [wild] at tame
      rw [same] at admits
      exact .inr ⟨marked, wild, Path.ofElements names, ⟨Path.ofElements ns, by simp⟩,
        Selection.matchesPattern_of_admits marked admits⟩
    · have tame : Pattern.hasMeta pattern = false := by simpa using wild
      rw [spelled tame, ← written]
      exact .inl (Selection.matchesPattern_beneath tame _)

omit named in
/-- Where the search for what follows an any-depth mark starts. -/
theorem exists_route_start (base : Bytes) {before : Bytes} (down : before = [] ∨ Descends before)
    {start : Bytes} (led : (if before = [] then base else Path.join base before) = start) :
    ∃ above, (∀ e ∈ above, IsStep e) ∧ Path.isRooted start = Path.isRooted base ∧
      Path.route start = Path.route base ++ above ∧
      (above = [] ∧ before = [] ∨ above ≠ [] ∧ before = Path.ofElements above) := by
  by_cases bare : before = []
  · rw [if_pos bare] at led
    exact ⟨[], by simp, by rw [led], by rw [led, List.append_nil], .inl ⟨rfl, bare⟩⟩
  · have down := down.resolve_left bare
    have h := (Path.isRoute_route base).append down
    rw [if_neg bare, Path.join_of_descends base down] at led
    refine ⟨Path.elements before, down, ?_, ?_, .inr ⟨List.splitOn_ne_nil _ _, ?_⟩⟩
    · rw [← led, Path.isRooted_text h]
    · rw [← led, Path.route_text h]
    · rw [Path.ofElements_elements]

theorem matches_of_mem_glob_deep {base pattern before after : Bytes}
    (marked : Selection.splitDepth? pattern = some (before, after))
    (uniform : Uniform fs base pattern) {found : List Bytes}
    (ok : glob fs base pattern = .ok found) {path : Bytes} (mem : path ∈ found) :
    matchesPattern path pattern := by
  simp only [Uniform, marked] at uniform
  obtain ⟨down, opens, shape⟩ := uniform
  simp only [glob, marked, Except.ok.injEq] at ok
  generalize led : (if before = [] then base else Path.join base before) = start at opens ok
  obtain ⟨above, steps, root, whole, spelled⟩ := exists_route_start base down led
  rw [← ok, List.mem_filterMap] at mem
  obtain ⟨q, inside, rel⟩ := mem
  obtain ⟨listed, fits⟩ := List.mem_filter.mp inside
  rcases eq_or_exists_of_mem_files named listed with ⟨rfl, file⟩ | ⟨ns, nonempty, below, rfl⟩
  · rw [opens] at file
    contradiction
  · have own := Path.relative?_text start nonempty below
    rw [Selection.matchesAfter, own] at fits
    rw [whole, root, List.append_assoc, Path.relative?_text _ (by simp [nonempty])
      (List.forall_mem_append.mpr ⟨steps, below⟩)] at rel
    rw [← Option.some.inj rel]
    obtain ⟨front, name, rfl⟩ := (List.eq_nil_or_concat' ns).resolve_left nonempty
    have isStep : IsStep name := below name (by simp)
    rw [← List.append_assoc, Path.base_text _ _ isStep] at fits
    exact Selection.matchesPattern_of_marked marked spelled isStep shape (by simpa using fits)

theorem matches_of_mem_glob {base pattern : Bytes} (uniform : Uniform fs base pattern)
    {found : List Bytes} (ok : glob fs base pattern = .ok found) {path : Bytes}
    (mem : path ∈ found) : matchesPattern path pattern ∨ MatchesAbove path pattern := by
  cases marked : Selection.splitDepth? pattern with
  | some parts => exact .inl (matches_of_mem_glob_deep named marked uniform ok mem)
  | none => exact matches_of_mem_glob_flat named marked uniform ok mem

theorem matchesAbove_of_mem_includes {base pattern : Bytes} (uniform : Uniform fs base pattern)
    {paths : List Bytes} (ok : includes fs base [pattern] [pattern] = .ok paths) {path : Bytes}
    (mem : path ∈ paths) : MatchesAbove path pattern := by
  obtain ⟨⟨pattern', written, found, listed, inside⟩, kept⟩ := (mem_includes_iff ok).mp mem
  cases List.mem_singleton.mp written
  have missed : ¬ matchesPattern path pattern := by
    simpa [Selection.isExcluded] using kept
  exact (matches_of_mem_glob named uniform listed inside).resolve_left missed

omit named in
theorem includes_itself {base pattern path : Bytes} (ok : glob fs base pattern = .ok [path]) :
    includes fs base [pattern] [pattern] =
      .ok (if matchesPattern path pattern then [] else [path]) := by
  cases taken : matchesPattern path pattern <;>
    simp [includes, keep, ok, Selection.isExcluded, taken, bind, Except.bind, pure, Except.pure]

/-- Where a pattern has one reading, it takes out what it selects, but for what lies beneath a
directory that it matches by special characters. -/
theorem selected_is_excluded {base pattern : Bytes} (uniform : Uniform fs base pattern) :
    (∀ found, glob fs base pattern = .ok found → ∀ path ∈ found,
      matchesPattern path pattern ∨ MatchesAbove path pattern) ∧
    ∀ paths, includes fs base [pattern] [pattern] = .ok paths →
      (∀ path ∈ paths, MatchesAbove path pattern) ∧
      ((Selection.splitDepth? pattern).isSome ∨ Pattern.hasMeta pattern = false → paths = []) := by
  refine ⟨fun found ok path mem => matches_of_mem_glob named uniform ok mem, fun paths ok => ?_⟩
  have above : ∀ path ∈ paths, MatchesAbove path pattern := fun path mem =>
    matchesAbove_of_mem_includes named uniform ok mem
  refine ⟨above, fun settled => List.eq_nil_iff_forall_not_mem.mpr fun path mem => ?_⟩
  obtain ⟨unmarked, special, -⟩ := above path mem
  rcases settled with marked | plain
  · simp [unmarked] at marked
  · simp [special] at plain

end

def oneFolder : FileSystem :=
  ⟨[([utf8 "p"], .directory .zero), ([utf8 "p", utf8 "s"], .directory .zero),
    ([utf8 "p", utf8 "s", utf8 "a"], .file (utf8 "x = 1\n") .zero)], [], .zero⟩

theorem selected_is_excluded_sample :
    oneFolder.Named ∧ Uniform oneFolder (utf8 "p") (utf8 "s/**/a*") ∧
      glob oneFolder (utf8 "p") (utf8 "s/**/a*") = .ok [utf8 "s/a"] ∧
      includes oneFolder (utf8 "p") [utf8 "s/**/a*"] [utf8 "s/**/a*"] = .ok [] ∧
      (matchesPattern (utf8 "s/a") (utf8 "s/**/a*") ∨
        MatchesAbove (utf8 "s/a") (utf8 "s/**/a*")) := by
  have named : oneFolder.Named := by decide
  have marked : Selection.splitDepth? (utf8 "s/**/a*") = some (utf8 "s", utf8 "a*") := by
    decide
  have opens : oneFolder.endsAtFile (Path.join (utf8 "p") (utf8 "s")) = false := by cbv
  have uniform : Uniform oneFolder (utf8 "p") (utf8 "s/**/a*") := by
    simp only [Uniform, marked]
    exact ⟨.inr (by unfold Descends; decide), opens, .inl (by cbv)⟩
  have found : glob oneFolder (utf8 "p") (utf8 "s/**/a*") = .ok [utf8 "s/a"] := by cbv
  have taken : matchesPattern (utf8 "s/a") (utf8 "s/**/a*") = true := by cbv
  have left := includes_itself found
  rw [taken] at left
  exact ⟨named, uniform, found, left, (selected_is_excluded named uniform).1 _ found _ (by simp)⟩

/-- A pattern with a star selects the files of a directory that it matches, and takes none of them
out. -/
theorem selected_not_excluded :
    oneFolder.IsTree ∧ glob oneFolder (utf8 "p") (utf8 "s*") = .ok [utf8 "s/a"] ∧
      matchesPattern (utf8 "s/a") (utf8 "s*") = false ∧
      includes oneFolder (utf8 "p") [utf8 "s*"] [utf8 "s*"] = .ok [utf8 "s/a"] := by
  have found : glob oneFolder (utf8 "p") (utf8 "s*") = .ok [utf8 "s/a"] := by cbv
  have missed : matchesPattern (utf8 "s/a") (utf8 "s*") = false := by cbv
  have left := includes_itself found
  rw [missed] at left
  exact ⟨by decide, found, missed, left⟩

end Expand

end LuaCompact
