import LuaCompact.Proofs.Alike
import LuaCompact.Proofs.PatternAgreement

namespace LuaCompact

namespace Path

/-- What stands before the names in the path that they lead to from a directory. -/
def lead (dir : Bytes) : Bytes :=
  if clean dir = here then [] else if route dir = [] then [Byte.slash] else clean dir ++ [Byte.slash]

theorem under_eq_lead_append (dir : Bytes) {ns : List Bytes} (nonempty : ns ≠ []) :
    under dir ns = lead dir ++ ofElements ns := by
  have bare := text_eq_here_iff (isRoute_route dir)
  rw [← clean_eq_text] at bare
  unfold lead
  split
  next unnamed =>
    obtain ⟨unrooted, none⟩ := bare.mp unnamed
    simp [under, unrooted, none, text, nonempty]
  next named =>
    split
    next none =>
      have root : isRooted dir = true := by
        by_contra unrooted
        exact named (bare.mpr ⟨by simpa using unrooted, none⟩)
      simp [under, root, none, text]
    next deep =>
      rw [clean_eq_text]
      cases rooted : isRooted dir <;>
        simp [under, rooted, text, deep, nonempty, ofElements_append deep nonempty]

theorem lead_eq_nil_iff {dir : Bytes} : lead dir = [] ↔ clean dir = here := by
  unfold lead
  split
  next unnamed => simp [unnamed]
  next named => split <;> simp [named]

theorem subset_lead (dir : Bytes) : lead dir ⊆ Byte.slash :: clean dir := by
  unfold lead
  split
  next => simp
  next =>
    split
    next => simp
    next => simp

theorem relative?_under (dir : Bytes) {ns : List Bytes} (steps : ∀ e ∈ ns, IsStep e) :
    relative? dir (under dir ns) = some (if ns = [] then here else ofElements ns) := by
  split
  next none =>
    have same : clean dir = clean (under dir ns) := by
      rw [clean_eq_under (under dir ns), under_under dir steps, none, clean_eq_under]
      rfl
    rw [relative?, if_pos same]
  next below => exact relative?_text dir below steps

/-- The elements of a path that lead somewhere. -/
def inner (path : Bytes) : List Bytes := (elements path).filter fun e => e ≠ [] ∧ e ≠ here

theorem isStep_of_mem_inner {path : Bytes} (within : up ∉ elements path) {e : Bytes}
    (mem : e ∈ inner path) : IsStep e := by
  obtain ⟨inside, proper⟩ := List.mem_filter.mp mem
  simp only [Bool.decide_and, Bool.and_eq_true, decide_eq_true_eq] at proper
  exact ⟨proper.1, proper.2, fun climbs => within (climbs ▸ inside),
    slash_notMem_of_mem_elements inside⟩

theorem foldl_push_of_within (rooted : Bool) (stack : List Bytes) {es : List Bytes}
    (within : up ∉ es) : es.foldl (push rooted) stack =
      (es.filter fun e => e ≠ [] ∧ e ≠ here).reverse ++ stack := by
  induction es generalizing stack with
  | nil => rfl
  | cons e es ih =>
    rw [List.mem_cons, not_or] at within
    rw [List.foldl_cons, ih _ within.2]
    by_cases still : e = [] ∨ e = here
    · rw [push_still rooted stack still, List.filter_cons_of_neg]
      rcases still with rfl | rfl <;> simp
    · rw [not_or] at still
      have down : push rooted stack e = e :: stack := by simp [push, still, Ne.symm within.1]
      rw [down, List.filter_cons_of_pos (by simpa using still)]
      simp

/-- A path that never goes up leads to the names in it. -/
theorem join_eq_under_inner {dir path : Bytes} (named : dir ≠ []) (within : up ∉ elements path) :
    join dir path = under dir (inner path) := by
  rw [join_eq_text named, route_join named, foldl_push_of_within _ _ within]
  simp [under, inner]

end Path

namespace Pattern

open LuaCompact.Path (IsStep under lead)

theorem fault_notMem_of_plain {s : Bytes} (plain : hasMeta s = false) :
    PatternPart.fault ∉ parts s := by
  simp [parts_of_plain plain]

theorem ofParts_items_append (s : Bytes) (ps : List PatternPart) :
    (ofParts ((s.map fun b => PatternPart.item (.byte b)) ++ ps)).head =
      (ofParts ps).head.map (s.map PatternItem.byte ++ ·) := by
  induction s with
  | nil => simp
  | cons b s ih =>
    rw [List.map_cons, List.cons_append, ofParts, ih]
    simp [Function.comp_def]

/-- Where a pattern begins with what stands for itself, the empty name leads to a fault only in the
run at the start. -/
theorem isNone_accepts?_append {s : Bytes} (plain : hasMeta s = false) (nonempty : s ≠ [])
    (rest : Bytes) :
    ((parse (s ++ rest)).accepts? []).isNone = (parse rest).head.isNone := by
  have first : (parse (s ++ rest)).head = (parse rest).head.map (s.map PatternItem.byte ++ ·) := by
    rw [parse, parts_append (fault_notMem_of_plain plain), parts_of_plain plain,
      ofParts_items_append, parse]
  rw [accepts?, first]
  obtain ⟨b, s, rfl⟩ := List.exists_cons_of_ne_nil nonempty
  cases (parse rest).head with
  | none => rfl
  | some run => simp [matchRun, matchItem]

theorem fault_notMem_parts_ofElements {es : List Bytes}
    (sound : ∀ e ∈ es, PatternPart.fault ∉ parts e) :
    PatternPart.fault ∉ parts (Path.ofElements es) := by
  induction es with
  | nil => simp [Path.ofElements, parts]
  | cons e es ih =>
    obtain ⟨first, later⟩ := List.forall_mem_cons.mp sound
    have single : Path.ofElements [e] = e := by simp [Path.ofElements]
    by_cases last : es = []
    · rwa [last, single]
    · have whole := Path.ofElements_append (List.cons_ne_nil e []) last
      rw [List.singleton_append, single] at whole
      rw [whole, parts_append first, parts_slash, List.mem_append, List.mem_cons, not_or, not_or]
      exact ⟨first, by simp, ih later⟩

theorem hasMeta_append (s t : Bytes) : hasMeta (s ++ t) = (hasMeta s || hasMeta t) := by
  rw [Bool.eq_iff_iff, ← not_iff_not]
  simp only [Bool.not_eq_true, Bool.or_eq_false_iff, hasMeta_eq_false_iff, List.forall_mem_append]

theorem hasMeta_lead {dir : Bytes} (plain : hasMeta (Path.clean dir) = false) :
    hasMeta (lead dir) = false := by
  refine hasMeta_of_subset (Path.subset_lead dir) ?_
  rw [hasMeta_cons_eq_false_iff]
  exact ⟨by decide, by decide, by decide, by decide, plain⟩

theorem hasMeta_under {dir : Bytes} (plain : hasMeta (Path.clean dir) = false)
    {es : List Bytes} (nonempty : es ≠ []) :
    hasMeta (under dir es) = hasMeta (Path.ofElements es) := by
  rw [Path.under_eq_lead_append dir nonempty, hasMeta_append, hasMeta_lead plain, Bool.false_or]

end Pattern

namespace Expand

open LuaCompact.Path (IsStep under lead)
open FileSystem (Alike)

/-- Two base directories before which the elements of a pattern read the same: their names stand for
themselves, and the pattern begins with them both or with neither, unless all of it can be read. -/
structure SameReading (base base' : Bytes) (es : List Bytes) : Prop where
  plain : Pattern.hasMeta (Path.clean base) = false
  plain' : Pattern.hasMeta (Path.clean base') = false
  starts : (Path.clean base = Path.here ↔ Path.clean base' = Path.here) ∨
    ∀ e ∈ es, PatternPart.fault ∉ Pattern.parts e

namespace SameReading

variable {base base' : Bytes} {es : List Bytes}

theorem of_append {e : Bytes} (same : SameReading base base' (es ++ [e])) :
    SameReading base base' es where
  plain := same.plain
  plain' := same.plain'
  starts := same.starts.imp_right fun sound e' mem => sound e' (List.mem_append_left [e] mem)

theorem hasMeta_under (same : SameReading base base' es) :
    Pattern.hasMeta (under base es) = Pattern.hasMeta (under base' es) := by
  by_cases none : es = []
  · rw [none, ← Path.clean_eq_under, ← Path.clean_eq_under, same.plain, same.plain']
  · rw [Pattern.hasMeta_under same.plain none, Pattern.hasMeta_under same.plain' none]

theorem isNone_accepts?_under (same : SameReading base base' es) (nonempty : es ≠ []) :
    ((Pattern.parse (under base es)).accepts? []).isNone =
      ((Pattern.parse (under base' es)).accepts? []).isNone := by
  rw [Path.under_eq_lead_append base nonempty, Path.under_eq_lead_append base' nonempty]
  have known (dir : Bytes) (plain : Pattern.hasMeta (Path.clean dir) = false)
      (sound : ∀ e ∈ es, PatternPart.fault ∉ Pattern.parts e) :
      ((Pattern.parse (lead dir ++ Path.ofElements es)).accepts? []).isNone = false := by
    have read : PatternPart.fault ∉ Pattern.parts (lead dir ++ Path.ofElements es) := by
      have first := Pattern.fault_notMem_of_plain (Pattern.hasMeta_lead plain)
      rw [Pattern.parts_append first, List.mem_append, not_or]
      exact ⟨first, Pattern.fault_notMem_parts_ofElements sound⟩
    rw [← Option.not_isSome, Pattern.isSome_accepts? read]
    rfl
  rcases same.starts with unnamed | sound
  · rw [← Path.lead_eq_nil_iff, ← Path.lead_eq_nil_iff] at unnamed
    by_cases bare : lead base = []
    · rw [bare, unnamed.mp bare]
    · rw [Pattern.isNone_accepts?_append (Pattern.hasMeta_lead same.plain) bare,
        Pattern.isNone_accepts?_append (Pattern.hasMeta_lead same.plain')
          fun none => bare (unnamed.mpr none)]
  · rw [known base same.plain sound, known base' same.plain' sound]

end SameReading

theorem paths_of_plain (fs : FileSystem) {pattern : Bytes}
    (plain : Pattern.hasMeta pattern = false) :
    paths fs pattern = .ok (if (fs.kind? .itself pattern).isSome then [pattern] else []) := by
  have read := Pattern.isSome_accepts? (Pattern.fault_notMem_of_plain plain) []
  rw [paths, if_neg (by rw [← Option.not_isSome, read]; simp), if_pos (by simp [plain]),
    FileSystem.kind?]
  cases fs.lookup .itself pattern <;> rfl

theorem paths_under (fs : FileSystem) (base : Bytes) {es : List Bytes} {e : Bytes}
    (steps : ∀ e' ∈ es ++ [e], IsStep e') (wild : Pattern.hasMeta (under base (es ++ [e])) = true) :
    paths fs (under base (es ++ [e])) =
      if ((Pattern.parse (under base (es ++ [e]))).accepts? []).isNone then .error ⟨⟩
      else if Pattern.hasMeta (under base es) then do
        let dirs ← paths fs (under base es)
        let found ← dirs.mapM fun dir => inDirectory fs dir e
        return found.flatten
      else inDirectory fs (under base es) e := by
  have isRoute := Path.isRoute_under base steps
  unfold under at wild ⊢
  rw [← List.append_assoc] at isRoute wild ⊢
  exact paths_text fs isRoute wild

/-- Seen from their directories twins are called the same. -/
theorem relative?_twins {dir dir' q q' : Bytes} (twins : Twins dir dir' q q') :
    Path.relative? dir q = Path.relative? dir' q' := by
  obtain ⟨ns, steps, rfl, rfl⟩ := twins
  rw [Path.relative?_under dir steps, Path.relative?_under dir' steps]

theorem base_twins {dir dir' q q' : Bytes} (twins : ProperTwins dir dir' q q') :
    Path.base q = Path.base q' := by
  obtain ⟨ns, nonempty, steps, rfl, rfl⟩ := twins
  obtain ⟨front, name, rfl⟩ := (List.eq_nil_or_concat' ns).resolve_left nonempty
  have isStep : IsStep name := steps name (by simp)
  rw [Path.base_under dir front isStep, Path.base_under dir' front isStep]

theorem filterMap_eq_of_forall₂ {α β γ : Type} {f : α → Option γ} {g : β → Option γ} {xs : List α}
    {ys : List β} (same : List.Forall₂ (fun x y => f x = g y) xs ys) :
    xs.filterMap f = ys.filterMap g := by
  induction same with
  | nil => rfl
  | cons head _ ih => rw [List.filterMap_cons, List.filterMap_cons, head, ih]

section

variable {fs fs' : FileSystem} (tree : fs.IsTree) (tree' : fs'.IsTree)

include tree tree'

theorem inDirectory_alike {dir dir' : Bytes} (alike : Alike fs fs' dir dir')
    (kinds : fs.kind? .target dir = fs'.kind? .target dir') (e : Bytes) :
    Agree (List.Forall₂ (ProperTwins dir dir')) (inDirectory fs dir e) (inDirectory fs' dir' e) := by
  have names := alike.names_eq tree tree' kinds
  have listed (fs : FileSystem) (dir : Bytes) : inDirectory fs dir e =
      if (fs.names dir).any fun name => ((Pattern.parse e).accepts? name).isNone then .error ⟨⟩
      else .ok (((fs.names dir).filter fun name => (Pattern.parse e).accepts? name = some true).map
        (Path.join dir)) := rfl
  rw [listed, listed, ← names]
  split
  next => exact .error _
  next =>
    refine .ok (List.forall₂_map_left_iff.mpr (List.forall₂_map_right_iff.mpr
      (List.forall₂_same.mpr fun name mem => ?_)))
    have mem : name ∈ fs.names dir := (List.mem_filter.mp mem).1
    have isStep := tree.isStep_of_mem_names mem
    exact ⟨[name], by simp, by simpa using isStep,
      Path.join_eq_under (FileSystem.ne_nil_of_mem_names mem) isStep,
      Path.join_eq_under (FileSystem.ne_nil_of_mem_names (names ▸ mem)) isStep⟩

/-- The paths that a pattern stands for below one base directory and below another are twins. -/
theorem paths_alike {base base' : Bytes} (alike : Alike fs fs' base base') {es : List Bytes}
    (steps : ∀ e ∈ es, IsStep e) (same : SameReading base base' es) :
    Agree (List.Forall₂ (Twins base base')) (paths fs (under base es))
      (paths fs' (under base' es)) := by
  have literal {es : List Bytes} (steps : ∀ e ∈ es, IsStep e) (same : SameReading base base' es)
      (plain : Pattern.hasMeta (under base es) = false) :
      Agree (List.Forall₂ (Twins base base')) (paths fs (under base es))
        (paths fs' (under base' es)) := by
    rw [paths_of_plain fs plain, paths_of_plain fs' (same.hasMeta_under ▸ plain),
      alike.kind?_under tree tree' steps]
    split
    next => exact .ok (.cons ⟨es, steps, rfl, rfl⟩ .nil)
    next => exact .ok .nil
  induction es using List.reverseRecOn with
  | nil => exact literal steps same (Path.clean_eq_under base ▸ same.plain)
  | append_singleton es e ih =>
    have above : ∀ e' ∈ es, IsStep e' := fun e' mem => steps e' (List.mem_append_left [e] mem)
    have entries {ms : List Bytes} (steps : ∀ e ∈ ms, IsStep e) :
        Agree (List.Forall₂ (ProperTwins base base')) (inDirectory fs (under base ms) e)
          (inDirectory fs' (under base' ms) e) :=
      (inDirectory_alike tree tree' (alike.under steps)
        (alike.kind?_under tree tree' steps .target) e).imp fun _ _ twins =>
          twins.imp fun _ _ twins => twins.under steps
    by_cases wild : Pattern.hasMeta (under base (es ++ [e])) = true
    · rw [paths_under fs base steps wild,
        paths_under fs' base' steps (same.hasMeta_under ▸ wild), same.isNone_accepts?_under (by simp),
        same.of_append.hasMeta_under]
      split
      next => exact .error _
      next =>
        split
        next =>
          refine (ih above same.of_append).bind fun dirs dirs' twins => ?_
          refine (Agree.mapM twins fun q q' ⟨ms, steps, here_, here_'⟩ => ?_).bind
            fun found found' lists => .ok (List.rel_flatten lists)
          rw [here_, here_']
          exact (entries steps).imp fun _ _ twins => twins.imp fun _ _ twin => twin.twins
        next => exact (entries above).imp fun _ _ twins => twins.imp fun _ _ twin => twin.twins
    · exact literal steps same (by simpa using wild)

/-- What a search lists from twins is matched alike and has the same names. -/
theorem search_alike {base base' start start' : Bytes} (alike : Alike fs fs' start start')
    (kinds : fs.kind? .target start = fs'.kind? .target start')
    (below : ∀ q q', ProperTwins start start' q q' → Twins base base' q q')
    (own : fs.kind? .target start = some false → ProperTwins base base' start start')
    (after : Bytes) :
    ((files fs start).filter fun path =>
      after = [] || Selection.matchesAfter start path after).filterMap (Path.relative? base) =
    ((files fs' start').filter fun path =>
      after = [] || Selection.matchesAfter start' path after).filterMap (Path.relative? base') := by
  rw [List.filterMap_filter, List.filterMap_filter]
  refine filterMap_eq_of_forall₂ ((files_alike tree tree' alike kinds).imp fun q q' listed => ?_)
  obtain ⟨name, way, whole⟩ : Path.base q = Path.base q' ∧
      Path.relative? start q = Path.relative? start' q' ∧
      Path.relative? base q = Path.relative? base' q' := by
    rcases listed with twins | ⟨file, rfl, rfl⟩
    · exact ⟨base_twins twins, relative?_twins twins.twins, relative?_twins (below q q' twins)⟩
    · exact ⟨base_twins (own file), by simp [Path.relative?], relative?_twins (own file).twins⟩
  have fits : Selection.matchesAfter start q after = Selection.matchesAfter start' q' after := by
    rw [Selection.matchesAfter, Selection.matchesAfter, name, way]
  rw [fits, whole]

end

/-- A pattern that does not lead up from a base directory, and reads the same below another. -/
def Inside (base base' pattern : Bytes) : Prop :=
  match Selection.splitDepth? pattern with
  | some (before, _) => Path.up ∉ Path.elements before
  | none => Path.up ∉ Path.elements pattern ∧ SameReading base base' (Path.inner pattern)

/-- What a pattern selects does not depend on how the base directory is called, nor on what lies
beside it, if the pattern leads into it and its name stands for itself. -/
theorem glob_alike {fs fs' : FileSystem} (tree : fs.IsTree) (tree' : fs'.IsTree)
    {base base' : Bytes} {time time' : Time}
    (opened : fs.lookup .target base = .ok (.directory time))
    (opened' : fs'.lookup .target base' = .ok (.directory time'))
    (alike : Alike fs fs' base base') {pattern : Bytes} (inside : Inside base base' pattern) :
    glob fs base pattern = glob fs' base' pattern := by
  have named {fs : FileSystem} {base : Bytes} {time : Time}
      (opened : fs.lookup .target base = .ok (.directory time)) : base ≠ [] := by
    rintro rfl
    simp [FileSystem.lookup, FileSystem.resolve] at opened
  have dir := FileSystem.kind?_eq_some_true_iff.mpr ⟨time, opened⟩
  have kinds : fs.kind? .target base = fs'.kind? .target base' :=
    dir.trans (FileSystem.kind?_eq_some_true_iff.mpr ⟨time', opened'⟩).symm
  unfold Inside at inside
  unfold glob
  cases marked : Selection.splitDepth? pattern with
  | some parts =>
    obtain ⟨before, after⟩ := parts
    simp only [marked] at inside
    refine congrArg Except.ok ?_
    by_cases bare : before = []
    · simp only [if_pos bare]
      refine search_alike tree tree' alike kinds (fun _ _ twins => twins.twins) (fun file => ?_) after
      simp [dir] at file
    · have steps : ∀ e ∈ Path.inner before, IsStep e := fun e => Path.isStep_of_mem_inner inside
      simp only [if_neg bare, Path.join_eq_under_inner (named opened) inside,
        Path.join_eq_under_inner (named opened') inside]
      refine search_alike tree tree' (alike.under steps)
        (alike.kind?_under tree tree' steps .target) (fun _ _ twins => (twins.under steps).twins)
        (fun file => ⟨_, ?_, steps, rfl, rfl⟩) after
      -- The base directory itself is no file.
      intro none
      rw [tree.kind?_under_eq_some_iff base steps, none, List.append_nil,
        (tree.lookup_eq_ok opened).2] at file
      simp [Node.isDirectory] at file
  | none =>
    simp only [marked] at inside
    obtain ⟨within, same⟩ := inside
    have steps : ∀ e ∈ Path.inner pattern, IsStep e := fun e => Path.isStep_of_mem_inner within
    simp only [Path.join_eq_under_inner (named opened) within,
      Path.join_eq_under_inner (named opened') within]
    refine ((paths_alike tree tree' alike steps same).bind fun found found' twins => ?_).eq
    refine .ok (filterMap_eq_of_forall₂ (List.rel_flatMap twins ?_))
    rintro q q' ⟨ms, steps, rfl, rfl⟩
    refine (files_alike tree tree' (alike.under steps)
      (alike.kind?_under tree tree' steps .target)).imp fun r r' listed => relative?_twins ?_
    rcases listed with twins | ⟨-, rfl, rfl⟩
    · exact (twins.under steps).twins
    · exact ⟨ms, steps, rfl, rfl⟩

/-- A directory of its own, and one of several. -/
def oneDirectory : FileSystem :=
  ⟨[([utf8 "s"], .directory .zero), ([utf8 "s", utf8 "x.lua"], .file (utf8 "x = 1\n") .zero)],
    [utf8 "s"], .zero⟩

def threeDirectories : FileSystem :=
  ⟨[([utf8 "a?"], .directory .zero), ([utf8 "a?", utf8 "x.lua"], .file [] .zero),
    ([utf8 "ab"], .directory .zero), ([utf8 "ab", utf8 "y.lua"], .file [] .zero),
    ([utf8 "c"], .directory .zero), ([utf8 "c", utf8 "x.lua"], .file [] .zero)], [], .zero⟩

theorem glob_alike_sample :
    oneDirectory.IsTree ∧ threeDirectories.IsTree ∧
      Alike oneDirectory threeDirectories (utf8 ".") (utf8 "c/") ∧
      Inside (utf8 ".") (utf8 "c/") (utf8 "./*.lua") ∧
      glob oneDirectory (utf8 ".") (utf8 "./*.lua") =
        glob threeDirectories (utf8 "c/") (utf8 "./*.lua") ∧
      glob threeDirectories (utf8 "c/") (utf8 "./*.lua") = .ok [utf8 "x.lua"] := by
  have tree : oneDirectory.IsTree := by decide
  have tree' : threeDirectories.IsTree := by decide
  have alike : Alike oneDirectory threeDirectories (utf8 ".") (utf8 "c/") := by decide
  have inside : Inside (utf8 ".") (utf8 "c/") (utf8 "./*.lua") := by
    have unmarked : Selection.splitDepth? (utf8 "./*.lua") = none := by decide
    simp only [Inside, unmarked]
    refine ⟨by decide, ⟨by decide, by decide, .inr ?_⟩⟩
    decide_cbv
  have opened : oneDirectory.lookup .target (utf8 ".") = .ok (.directory .zero) := by cbv
  have opened' : threeDirectories.lookup .target (utf8 "c/") = .ok (.directory .zero) := by cbv
  exact ⟨tree, tree', alike, inside, glob_alike tree tree' opened opened' alike inside, by cbv⟩

/-- A base directory whose name is a pattern is left for another one that it matches. -/
theorem glob_leaves_base :
    threeDirectories.IsTree ∧ Alike threeDirectories threeDirectories (utf8 "a?") (utf8 "c") ∧
      Path.up ∉ Path.elements (utf8 "*.lua") ∧
      glob threeDirectories (utf8 "a?") (utf8 "*.lua") =
        .ok [utf8 "x.lua", utf8 "../ab/y.lua"] ∧
      glob threeDirectories (utf8 "c") (utf8 "*.lua") = .ok [utf8 "x.lua"] := by
  exact ⟨by decide, by decide, by decide, by cbv, by cbv⟩

end Expand

end LuaCompact
