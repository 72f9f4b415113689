import LuaCompact.FileSystem.Basic
import LuaCompact.Proofs.BlankLines

namespace LuaCompact.Path

/-- An element that leads one directory down. -/
def IsStep (e : Bytes) : Prop := e ≠ [] ∧ e ≠ here ∧ e ≠ up ∧ Byte.slash ∉ e

instance (e : Bytes) : Decidable (IsStep e) := inferInstanceAs (Decidable (_ ∧ _ ∧ _ ∧ _))

/-- The elements that cleaning leaves of a path, first to last. -/
def route (path : Bytes) : List Bytes := ((elements path).foldl (push (isRooted path)) []).reverse

/-- The cleaned path with the given elements. -/
def text (rooted : Bool) (es : List Bytes) : Bytes :=
  if rooted then Byte.slash :: ofElements es else if es = [] then here else ofElements es

/-- Elements as cleaning leaves them: those that go up come before all others, and none goes up
from the root. -/
structure IsRoute (rooted : Bool) (es : List Bytes) : Prop where
  steps : ∀ e ∈ es, IsStep e ∨ (e = up ∧ rooted = false)
  upFirst : es.Pairwise fun a b => b = up → a = up

theorem IsRoute.ne_nil {rooted : Bool} {es : List Bytes} (h : IsRoute rooted es) {e : Bytes}
    (mem : e ∈ es) : e ≠ [] := by
  rcases h.steps e mem with step | ⟨rfl, _⟩
  · exact step.1
  · decide

theorem IsRoute.ne_here {rooted : Bool} {es : List Bytes} (h : IsRoute rooted es) {e : Bytes}
    (mem : e ∈ es) : e ≠ here := by
  rcases h.steps e mem with step | ⟨rfl, _⟩
  · exact step.2.1
  · decide

theorem IsRoute.slash_notMem {rooted : Bool} {es : List Bytes} (h : IsRoute rooted es) {e : Bytes}
    (mem : e ∈ es) : Byte.slash ∉ e := by
  rcases h.steps e mem with step | ⟨rfl, _⟩
  · exact step.2.2.2
  · decide

theorem IsRoute.nil (rooted : Bool) : IsRoute rooted [] := ⟨by simp, .nil⟩

theorem IsRoute.of_append {rooted : Bool} {es ns : List Bytes} (h : IsRoute rooted (es ++ ns)) :
    IsRoute rooted es where
  steps e mem := h.steps e (List.mem_append_left ns mem)
  upFirst := h.upFirst.sublist (List.sublist_append_left es ns)

theorem IsRoute.append {rooted : Bool} {es ns : List Bytes} (h : IsRoute rooted es)
    (steps : ∀ e ∈ ns, IsStep e) : IsRoute rooted (es ++ ns) where
  steps e mem := (List.mem_append.mp mem).elim (h.steps e) fun later => .inl (steps e later)
  upFirst := by
    have never (a : Bytes) {b : Bytes} (mem : b ∈ ns) (climbs : b = up) : a = up :=
      absurd climbs (steps b mem).2.2.1
    apply List.pairwise_append.mpr
    refine ⟨h.upFirst, ?_, fun a _ b mem => never a mem⟩
    exact List.pairwise_of_forall_mem_list fun a _ b mem => never a mem

theorem IsRoute.eq_up {rooted : Bool} {es : List Bytes} (h : IsRoute rooted (es ++ [up]))
    {e : Bytes}
    (mem : e ∈ es) : e = up :=
  (List.pairwise_append.mp h.upFirst).2.2 e mem up (List.mem_singleton_self up) rfl

theorem push_still (rooted : Bool) (stack : List Bytes) {e : Bytes} (h : e = [] ∨ e = here) :
    push rooted stack e = stack := by
  unfold push
  exact if_pos h

theorem push_up_nil (rooted : Bool) : push rooted [] up = if rooted then [] else [up] := by
  simp [push]

theorem push_up_cons (rooted : Bool) (top : Bytes) (stack : List Bytes) :
    push rooted (top :: stack) up = if top = up then up :: top :: stack else stack := by
  simp [push]

theorem push_of_isStep (rooted : Bool) (stack : List Bytes) {e : Bytes} (step : IsStep e) :
    push rooted stack e = e :: stack := by
  simp [push, step.1, step.2.1, step.2.2.1]

theorem slash_notMem_of_mem_elements {path e : Bytes} (mem : e ∈ elements path) :
    Byte.slash ∉ e :=
  notMem_of_mem_splitOn mem

theorem isRoute_push {rooted : Bool} {stack : List Bytes} (h : IsRoute rooted stack.reverse)
    {e : Bytes} (free : Byte.slash ∉ e) : IsRoute rooted (push rooted stack e).reverse := by
  by_cases still : e = [] ∨ e = here
  · rwa [push_still rooted stack still]
  · by_cases climbs : e = up
    · subst climbs
      cases stack with
      | nil =>
        rw [push_up_nil]
        cases rooted with
        | true => simpa using h
        | false => exact ⟨by simp, by simp⟩
      | cons top stack =>
        rw [push_up_cons]
        rw [List.reverse_cons] at h
        by_cases above : top = up
        · subst above
          -- Only elements that go up lie beneath one that does.
          have unrooted : rooted = false := by
            rcases h.steps up (by simp) with step | ⟨_, unrooted⟩
            · exact absurd rfl step.2.2.1
            · exact unrooted
          simp only [if_true, List.reverse_cons]
          refine ⟨?_, ?_⟩
          · intro e mem
            simp only [List.mem_append, List.mem_singleton, or_assoc, or_self] at mem
            exact h.steps e (by simpa using mem)
          · apply List.pairwise_append.mpr
            refine ⟨h.upFirst, by simp, ?_⟩
            intro a mem b _ _
            rcases List.mem_append.mp mem with mem | mem
            · exact h.eq_up mem
            · simpa using mem
        · simpa [above] using h.of_append
    · have step : IsStep e := by
        simp only [not_or] at still
        exact ⟨still.1, still.2, climbs, free⟩
      rw [push_of_isStep rooted stack step, List.reverse_cons]
      exact h.append (by simpa using step)

theorem isRoute_foldl_push {rooted : Bool} {stack es : List Bytes}
    (h : IsRoute rooted stack.reverse) (free : ∀ e ∈ es, Byte.slash ∉ e) :
    IsRoute rooted (es.foldl (push rooted) stack).reverse := by
  induction es generalizing stack with
  | nil => exact h
  | cons e es ih =>
    exact ih (isRoute_push h (free e List.mem_cons_self))
      fun e' mem => free e' (List.mem_cons_of_mem e mem)

theorem isRoute_route (path : Bytes) : IsRoute (isRooted path) (route path) :=
  isRoute_foldl_push (IsRoute.nil _) fun _ => slash_notMem_of_mem_elements

/-- Cleaning leaves clean elements as they are. -/
theorem foldl_push_of_isRoute {rooted : Bool} {es : List Bytes} (h : IsRoute rooted es) :
    es.foldl (push rooted) [] = es.reverse := by
  induction es using List.reverseRecOn with
  | nil => rfl
  | append_singleton es e ih =>
    rw [List.foldl_append, ih h.of_append, List.foldl_cons, List.foldl_nil, List.reverse_append]
    rcases h.steps e (by simp) with step | ⟨rfl, unrooted⟩
    · simp [push_of_isStep rooted _ step]
    · cases hs : es.reverse with
      | nil => simp [push, unrooted]
      | cons top stack =>
        have above : top = up := h.eq_up (List.mem_reverse.mp (hs ▸ List.mem_cons_self))
        simp [push, above]

theorem foldl_push_steps (rooted : Bool) (stack : List Bytes) {es : List Bytes}
    (steps : ∀ e ∈ es, IsStep e) : es.foldl (push rooted) stack = es.reverse ++ stack := by
  induction es generalizing stack with
  | nil => rfl
  | cons e es ih =>
    rw [List.foldl_cons, push_of_isStep rooted stack (steps e List.mem_cons_self),
      ih _ fun e' mem => steps e' (List.mem_cons_of_mem e mem)]
    simp

theorem ofElements_eq_nil_iff {es : List Bytes} (nonempty : ∀ e ∈ es, e ≠ []) :
    ofElements es = [] ↔ es = [] := by
  cases es with
  | nil => simp [ofElements]
  | cons e es =>
    rw [ofElements, intercalate_cons_eq]
    simp [nonempty e List.mem_cons_self]

theorem elements_ofElements {es : List Bytes} (nonempty : es ≠ [])
    (free : ∀ e ∈ es, Byte.slash ∉ e) : elements (ofElements es) = es :=
  List.splitOn_intercalate Byte.slash free nonempty

theorem ofElements_elements (path : Bytes) : ofElements (elements path) = path :=
  List.intercalate_splitOn Byte.slash

theorem elements_append (dir path : Bytes) :
    elements (dir ++ Byte.slash :: path) = elements dir ++ elements path :=
  List.splitOn_append_cons_self dir path

theorem clean_eq_text (path : Bytes) : clean path = text (isRooted path) (route path) := by
  have empty := ofElements_eq_nil_iff fun e => (isRoute_route path).ne_nil (e := e)
  have body : clean path = if isRooted path then Byte.slash :: ofElements (route path)
      else if ofElements (route path) = [] then here else ofElements (route path) := rfl
  rw [body, text, if_congr empty rfl rfl]

theorem isRooted_ofElements {es : List Bytes} (nonempty : ∀ e ∈ es, e ≠ [])
    (free : ∀ e ∈ es, Byte.slash ∉ e) : isRooted (ofElements es) = false := by
  cases es with
  | nil => rfl
  | cons e es =>
    obtain ⟨b, e', rfl⟩ := List.exists_cons_of_ne_nil (nonempty e List.mem_cons_self)
    have other : b ≠ Byte.slash := fun same => free _ List.mem_cons_self (by simp [same])
    rw [ofElements, intercalate_cons_eq]
    simpa [isRooted] using other

theorem isRooted_text {rooted : Bool} {es : List Bytes} (h : IsRoute rooted es) :
    isRooted (text rooted es) = rooted := by
  unfold text
  cases rooted
  · simp only [Bool.false_eq_true, if_false]
    split
    next => decide
    next => exact isRooted_ofElements (fun _ => h.ne_nil) fun _ => h.slash_notMem
  · rfl

theorem text_ne_nil {rooted : Bool} {es : List Bytes} (h : IsRoute rooted es) :
    text rooted es ≠ [] := by
  cases rooted
  · by_cases empty : es = []
    · simp [text, empty]
    · simpa [text, empty] using (ofElements_eq_nil_iff fun _ => h.ne_nil).not.mpr empty
  · simp [text]

theorem elements_text_nil (rooted : Bool) :
    elements (text rooted []) = if rooted then [[], []] else [here] := by
  cases rooted <;> decide

theorem elements_text {rooted : Bool} {es : List Bytes} (nonempty : es ≠ [])
    (free : ∀ e ∈ es, Byte.slash ∉ e) :
    elements (text rooted es) = if rooted then [] :: es else es := by
  cases rooted
  · rw [text, if_neg (by simp), if_neg nonempty, elements_ofElements nonempty free]
    rfl
  · have split := elements_append [] (ofElements es)
    rw [elements_ofElements nonempty free] at split
    simpa [text, elements] using split

/-- To what passes over elements that stay where they are, a cleaned path is its elements. -/
theorem elements_text_induction {motive : List Bytes → Prop}
    (still : ∀ {e es}, e = [] ∨ e = here → motive es → motive (e :: es))
    {rooted : Bool} {es : List Bytes} (h : IsRoute rooted es) (base : motive es) :
    motive (elements (text rooted es)) := by
  by_cases empty : es = []
  · subst empty
    rw [elements_text_nil]
    cases rooted
    · exact still (.inr rfl) base
    · exact still (.inl rfl) (still (.inl rfl) base)
  · rw [elements_text empty fun _ => h.slash_notMem]
    cases rooted
    · exact base
    · exact still (.inl rfl) base

theorem foldl_push_text {rooted : Bool} {es : List Bytes} (h : IsRoute rooted es) :
    (elements (text rooted es)).foldl (push rooted) [] = es.foldl (push rooted) [] := by
  refine elements_text_induction (motive := fun l => l.foldl (push rooted) [] = _) ?_ h rfl
  intro e l stays same
  rw [List.foldl_cons, push_still rooted [] stays, same]

theorem route_text {rooted : Bool} {es : List Bytes} (h : IsRoute rooted es) :
    route (text rooted es) = es := by
  rw [route, isRooted_text h, foldl_push_text h, foldl_push_of_isRoute h, List.reverse_reverse]

@[simp] theorem isRooted_clean (path : Bytes) : isRooted (clean path) = isRooted path := by
  rw [clean_eq_text, isRooted_text (isRoute_route path)]

@[simp] theorem route_clean (path : Bytes) : route (clean path) = route path := by
  rw [clean_eq_text, route_text (isRoute_route path)]

/-- Where one element leads to from a location, in a tree without links. -/
def step (loc : Location) (e : Bytes) : Location :=
  if e = [] ∨ e = here then loc else if e = up then loc.dropLast else loc ++ [e]

/-- Where elements lead to from a location, in a tree without links. -/
def follow (loc : Location) (es : List Bytes) : Location := es.foldl step loc

/-- The location that a path names by its text alone. -/
def locate (cwd : Location) (path : Bytes) : Location :=
  follow (if isRooted path then [] else cwd) (elements path)

theorem follow_append (loc : Location) (es fs : List Bytes) :
    follow loc (es ++ fs) = follow (follow loc es) fs := List.foldl_append

theorem follow_concat (loc : Location) (es : List Bytes) (e : Bytes) :
    follow loc (es ++ [e]) = step (follow loc es) e := follow_append loc es [e]

theorem step_up (loc : Location) : step loc up = loc.dropLast := by simp [step]

theorem step_of_isStep (loc : Location) {e : Bytes} (h : IsStep e) : step loc e = loc ++ [e] := by
  simp [step, h.1, h.2.1, h.2.2.1]

theorem follow_steps (loc : Location) {es : List Bytes} (steps : ∀ e ∈ es, IsStep e) :
    follow loc es = loc ++ es := by
  induction es generalizing loc with
  | nil => simp [follow]
  | cons e es ih =>
    have later := ih (loc ++ [e]) fun e' mem => steps e' (List.mem_cons_of_mem e mem)
    rw [follow, List.foldl_cons, step_of_isStep loc (steps e List.mem_cons_self), ← follow, later]
    simp

/-- Taking back an element of a path and going up from its location come to the same. -/
theorem follow_push {rooted : Bool} {loc : Location} (start : rooted = true → loc = [])
    {stack : List Bytes} (h : IsRoute rooted stack.reverse) (e : Bytes) :
    follow loc (push rooted stack e).reverse = step (follow loc stack.reverse) e := by
  by_cases still : e = [] ∨ e = here
  · rw [push_still rooted stack still, step, if_pos still]
  · by_cases climbs : e = up
    · subst climbs
      cases stack with
      | nil =>
        rw [push_up_nil]
        cases rooted with
        | true => simp [start rfl, follow, step]
        | false => simp [follow]
      | cons top stack =>
        rw [push_up_cons, List.reverse_cons, follow_concat]
        by_cases above : top = up
        · subst above
          rw [if_pos rfl, List.reverse_cons, List.reverse_cons, follow_concat, follow_concat]
        · have isStep : IsStep top := by
            rcases h.steps top (by simp) with isStep | ⟨climbs, _⟩
            · exact isStep
            · exact absurd climbs above
          rw [if_neg above, step_of_isStep _ isStep, step_up, List.dropLast_concat]
    · have further : push rooted stack e = e :: stack := by simp_all [push]
      rw [further, List.reverse_cons, follow_concat]

theorem follow_foldl_push {rooted : Bool} {loc : Location} (start : rooted = true → loc = [])
    {stack es : List Bytes} (h : IsRoute rooted stack.reverse) (free : ∀ e ∈ es, Byte.slash ∉ e) :
    follow loc (es.foldl (push rooted) stack).reverse = follow (follow loc stack.reverse) es := by
  induction es generalizing stack with
  | nil => rfl
  | cons e es ih =>
    rw [List.foldl_cons, ih (isRoute_push h (free e List.mem_cons_self))
      (fun e' mem => free e' (List.mem_cons_of_mem e mem)), follow_push start h]
    rfl

theorem locate_eq_follow_route (cwd : Location) (path : Bytes) :
    locate cwd path = follow (if isRooted path then [] else cwd) (route path) := by
  rw [route, follow_foldl_push (by simp +contextual) (IsRoute.nil _)
    fun _ => slash_notMem_of_mem_elements]
  rfl

@[simp] theorem locate_clean (cwd : Location) (path : Bytes) :
    locate cwd (clean path) = locate cwd path := by
  rw [locate_eq_follow_route, locate_eq_follow_route, isRooted_clean, route_clean]

theorem locate_text (cwd : Location) {rooted : Bool} {es : List Bytes} (h : IsRoute rooted es) :
    locate cwd (text rooted es) = follow (if rooted then [] else cwd) es := by
  rw [locate_eq_follow_route, isRooted_text h, route_text h]

theorem locate_text_append (cwd : Location) {rooted : Bool} {es ns : List Bytes}
    (h : IsRoute rooted es) (steps : ∀ e ∈ ns, IsStep e) :
    locate cwd (text rooted (es ++ ns)) = locate cwd (text rooted es) ++ ns := by
  rw [locate_text cwd (h.append steps), locate_text cwd h, follow_append, follow_steps _ steps]

/-- Elements that lead down lead down from wherever a path leads. -/
theorem locate_route_append (cwd : Location) (path : Bytes) {ns : List Bytes}
    (steps : ∀ e ∈ ns, IsStep e) :
    locate cwd (text (isRooted path) (route path ++ ns)) = locate cwd path ++ ns := by
  rw [locate_text_append cwd (isRoute_route path) steps, ← clean_eq_text, locate_clean]

theorem join_of_ne_nil {dir : Bytes} (h : dir ≠ []) (path : Bytes) :
    join dir path = clean (dir ++ Byte.slash :: path) := if_neg h

theorem isRooted_append {dir : Bytes} (h : dir ≠ []) (path : Bytes) :
    isRooted (dir ++ path) = isRooted dir := by
  obtain ⟨b, dir, rfl⟩ := List.exists_cons_of_ne_nil h
  rfl

theorem isRooted_join {dir : Bytes} (h : dir ≠ []) (path : Bytes) :
    isRooted (join dir path) = isRooted dir := by
  rw [join_of_ne_nil h, isRooted_clean, isRooted_append h]

theorem route_join {dir : Bytes} (h : dir ≠ []) (path : Bytes) :
    route (join dir path) =
      ((elements path).foldl (push (isRooted dir)) (route dir).reverse).reverse := by
  rw [join_of_ne_nil h, route_clean, route, isRooted_append h, elements_append, List.foldl_append,
    route, List.reverse_reverse]

theorem join_eq_text {dir : Bytes} (h : dir ≠ []) (path : Bytes) :
    join dir path = text (isRooted dir) (route (join dir path)) := by
  have cleaned := clean_eq_text (dir ++ Byte.slash :: path)
  rw [isRooted_append h] at cleaned
  rw [join_of_ne_nil h, route_clean]
  exact cleaned

theorem isRoute_join {dir : Bytes} (h : dir ≠ []) (path : Bytes) :
    IsRoute (isRooted dir) (route (join dir path)) :=
  isRooted_join h path ▸ isRoute_route (join dir path)

theorem locate_join {dir : Bytes} (h : dir ≠ []) (cwd : Location) (path : Bytes) :
    locate cwd (join dir path) = follow (locate cwd dir) (elements path) := by
  rw [join_of_ne_nil h, locate_clean, locate, isRooted_append h, elements_append, follow_append]
  rfl

/-- Every element of the path leads down. -/
def Descends (path : Bytes) : Prop := ∀ e ∈ elements path, IsStep e

theorem descends_ofElements {es : List Bytes} (nonempty : es ≠ []) (steps : ∀ e ∈ es, IsStep e) :
    Descends (ofElements es) := by
  rw [Descends, elements_ofElements nonempty fun e mem => (steps e mem).2.2.2]
  exact steps

theorem Descends.ne_nil {path : Bytes} (h : Descends path) : path ≠ [] := by
  rintro rfl
  exact absurd rfl (h [] (by decide)).1

theorem Descends.isRooted {path : Bytes} (h : Descends path) : isRooted path = false := by
  rw [← ofElements_elements path]
  exact isRooted_ofElements (fun e mem => (h e mem).1) fun e mem => (h e mem).2.2.2

theorem route_join_of_descends {dir path : Bytes} (h : dir ≠ []) (down : Descends path) :
    route (join dir path) = route dir ++ elements path := by
  rw [route_join h, foldl_push_steps _ _ down]
  simp

theorem elements_of_isStep {name : Bytes} (isStep : IsStep name) : elements name = [name] :=
  List.splitOn_eq_singleton isStep.2.2.2

theorem descends_of_isStep {name : Bytes} (isStep : IsStep name) : Descends name := by
  simpa [Descends, elements_of_isStep isStep] using isStep

/-- An entry of a directory, as a path. -/
theorem join_of_isStep {dir name : Bytes} (h : dir ≠ []) (isStep : IsStep name) :
    join dir name = text (isRooted dir) (route dir ++ [name]) := by
  rw [join_eq_text h, route_join_of_descends h (descends_of_isStep isStep),
    elements_of_isStep isStep]

/-- Below any directory, even the one without a name, a path that leads down ends where its elements
say. -/
theorem locate_join_of_descends (cwd : Location) (dir : Bytes) {path : Bytes}
    (down : Descends path) :
    locate cwd (join dir path) = locate cwd dir ++ elements path := by
  by_cases unnamed : dir = []
  · subst unnamed
    rw [join, if_pos rfl, if_neg down.ne_nil, locate_clean, locate, down.isRooted,
      follow_steps _ down]
    simp [locate, elements, follow, step, isRooted]
  · rw [locate_join unnamed, follow_steps _ down]

/-- Joined below a directory, the elements of a path that leads down come last. -/
theorem exists_join_eq_text (dir : Bytes) {path : Bytes} (down : Descends path) :
    ∃ rooted es, IsRoute rooted es ∧ join dir path = text rooted (es ++ elements path) ∧
      ∀ cwd, locate cwd dir = follow (if rooted then [] else cwd) es := by
  by_cases unnamed : dir = []
  · subst unnamed
    have isRoute : IsRoute false ([] ++ elements path) := (IsRoute.nil false).append down
    refine ⟨false, [], IsRoute.nil false, ?_, fun cwd => ?_⟩
    · have kept : route path = elements path := by
        rw [route, down.isRooted, foldl_push_steps _ _ down]
        simp
      rw [join, if_pos rfl, if_neg down.ne_nil, clean_eq_text, down.isRooted, kept]
      rfl
    · simp [locate, elements, follow, step, isRooted]
  · refine ⟨isRooted dir, route dir, isRoute_route dir, ?_,
      fun cwd => locate_eq_follow_route cwd dir⟩
    rw [join_eq_text unnamed, route_join_of_descends unnamed down]

theorem ne_slash_of_mem_reverse {name : Bytes} (free : Byte.slash ∉ name) :
    ∀ b ∈ name.reverse, (b != Byte.slash) = true := by
  intro b mem
  simpa using fun same : b = Byte.slash => free (same ▸ List.mem_reverse.mp mem)

theorem split_append (dir : Bytes) {name : Bytes} (free : Byte.slash ∉ name) :
    split (dir ++ Byte.slash :: name) = (dir ++ [Byte.slash], name) := by
  have run := ne_slash_of_mem_reverse free
  have file : ((dir ++ Byte.slash :: name).reverse.takeWhile (· != Byte.slash)).reverse = name := by
    rw [List.reverse_append, List.reverse_cons, List.append_assoc, List.takeWhile_append_of_pos run]
    simp
  have whole : dir ++ Byte.slash :: name = (dir ++ [Byte.slash]) ++ name := by simp
  simp only [split, file]
  rw [whole, List.length_append, Nat.add_sub_cancel, List.take_left]

theorem split_of_notMem {path : Bytes} (free : Byte.slash ∉ path) : split path = ([], path) := by
  have run : path.reverse.takeWhile (· != Byte.slash) = path.reverse := by
    rw [← List.append_nil path.reverse,
      List.takeWhile_append_of_pos (ne_slash_of_mem_reverse free)]
    simp
  simp [split, run]

theorem ofElements_concat {es : List Bytes} (nonempty : es ≠ []) (e : Bytes) :
    ofElements (es ++ [e]) = ofElements es ++ Byte.slash :: e := by
  obtain ⟨first, es, rfl⟩ := List.exists_cons_of_ne_nil nonempty
  rw [ofElements, ofElements, List.cons_append, intercalate_cons_eq, intercalate_cons_eq]
  simp

/-- What stands before the slash of the last element of a cleaned path. -/
theorem text_concat {rooted : Bool} {es : List Bytes} (slashed : es ≠ [] ∨ rooted = true)
    (e : Bytes) :
    text rooted (es ++ [e]) = (if es = [] then [] else text rooted es) ++ Byte.slash :: e := by
  by_cases empty : es = []
  · have root : rooted = true := slashed.resolve_left fun some => some empty
    simp [empty, root, text, ofElements]
  · cases rooted <;> simp [empty, text, ofElements_concat empty]

theorem text_singleton (e : Bytes) : text false ([] ++ [e]) = e := by simp [text, ofElements]

theorem split_text {rooted : Bool} {es : List Bytes} {e : Bytes} (free : Byte.slash ∉ e) :
    (split (text rooted (es ++ [e]))).2 = e := by
  by_cases slashed : es ≠ [] ∨ rooted = true
  · rw [text_concat slashed, split_append _ free]
  · simp only [not_or, Decidable.not_not, Bool.not_eq_true] at slashed
    rw [slashed.1, slashed.2, text_singleton, split_of_notMem free]

/-- The directory of a cleaned path is the path without its last element. -/
theorem dir_text {rooted : Bool} {es : List Bytes} {e : Bytes} (h : IsRoute rooted (es ++ [e])) :
    dir (text rooted (es ++ [e])) = text rooted es := by
  have free : Byte.slash ∉ e := h.slash_notMem (by simp)
  by_cases slashed : es ≠ [] ∨ rooted = true
  · rw [text_concat slashed, dir, split_append _ free]
    by_cases empty : es = []
    · have root : rooted = true := slashed.resolve_left fun some => some empty
      subst empty root
      have top : clean [Byte.slash] = text true [] := by decide
      simpa using top
    · have nonempty := text_ne_nil h.of_append
      have same : clean (text rooted es ++ [Byte.slash]) = join (text rooted es) [] :=
        (join_of_ne_nil nonempty []).symm
      rw [if_neg empty, same, join_eq_text nonempty, route_join nonempty, isRooted_text h.of_append,
        route_text h.of_append]
      simp [elements, push]
  · simp only [not_or, Decidable.not_not, Bool.not_eq_true] at slashed
    have top : clean [] = text false [] := by decide
    rw [slashed.1, slashed.2, text_singleton, dir, split_of_notMem free, top]

theorem text_eq_here_iff {rooted : Bool} {es : List Bytes} (h : IsRoute rooted es) :
    text rooted es = here ↔ rooted = false ∧ es = [] := by
  cases rooted
  · by_cases empty : es = []
    · simp [text, empty]
    · simp only [text, empty, Bool.false_eq_true, if_false, and_false, iff_false]
      intro same
      have single : es = [here] := by
        rw [← elements_ofElements empty fun _ => h.slash_notMem, same]
        decide
      exact h.ne_here (by simp [single]) rfl
  · have other : Byte.slash ≠ 46 := by decide
    simp [text, other]

theorem steps_text {rooted : Bool} {es : List Bytes} (h : IsRoute rooted es)
    (named : es ≠ [] ∨ rooted = true) : steps (text rooted es) = es := by
  have body : (if isRooted (text rooted es) then (text rooted es).tail else text rooted es) =
      ofElements es := by
    rw [isRooted_text h]
    cases rooted
    · simp [text, named.resolve_right (by simp)]
    · simp [text]
  have empty := ofElements_eq_nil_iff fun e => h.ne_nil (e := e)
  simp only [steps, body, empty]
  split
  next none => exact none.symm
  next some => exact elements_ofElements some fun _ => h.slash_notMem

theorem dropShared_append (es ns : List Bytes) : dropShared es (es ++ ns) = ([], ns) := by
  induction es with
  | nil => cases ns <;> rfl
  | cons e es ih => simp [dropShared, ih]

/-- From a directory to what lies beneath it lead the elements that the longer path has more. -/
theorem relative?_of_route {origin target : Bytes} (root : isRooted origin = isRooted target)
    {ns : List Bytes} (nonempty : ns ≠ []) (beneath : route target = route origin ++ ns) :
    relative? origin target = some (ofElements ns) := by
  have source := isRoute_route origin
  have goal := isRoute_route target
  have named : route target ≠ [] ∨ isRooted target = true := by simp [beneath, nonempty]
  have apart : clean origin ≠ clean target := by
    intro same
    have := congrArg route same
    simp [beneath, nonempty] at this
  have left : (if clean origin = here then [] else steps (clean origin)) = route origin := by
    rw [clean_eq_text]
    split
    next unnamed => exact ((text_eq_here_iff source).mp unnamed).2.symm
    next other =>
      apply steps_text source
      by_contra none
      simp only [not_or, Decidable.not_not, Bool.not_eq_true] at none
      exact other ((text_eq_here_iff source).mpr ⟨none.2, none.1⟩)
  have right : steps (clean target) = route origin ++ ns := by
    rw [clean_eq_text, steps_text goal named, beneath]
  simp [relative?, apart, root, left, right, dropShared_append]

end LuaCompact.Path
