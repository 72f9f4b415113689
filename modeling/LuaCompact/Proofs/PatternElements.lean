import LuaCompact.Proofs.PatternParts

namespace LuaCompact.Pattern

/-- The runs of a pattern, the one at the start first. -/
def runs (p : Pattern) : List PatternRun := p.head :: p.starred

/-- The runs of two patterns with a slash between them. -/
def joinRuns : List PatternRun → List PatternRun → List PatternRun
  | [run], first :: later =>
    (run.bind fun is => first.map fun js => is ++ .byte Byte.slash :: js) :: later
  | run :: rs, qs => run :: joinRuns rs qs
  | [], qs => qs

theorem runs_ofParts_append {ps : List PatternPart} (sound : PatternPart.fault ∉ ps)
    (qs : List PatternPart) :
    runs (ofParts (ps ++ .item (.byte Byte.slash) :: qs)) =
      joinRuns (runs (ofParts ps)) (runs (ofParts qs)) := by
  induction ps with
  | nil => simp [runs, ofParts, joinRuns]
  | cons part ps ih =>
    rw [List.mem_cons, not_or] at sound
    have later := ih sound.2
    cases part with
    | fault => exact absurd rfl sound.1
    | star => exact congrArg (some [] :: ·) later
    | item i =>
      rw [List.cons_append, ofParts, ofParts, runs, runs]
      rw [runs, runs] at later
      cases starred : (ofParts ps).starred with
      | nil =>
        rw [starred] at later
        obtain ⟨head, tail⟩ := List.cons.inj later
        rw [head, tail]
        cases (ofParts ps).head with
        | none => rfl
        | some is => simp [runs, joinRuns, Function.comp_def]
      | cons run rs =>
        rw [starred] at later
        obtain ⟨head, tail⟩ := List.cons.inj later
        rw [head, tail]
        rfl

theorem item_mem_of_mem_runs {ps : List PatternPart} {is : List PatternItem}
    (mem : some is ∈ runs (ofParts ps)) {i : PatternItem} (inside : i ∈ is) :
    PatternPart.item i ∈ ps := by
  induction ps generalizing is with
  | nil =>
    cases List.mem_singleton.mp mem
    contradiction
  | cons part ps ih =>
    cases part with
    | fault =>
      cases List.mem_singleton.mp mem
    | star =>
      rcases List.mem_cons.mp mem with first | later
      · cases first
        contradiction
      · exact List.mem_cons_of_mem _ (ih later inside)
    | item j =>
      rcases List.mem_cons.mp mem with first | later
      · obtain ⟨js, head, rfl⟩ := Option.map_eq_some_iff.mp first.symm
        rcases List.mem_cons.mp inside with rfl | inside
        · exact List.mem_cons_self
        · exact List.mem_cons_of_mem _ (ih (head ▸ List.mem_cons_self) inside)
      · exact List.mem_cons_of_mem _ (ih (List.mem_cons_of_mem _ later) inside)

theorem none_mem_runs_of_fault {ps : List PatternPart} (fault : PatternPart.fault ∈ ps) :
    none ∈ runs (ofParts ps) := by
  induction ps with
  | nil => contradiction
  | cons part ps ih =>
    cases part with
    | fault => exact List.mem_cons_self
    | star => exact List.mem_cons_of_mem _ (ih (by simpa using fault))
    | item i =>
      rcases List.mem_cons.mp (ih (by simpa using fault)) with first | later
      · rw [runs, ofParts, ← first]
        exact List.mem_cons_self
      · exact List.mem_cons_of_mem _ later

/-- Whether the runs match a text, the first of them at its start. -/
def matchRuns? : List PatternRun → Bytes → Option Bool
  | [], s => some (s = [])
  | none :: _, _ => none
  | some run :: rs, s =>
    match matchRun run s with
    | some t => matchStarred? rs t
    | none => some false

theorem admits_iff {pattern s : Bytes} :
    admits pattern s ↔ matchRuns? (runs (parse pattern)) s = some true := by
  rw [admits, decide_eq_true_eq, accepts?, runs]
  cases (parse pattern).head <;> rfl

theorem none_notMem_of_matchStarred? {rs : List PatternRun} {s : Bytes}
    (found : matchStarred? rs s = some true) : none ∉ rs := by
  fun_induction matchStarred? rs s with
  | case1 => simp
  | case2 => contradiction
  | case3 run rs s t _ ih => simpa using ih found
  | case4 => contradiction

theorem fault_notMem_of_admits {pattern s : Bytes} (fits : admits pattern s) :
    PatternPart.fault ∉ parts pattern := by
  intro fault
  have missing : none ∈ runs (parse pattern) := none_mem_runs_of_fault fault
  rw [admits_iff] at fits
  generalize runs (parse pattern) = rs at missing fits
  match rs with
  | [] => contradiction
  | none :: _ => contradiction
  | some run :: rs =>
    rw [matchRuns?] at fits
    split at fits
    next => exact none_notMem_of_matchStarred? fits (by simpa using missing)
    next => contradiction

/-- The items of the runs stand for no slash. -/
def Within (rs : List PatternRun) : Prop := ∀ is, some is ∈ rs → ∀ i ∈ is, takesSlash i = false

theorem within_runs {pattern : Bytes} (within : slashFree pattern) :
    Within (runs (parse pattern)) := by
  intro is mem i inside
  simpa using List.all_eq_true.mp within _ (item_mem_of_mem_runs mem inside)

theorem Within.tail {run : PatternRun} {rs : List PatternRun} (within : Within (run :: rs)) :
    Within rs :=
  fun is mem => within is (List.mem_cons_of_mem run mem)

theorem fitRun_eq_some_iff {is : List PatternItem} {last : Bool} {s t : Bytes} :
    fitRun is last s = some t ↔ matchRun is s = some t ∧ (last = true → t = []) := by
  rw [fitRun, Option.filter_eq_some_iff]
  cases last <;> simp

/-- A slash behind a run fits where the run ends its element. -/
theorem matchRun_concat_slash {is : List PatternItem} (within : ∀ i ∈ is, takesSlash i = false)
    {s : Bytes} (free : Byte.slash ∉ s) (js : List PatternItem) (t : Bytes) :
    matchRun (is ++ .byte Byte.slash :: js) (s ++ Byte.slash :: t) =
      if matchRun is s = some [] then matchRun js t else none := by
  induction is generalizing s with
  | nil =>
    cases s with
    | nil => rfl
    | cons c s =>
      have other : Byte.slash ≠ c := fun h => free (h ▸ List.mem_cons_self)
      simp [matchRun, matchItem, other]
  | cons i is ih =>
    obtain ⟨here, later⟩ := List.forall_mem_cons.mp within
    rw [List.cons_append, matchRun, matchRun, matchItem_append_slash here]
    cases first : matchItem i s with
    | none => rfl
    | some rest =>
      obtain ⟨u, -, rfl⟩ := exists_append_of_matchItem here first
      exact ih later fun mem => free (List.mem_append_right u mem)

/-- A run that ends its element is found before the slash, and what follows it behind the slash. -/
theorem skipTo_concat_slash {is js : List PatternItem} (within : ∀ i ∈ is, takesSlash i = false)
    {last : Bool} {s t rest : Bytes} (free : Byte.slash ∉ s) (found : skipTo is true s = some [])
    (next : fitRun js last t = some rest) :
    skipTo (is ++ .byte Byte.slash :: js) last (s ++ Byte.slash :: t) = some rest := by
  have joint {s : Bytes} (free : Byte.slash ∉ s) :
      fitRun (is ++ .byte Byte.slash :: js) last (s ++ Byte.slash :: t) =
        if matchRun is s = some [] then some rest else none := by
    rw [fitRun, matchRun_concat_slash within free]
    split
    · exact next
    · rfl
  induction s with
  | nil =>
    have ends := (fitRun_eq_some_iff.mp found).1
    have here := joint free
    rw [if_pos ends] at here
    rw [List.nil_append] at here ⊢
    rw [skipTo, here]
  | cons c s ih =>
    have other : c ≠ Byte.slash := fun h => free (h ▸ List.mem_cons_self)
    have here := joint free
    rw [List.cons_append] at here ⊢
    rw [skipTo] at found ⊢
    split at found
    next t' fits =>
      cases Option.some.inj found
      rw [here, if_pos (fitRun_eq_some_iff.mp fits).1]
    next misfit =>
      have ends : matchRun is (c :: s) ≠ some [] := by
        intro ends
        rw [fitRun_eq_some_iff.mpr ⟨ends, fun _ => rfl⟩] at misfit
        contradiction
      rw [if_neg other] at found
      rw [here, if_neg ends]
      simp only [if_neg other]
      exact ih (fun mem => free (List.mem_cons_of_mem c mem)) found

theorem skipTo_append_slash {is : List PatternItem} (within : ∀ i ∈ is, takesSlash i = false)
    {s rest : Bytes} (found : skipTo is false s = some rest) (t : Bytes) :
    skipTo is false (s ++ Byte.slash :: t) = some (rest ++ Byte.slash :: t) := by
  have joint (s : Bytes) : fitRun is false (s ++ Byte.slash :: t) =
      (fitRun is false s).map (· ++ Byte.slash :: t) := by
    simp only [fitRun, matchRun_append_slash within]
    cases matchRun is s <;> rfl
  induction s with
  | nil =>
    rw [skipTo] at found
    have here := joint []
    rw [found] at here
    rw [List.nil_append] at here ⊢
    rw [skipTo, here]
    rfl
  | cons c s ih =>
    have here := joint (c :: s)
    rw [List.cons_append] at here ⊢
    rw [skipTo] at found ⊢
    rw [here]
    split at found
    next fits =>
      cases Option.some.inj found
      rw [fits]
      rfl
    next misfit =>
      rw [misfit]
      split at found
      next => contradiction
      next other =>
        simp only [Option.map_none, if_neg other]
        exact ih found

theorem exists_append_of_skipTo {is : List PatternItem} (within : ∀ i ∈ is, takesSlash i = false)
    {last : Bool} {s rest : Bytes} (found : skipTo is last s = some rest) :
    ∃ u, Byte.slash ∉ u ∧ s = u ++ rest := by
  induction s with
  | nil =>
    rw [skipTo] at found
    exact exists_append_of_matchRun within (fitRun_eq_some_iff.mp found).1
  | cons c s ih =>
    rw [skipTo] at found
    split at found
    next fits =>
      cases Option.some.inj found
      exact exists_append_of_matchRun within (fitRun_eq_some_iff.mp fits).1
    next =>
      split at found
      next => contradiction
      next other =>
        obtain ⟨u, free, rfl⟩ := ih found
        exact ⟨c :: u, by simp [free, Ne.symm other], rfl⟩

theorem matchRuns?_cons_iff {run : PatternRun} {rs : List PatternRun} {s : Bytes} :
    matchRuns? (run :: rs) s = some true ↔
      ∃ is t, run = some is ∧ matchRun is s = some t ∧ matchStarred? rs t = some true := by
  cases run with
  | none => simp [matchRuns?]
  | some is =>
    rw [matchRuns?]
    cases fits : matchRun is s <;> simp [fits]

theorem matchStarred?_cons_iff {run : PatternRun} {rs : List PatternRun} {s : Bytes} :
    matchStarred? (run :: rs) s = some true ↔
      ∃ is t, run = some is ∧ skipTo is rs.isEmpty s = some t ∧ matchStarred? rs t = some true := by
  cases run with
  | none => simp [matchStarred?]
  | some is =>
    rw [matchStarred?]
    cases found : skipTo is rs.isEmpty s <;> simp [found]

theorem matchStarred?_nil_iff {s : Bytes} : matchStarred? [] s = some true ↔ s = [] := by
  simp [matchStarred?]

theorem joinRuns_ne_nil {rs : List PatternRun} (first : PatternRun) (later : List PatternRun) :
    joinRuns rs (first :: later) ≠ [] := by
  match rs with
  | [] | [_] | _ :: _ :: _ => simp [joinRuns]

/-- Runs behind stars match within one element, and the runs of the next ones behind the slash. -/
theorem matchStarred?_joinRuns {run : PatternRun} {rs : List PatternRun}
    (within : Within (run :: rs)) {s : Bytes} (free : Byte.slash ∉ s)
    (here : matchStarred? (run :: rs) s = some true) {first : PatternRun} {later : List PatternRun}
    {t : Bytes} (next : matchRuns? (first :: later) t = some true) :
    matchStarred? (joinRuns (run :: rs) (first :: later)) (s ++ Byte.slash :: t) = some true := by
  induction rs generalizing run s with
  | nil =>
    obtain ⟨is, rest, rfl, found, ends⟩ := matchStarred?_cons_iff.mp here
    obtain ⟨js, rest', rfl, begins, others⟩ := matchRuns?_cons_iff.mp next
    rw [matchStarred?_nil_iff.mp ends] at found
    have fits : fitRun js later.isEmpty t = some rest' := by
      refine fitRun_eq_some_iff.mpr ⟨begins, fun last => ?_⟩
      rw [List.isEmpty_iff.mp last] at others
      exact matchStarred?_nil_iff.mp others
    exact matchStarred?_cons_iff.mpr
      ⟨_, rest', rfl, skipTo_concat_slash (within is List.mem_cons_self) free found fits, others⟩
  | cons run' rs ih =>
    obtain ⟨is, rest, rfl, found, ends⟩ := matchStarred?_cons_iff.mp here
    have inner := within is List.mem_cons_self
    obtain ⟨u, -, rfl⟩ := exists_append_of_skipTo inner found
    have more : (joinRuns (run' :: rs) (first :: later)).isEmpty = false := by
      simpa using joinRuns_ne_nil first later
    refine matchStarred?_cons_iff.mpr ⟨is, rest ++ Byte.slash :: t, rfl, ?_, ?_⟩
    · rw [more]
      exact skipTo_append_slash inner found t
    · exact ih within.tail (fun mem => free (List.mem_append_right u mem)) ends

/-- What matches one element and what matches the path behind it match the two with a slash between
them. -/
theorem admits_append_slash {pattern pattern' s t : Bytes} (within : slashFree pattern)
    (free : Byte.slash ∉ s) (here : admits pattern s) (next : admits pattern' t) :
    admits (pattern ++ Byte.slash :: pattern') (s ++ Byte.slash :: t) := by
  have sound := fault_notMem_of_admits here
  have inner := within_runs within
  have joined := runs_ofParts_append sound (parts pattern')
  rw [← parts_slash, ← parts_append sound] at joined
  rw [admits_iff] at here next ⊢
  rw [parse, joined]
  rw [parse, runs] at here next inner
  obtain ⟨is, rest, head, begins, ends⟩ := matchRuns?_cons_iff.mp here
  have first := inner is (head ▸ List.mem_cons_self)
  rw [runs, runs]
  cases starred : (ofParts (parts pattern)).starred with
  | nil =>
    rw [starred] at ends
    obtain ⟨js, rest', head', begins', ends'⟩ := matchRuns?_cons_iff.mp next
    rw [matchStarred?_nil_iff.mp ends] at begins
    refine matchRuns?_cons_iff.mpr ⟨is ++ .byte Byte.slash :: js, rest', ?_, ?_, ends'⟩
    · rw [head, head']
      rfl
    · rw [matchRun_concat_slash first free, if_pos begins]
      exact begins'
  | cons run rs =>
    rw [starred] at ends inner
    obtain ⟨u, -, rfl⟩ := exists_append_of_matchRun first begins
    refine matchRuns?_cons_iff.mpr ⟨is, rest ++ Byte.slash :: t, head, ?_, ?_⟩
    · rw [matchRun_append_slash first, begins]
      rfl
    · have bare : Byte.slash ∉ rest := fun mem => free (List.mem_append_right u mem)
      exact matchStarred?_joinRuns inner.tail bare ends next

theorem slash_notMem_of_matchStarred? {rs : List PatternRun} (within : Within rs) {s : Bytes}
    (found : matchStarred? rs s = some true) : Byte.slash ∉ s := by
  induction rs generalizing s with
  | nil => simp [matchStarred?_nil_iff.mp found]
  | cons run rs ih =>
    obtain ⟨is, rest, rfl, first, later⟩ := matchStarred?_cons_iff.mp found
    obtain ⟨u, free, rfl⟩ := exists_append_of_skipTo (within is List.mem_cons_self) first
    rw [List.mem_append, not_or]
    exact ⟨free, ih within.tail later⟩

/-- A pattern that stands for no slash matches no text with one. -/
theorem slash_notMem_of_admits {pattern s : Bytes} (within : slashFree pattern)
    (fits : admits pattern s) : Byte.slash ∉ s := by
  have inner := within_runs within
  rw [admits_iff, runs] at fits
  obtain ⟨is, rest, head, begins, ends⟩ := matchRuns?_cons_iff.mp fits
  obtain ⟨u, free, rfl⟩ := exists_append_of_matchRun (inner is (head ▸ List.mem_cons_self)) begins
  rw [List.mem_append, not_or]
  exact ⟨free, slash_notMem_of_matchStarred? inner.tail ends⟩

/-- Elements that match one by one match as a whole. -/
theorem admits_ofElements {es names : List Bytes} (within : ∀ e ∈ es.dropLast, slashFree e)
    (free : ∀ name ∈ names, Byte.slash ∉ name)
    (each : List.Forall₂ (fun e name => admits e name) es names) (nonempty : es ≠ []) :
    admits (Path.ofElements es) (Path.ofElements names) := by
  induction each with
  | nil => exact absurd rfl nonempty
  | @cons e name es names here rest ih =>
    cases rest with
    | nil => simpa [Path.ofElements] using here
    | cons next others =>
      obtain ⟨first, later⟩ := List.forall_mem_cons.mp within
      obtain ⟨bare, bare'⟩ := List.forall_mem_cons.mp free
      have joined := admits_append_slash first bare here (ih later bare' (by simp))
      simpa [Path.ofElements, List.intercalate_cons_cons] using joined

end LuaCompact.Pattern
