import LuaCompact.Proofs.Weight

namespace LuaCompact

theorem eq_nil_of_length_flatMap_filter {α β : Type} {p : α → Bool} {f : α → List β} {xs : List α}
    (h : ((xs.filter p).flatMap f).length = (xs.flatMap f).length) :
    ∀ x ∈ xs, ¬ p x → f x = [] := by
  induction xs with
  | nil => simp
  | cons x xs ih =>
    have shorter := (List.filter_sublist (p := p) (l := xs)).flatMap f
    have := shorter.length_le
    by_cases hp : p x
    · rw [List.filter_cons_of_pos hp, List.flatMap_cons, List.flatMap_cons, List.length_append,
        List.length_append] at h
      exact List.forall_mem_cons.mpr ⟨fun hn => absurd hp hn, ih (by omega)⟩
    · rw [List.filter_cons_of_neg hp, List.flatMap_cons, List.length_append] at h
      have none : (f x).length = 0 := by omega
      exact List.forall_mem_cons.mpr ⟨fun _ => List.eq_nil_of_length_eq_zero none, ih (by omega)⟩

namespace Gap

theorem separator_cases (a : Option UInt8) (run : Bytes) (b : Option UInt8) :
    separator a run b = [] ∨ separator a run b = [Byte.lf] ∨ separator a run b = [Byte.space] := by
  unfold separator
  split
  · exact .inr (.inl rfl)
  · split
    · exact .inl rfl
    · split
      · exact .inr (.inl rfl)
      · split
        · exact .inr (.inr rfl)
        · split
          · exact .inl rfl
          · exact .inr (.inr rfl)

/-- What is put between two neighbours stays between them. -/
theorem separator_separator (a : Option UInt8) (run : Bytes) (b : Option UInt8) :
    separator a (separator a run b) b = separator a run b := by
  have unbroken : [Byte.space].any Token.isBreak = false := by decide
  by_cases semicolon : a = some Byte.semicolon
  · simp [separator, semicolon]
  by_cases empty : run = []
  · simp [separator, semicolon, empty]
  by_cases breaks : run.any Token.isBreak
  · have feed : separator a run b = [Byte.lf] := by
      rw [separator, if_neg semicolon, if_neg empty, if_pos breaks]
    rw [feed]
    simp [separator, Token.isBreak]
  by_cases dashes : a = some Byte.dash ∧ b = some Byte.dash
  · have space : separator a run b = [Byte.space] := by
      rw [separator, if_neg semicolon, if_neg empty, if_neg breaks, if_pos dashes]
    rw [space, separator, if_neg semicolon, if_neg (by simp), if_neg (by simp [unbroken]),
      if_pos dashes]
  by_cases operator : a.any isOperator || b.any isOperator
  · have none : separator a run b = [] := by
      rw [separator, if_neg semicolon, if_neg empty, if_neg breaks, if_neg dashes, if_pos operator]
    rw [none]
    simp [separator, semicolon]
  · have space : separator a run b = [Byte.space] := by
      rw [separator, if_neg semicolon, if_neg empty, if_neg breaks, if_neg dashes, if_neg operator]
    rw [space, separator, if_neg semicolon, if_neg (by simp), if_neg (by simp [unbroken]),
      if_neg dashes, if_neg operator]

end Gap

namespace Atom

/-- No line is blank. A text of no atoms has no line. -/
def Unblank (as : List Atom) : Prop := as = [] ∨ ∀ line ∈ lines as, ¬ isBlankLine line

/-- Between two atoms with white space alone between them stands what they ask for. -/
def Spaced (as : List Atom) : Prop :=
  ∀ (a b : Atom) (run : Bytes), a :: (run.map code ++ [b]) <:+: as → ¬ a.isSpace → ¬ b.isSpace →
    (∀ c ∈ run, isGap c) → run = Gap.separator a.byte? run b.byte?

theorem Spaced.of_part {as bs : List Atom} (spaced : Spaced bs) (h : as <:+: bs) : Spaced as :=
  fun a b run inside => spaced a b run (inside.trans h)

/-- White space as minifying leaves it: no line of the code is blank, between two neighbours stands
what they ask for, and none stands at the ends. -/
structure Settled (as : List Atom) : Prop where
  unblank : Unblank as
  spaced : Spaced as
  first : ∀ a ∈ as.head?, ¬ a.isTrimmed
  last : ∀ a ∈ as.getLast?, ¬ a.isTrimmed

theorem run_eq_of_prefix {run sep : Bytes} {b c : Atom} {rest : List Atom}
    (gaps : ∀ d ∈ run, isGap d) (filled : ∀ d ∈ sep, isGap d) (hb : ¬ b.isSpace) (hc : ¬ c.isSpace)
    (start : run.map code ++ [b] <+: sep.map code ++ c :: rest) : run = sep ∧ b = c := by
  induction run generalizing sep with
  | nil =>
    cases sep with
    | nil => exact ⟨rfl, (List.cons_prefix_cons.mp start).1⟩
    | cons d sep =>
      rw [(List.cons_prefix_cons.mp start).1] at hb
      exact absurd (filled d (by simp)) hb
  | cons d run ih =>
    cases sep with
    | nil =>
      rw [← (List.cons_prefix_cons.mp start).1] at hc
      exact absurd (gaps d (by simp)) hc
    | cons e sep =>
      obtain ⟨same, tail⟩ := List.cons_prefix_cons.mp start
      obtain ⟨rfl, rfl⟩ := ih (fun f hf => gaps f (by simp [hf])) (fun f hf => filled f (by simp [hf]))
        tail
      exact ⟨by rw [code.inj same], rfl⟩

theorem infix_of_spaces_append {sep : Bytes} (filled : ∀ d ∈ sep, isGap d) {a : Atom}
    (solid : ¬ a.isSpace) {as bs : List Atom} (inside : a :: as <:+: sep.map code ++ bs) :
    a :: as <:+: bs := by
  induction sep with
  | nil => exact inside
  | cons d sep ih =>
    rcases List.infix_cons_iff.mp inside with start | inside
    · rw [(List.cons_prefix_cons.mp start).1] at solid
      exact absurd (filled d (by simp)) solid
    · exact ih (fun e he => filled e (by simp [he])) inside

theorem exists_separator_of_infix_cons_weave {a b : Atom} {run : Bytes} (ha : ¬ a.isSpace)
    (hb : ¬ b.isSpace) (gaps : ∀ c ∈ run, isGap c) {prev : Atom} {before : Bytes} {as : List Atom}
    (inside : a :: (run.map code ++ [b]) <:+: prev :: weave prev.byte? before as) :
    ∃ w, run = Gap.separator a.byte? w b.byte? := by
  induction as generalizing prev before with
  | nil =>
    have filled := Gap.isGap_of_mem_separator prev.byte? before none
    have mem : b ∈ (Gap.separator prev.byte? before none).map code := by
      rcases List.infix_cons_iff.mp inside with start | inside
      · exact (List.cons_prefix_cons.mp start).2.subset (by simp)
      · exact inside.subset (by simp)
    obtain ⟨c, hc, rfl⟩ := List.mem_map.mp mem
    exact absurd (filled c hc) hb
  | cons c as ih =>
    by_cases space : c.isSpace
    · rw [weave_cons_of_isSpace space] at inside
      exact ih inside
    · have filled := Gap.isGap_of_mem_separator prev.byte? before c.byte?
      rw [weave_cons_of_not_isSpace space] at inside
      rcases List.infix_cons_iff.mp inside with start | inside
      · obtain ⟨rfl, start⟩ := List.cons_prefix_cons.mp start
        obtain ⟨rfl, rfl⟩ := run_eq_of_prefix gaps filled hb space start
        exact ⟨before, rfl⟩
      · exact ih (infix_of_spaces_append filled ha inside)

theorem exists_separator_of_infix_weave {a b : Atom} {run : Bytes} (ha : ¬ a.isSpace)
    (hb : ¬ b.isSpace) (gaps : ∀ c ∈ run, isGap c) {before : Bytes} {as : List Atom}
    (inside : a :: (run.map code ++ [b]) <:+: weave none before as) :
    ∃ w, run = Gap.separator a.byte? w b.byte? := by
  induction as generalizing before with
  | nil =>
    obtain ⟨c, hc, rfl⟩ := List.mem_map.mp (inside.subset List.mem_cons_self)
    exact absurd (Gap.isGap_of_mem_separator none before none c hc) ha
  | cons c as ih =>
    by_cases space : c.isSpace
    · rw [weave_cons_of_isSpace space] at inside
      exact ih inside
    · have filled := Gap.isGap_of_mem_separator none before c.byte?
      rw [weave_cons_of_not_isSpace space] at inside
      exact exists_separator_of_infix_cons_weave ha hb gaps
        (infix_of_spaces_append filled ha inside)

theorem spaced_minified (s : Bytes) : Spaced (minified s) := by
  intro a b run inside ha hb gaps
  obtain ⟨w, rfl⟩ := exists_separator_of_infix_weave ha hb gaps (inside.trans (isInfix_trim _))
  rw [Gap.separator_separator]

theorem first_trim {as : List Atom} {a : Atom} (h : a ∈ (trim as).head?) : ¬ a.isTrimmed := by
  obtain ⟨rest, hrest⟩ := List.rdropWhile_prefix isTrimmed (as.dropWhile isTrimmed)
  rw [← trim] at hrest
  have head : (as.dropWhile isTrimmed).head? = some a := by
    rw [← hrest, List.head?_append, h]
    rfl
  have stops := List.head?_dropWhile_not isTrimmed as
  rw [head] at stops
  simpa using stops

theorem last_trim {as : List Atom} {a : Atom} (h : a ∈ (trim as).getLast?) : ¬ a.isTrimmed := by
  have nonempty : trim as ≠ [] := by
    rintro empty
    rw [empty] at h
    simp at h
  have stops := List.rdropWhile_last_not isTrimmed (as.dropWhile isTrimmed) nonempty
  rw [List.getLast?_eq_some_getLast nonempty] at h
  rwa [← Option.some.inj h]

/-- Two atoms side by side of which one at most is white space. -/
def Packed (a b : Atom) : Prop := a.isSpace → ¬ b.isSpace

theorem isChain_packed_weave (prev : Option UInt8) (run : Bytes) (as : List Atom) :
    List.IsChain Packed (weave prev run as) := by
  have filled (prev : Option UInt8) (run : Bytes) (next : Option UInt8) {bs : List Atom}
      (chain : List.IsChain Packed bs) (solid : ∀ b ∈ bs.head?, ¬ b.isSpace) :
      List.IsChain Packed ((Gap.separator prev run next).map code ++ bs) := by
    rcases Gap.separator_cases prev run next with h | h | h
    · rw [h]
      exact chain
    · rw [h]
      exact chain.cons fun b hb _ => solid b hb
    · rw [h]
      exact chain.cons fun b hb _ => solid b hb
  induction as generalizing prev run with
  | nil =>
    have only := filled prev run none List.isChain_nil (by simp)
    rwa [List.append_nil] at only
  | cons c as ih =>
    by_cases space : c.isSpace
    · rw [weave_cons_of_isSpace space]
      exact ih prev _
    · rw [weave_cons_of_not_isSpace space]
      refine filled prev run c.byte? ((ih c.byte? []).cons fun b _ h => absurd h space) ?_
      intro b hb
      rwa [← Option.some.inj hb]

/-- A list of atoms without white space at its ends and with none side by side has no line of white
space. -/
theorem eq_nil_of_line_isSpace {as line : List Atom} (packed : List.IsChain Packed as)
    (first : ∀ a ∈ as.head?, ¬ a.isSpace) (last : ∀ a ∈ as.getLast?, ¬ a.isSpace)
    (mem : line ∈ lines as) (spaces : ∀ a ∈ line, a.isSpace) : as = [] := by
  have feed : lineFeed.isSpace := by decide
  obtain ⟨start, ls, hlines, whole⟩ := exists_lines_eq_cons as
  rw [hlines] at mem
  rcases List.mem_cons.mp mem with rfl | mem
  · cases line with
    | cons a line =>
      rw [← whole] at first
      exact absurd (spaces a (by simp)) (first a (by simp))
    | nil =>
      cases ls with
      | nil => simpa using whole.symm
      | cons next ls =>
        rw [← whole] at first
        exact absurd feed (first lineFeed (by simp))
  · exfalso
    obtain ⟨before, after, rfl⟩ := List.append_of_mem mem
    rw [List.flatMap_append, List.flatMap_cons] at whole
    have inside : lineFeed :: line ++ after.flatMap (lineFeed :: ·) <:+ as :=
      ⟨start ++ before.flatMap (lineFeed :: ·), by rw [← whole]; simp⟩
    have tail := packed.suffix inside
    cases line with
    | cons a line => exact tail.rel_head? rfl feed (spaces a (by simp))
    | nil =>
      cases after with
      | cons next after => exact tail.rel_head? rfl feed feed
      | nil =>
        obtain ⟨front, rfl⟩ := inside
        exact last lineFeed (by simp) feed

/-- If no atom goes with the blank lines, these are white space only. -/
theorem isSpace_of_solids_dropBlank {as line : List Atom}
    (same : solids (dropBlank as) = solids as) (mem : line ∈ lines as) (blank : isBlankLine line) :
    ∀ a ∈ line, a.isSpace := by
  have lengths : (((lines as).filter fun line => !isBlankLine line).flatMap solids).length =
      ((lines as).flatMap solids).length := by
    rw [flatMap_solids_lines, ← keptLines, ← solids_dropBlank, same]
  have none := eq_nil_of_length_flatMap_filter lengths line mem (by simp [blank])
  intro a ha
  by_contra solid
  have found := mem_solids.mpr ⟨ha, solid⟩
  rw [none] at found
  simp at found

theorem isTrimmed_of_isSpace {a : Atom} (h : a.isSpace) : a.isTrimmed := by
  obtain ⟨c, rfl, gap⟩ := exists_code_of_isSpace h
  simp [isTrimmed, isEdge, gap]

theorem first_minified (s : Bytes) : ∀ a ∈ (minified s).head?, ¬ a.isTrimmed :=
  fun _ => first_trim

theorem last_minified (s : Bytes) : ∀ a ∈ (minified s).getLast?, ¬ a.isTrimmed :=
  fun _ => last_trim

/-- Of a minified text only the blank lines are in question. -/
theorem settled_minified_iff (s : Bytes) :
    Settled (minified s) ↔ Unblank (minified s) :=
  ⟨fun h => h.unblank, fun unblank =>
    ⟨unblank, spaced_minified s, first_minified s, last_minified s⟩⟩

/-- A line of a minified text is not made of white space only. -/
theorem eq_nil_of_line_minified {s : Bytes} {line : List Atom} (mem : line ∈ lines (minified s))
    (spaces : ∀ a ∈ line, a.isSpace) : minified s = [] := by
  have packed : List.IsChain Packed (minified s) :=
     List.IsChain.infix (isChain_packed_weave none [] _) (isInfix_trim _)
  have first (a : Atom) (ha : a ∈ (minified s).head?) (space : a.isSpace) : False :=
    first_minified s a ha (isTrimmed_of_isSpace space)
  have last (a : Atom) (ha : a ∈ (minified s).getLast?) (space : a.isSpace) : False :=
    last_minified s a ha (isTrimmed_of_isSpace space)
  exact eq_nil_of_line_isSpace packed first last mem spaces

end Atom

end LuaCompact
