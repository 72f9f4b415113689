import LuaCompact.Proofs.Linkage
import LuaCompact.Proofs.LineEnding
import LuaCompact.Proofs.Utf8Cut

namespace LuaCompact

/-- A change of the elements that makes and loses no separator changes the parts one by one. -/
theorem splitOn_filterMap {α : Type} [DecidableEq α] {f : α → Option α} {sep : α}
    (keeps : ∀ x, f x = some sep ↔ x = sep) (xs : List α) :
    (xs.filterMap f).splitOn sep = (xs.splitOn sep).map (List.filterMap f) := by
  induction xs with
  | nil => simp
  | cons x xs ih =>
    rw [List.splitOn_cons_eq_if_modifyHead]
    by_cases isSep : x = sep
    · rw [List.filterMap_cons_some ((keeps x).mpr isSep), List.splitOn_cons_eq_if_modifyHead, ih]
      simp [isSep]
    · obtain ⟨first, rest, hsplit⟩ := List.exists_cons_of_ne_nil (List.splitOn_ne_nil sep xs)
      rw [if_neg (by simpa using isSep), hsplit, List.modifyHead_cons, List.map_cons]
      rw [hsplit, List.map_cons] at ih
      cases image : f x with
      | none => rw [List.filterMap_cons_none image, List.filterMap_cons_none image, ih]
      | some y =>
        have other : y ≠ sep := fun h => isSep ((keeps x).mp (h ▸ image))
        rw [List.filterMap_cons_some image, List.filterMap_cons_some image,
          List.splitOn_cons_eq_if_modifyHead, ih, if_neg (by simpa using other),
          List.modifyHead_cons]

theorem filterMap_intercalate {α : Type} {f : α → Option α} {sep : α} (keeps : f sep = some sep)
    (ls : List (List α)) :
    ([sep].intercalate ls).filterMap f = [sep].intercalate (ls.map (List.filterMap f)) := by
  cases ls with
  | nil => rfl
  | cons line ls =>
    rw [List.map_cons, intercalate_cons_eq, intercalate_cons_eq, List.filterMap_append,
      List.filterMap_flatMap, List.flatMap_map]
    simp only [List.filterMap_cons_some keeps]

theorem isBlank_concat_cr (s : Bytes) : isBlank (s ++ [Byte.cr]) = isBlank s := by
  have blank : isBlank [Byte.cr] = true := by cbv
  rw [isBlank] at blank ⊢
  rw [Utf8.pieces_append_cons (by decide), List.all_append, blank, Bool.and_true, isBlank]

namespace Atom

/-- Blank lines go in the same places after a change of the atoms that keeps the line feeds and the
blank lines. -/
theorem dropBlank_filterMap {f : Atom → Option Atom}
    (keeps : ∀ a, f a = some lineFeed ↔ a = lineFeed)
    {as : List Atom}
    (same : ∀ line ∈ lines as, isBlankLine (line.filterMap f) = isBlankLine line) :
    dropBlank (as.filterMap f) = (dropBlank as).filterMap f := by
  rw [dropBlank, dropBlank, filterMap_intercalate ((keeps lineFeed).mpr rfl)]
  congr 1
  unfold keptLines lines at *
  rw [splitOn_filterMap keeps, List.filter_map]
  congr 1
  refine List.filter_congr fun line mem => ?_
  rw [Function.comp_apply, same line mem]

/-- Within a line of code a carriage return stands at the end only. -/
theorem eq_dropReturns_or_concat {line : List Atom} (chain : List.IsChain Paired line)
    (whole : lineFeed ∉ line) :
    line = dropReturns line ∨ line = dropReturns line ++ [carriageReturn] := by
  induction line with
  | nil => exact .inl rfl
  | cons a line ih =>
    rw [List.mem_cons, not_or] at whole
    by_cases h : a = carriageReturn
    · cases line with
      | nil => exact .inr (by rw [h]; decide)
      | cons b line => exact absurd (chain.rel h) (fun feed => whole.2 (feed ▸ List.mem_cons_self))
    · have kept : dropReturns (a :: line) = a :: dropReturns line :=
        List.filter_cons_of_pos (by simpa using h)
      rw [kept]
      rcases ih chain.tail whole.2 with same | same
      · exact .inl (by rw [← same])
      · exact .inr (by rw [List.cons_append, ← same])

theorem isBlankLine_dropReturns {line : List Atom} (chain : List.IsChain Paired line)
    (whole : lineFeed ∉ line) : isBlankLine (dropReturns line) = isBlankLine line := by
  rcases eq_dropReturns_or_concat chain whole with same | same
  · rw [← same]
  · conv_rhs => rw [same]
    simp only [isBlankLine, List.all_append, join_append]
    have blank : join [carriageReturn] = [Byte.cr] := rfl
    rw [blank, isBlank_concat_cr]
    simp [literal?]

theorem dropReturns_eq_filterMap (as : List Atom) :
    dropReturns as = as.filterMap (Option.guard (· ≠ carriageReturn)) := by
  rw [dropReturns, List.filterMap_eq_filter]

theorem dropReturns_dropBlank {as : List Atom} (chain : List.IsChain Paired as) :
    dropReturns (dropBlank as) = dropBlank (dropReturns as) := by
  rw [dropReturns_eq_filterMap, dropReturns_eq_filterMap, dropBlank_filterMap]
  · intro a
    rw [Option.guard_eq_some_iff, eq_comm, and_iff_left_iff_imp]
    rintro rfl
    decide
  · intro line mem
    rw [← dropReturns_eq_filterMap]
    have paired := chain.infix (infix_of_mem_splitOn mem)
    exact isBlankLine_dropReturns paired (notMem_of_mem_splitOn mem)

/-- Runs of white space for which the same is put. -/
def SameGap (run run' : Bytes) : Prop :=
  (run = [] ↔ run' = []) ∧ run.any Token.isBreak = run'.any Token.isBreak

/-- Up to white space at the end, which the end of the text has no use for, a carriage return before
a line feed makes no difference. -/
theorem weave_dropReturns {as : List Atom} (chain : List.IsChain Paired as) {run run' : Bytes}
    (same : as = [] ∨ as.head? = some lineFeed ∨ SameGap run run') (prev : Option UInt8) :
    ∃ woven rest rest', weave prev run as = woven ++ rest ∧
      weave prev run' (dropReturns as) = woven ++ rest' ∧
      (∀ a ∈ rest, isTrimmed a) ∧ ∀ a ∈ rest', isTrimmed a := by
  induction as generalizing run run' prev with
  | nil =>
    refine ⟨[], _, _, rfl, rfl, ?_, ?_⟩ <;>
      exact isTrimmed_of_isGap (Gap.isGap_of_mem_separator prev _ none)
  | cons a as ih =>
    have feed : a ≠ lineFeed → SameGap run run' := by
      intro other
      rcases same with none | feed | same
      · contradiction
      · exact absurd (Option.some.inj feed) other
      · exact same
    by_cases return_ : a = carriageReturn
    · subst return_
      have dropped : dropReturns (carriageReturn :: as) = dropReturns as := rfl
      rw [dropped, weave_cons_of_isSpace (by decide)]
      refine ih chain.tail ?_ prev
      cases as with
      | nil => exact .inl rfl
      | cons b as => exact .inr (.inl (congrArg some (chain.rel rfl)))
    have kept : dropReturns (a :: as) = a :: dropReturns as :=
      List.filter_cons_of_pos (by simpa using return_)
    rw [kept]
    by_cases space : a.isSpace
    · rw [weave_cons_of_isSpace space, weave_cons_of_isSpace space]
      refine ih chain.tail (.inr (.inr ?_)) prev
      by_cases isFeed : a = lineFeed
      · subst isFeed
        simp [SameGap, bytes, Token.isBreak]
      · obtain ⟨empty, breaks⟩ := feed isFeed
        obtain ⟨c, rfl, -⟩ := exists_code_of_isSpace space
        simp [SameGap, bytes, breaks]
    · have solid : a ≠ lineFeed := by
        rintro rfl
        exact space (by decide)
      obtain ⟨empty, breaks⟩ := feed solid
      obtain ⟨woven, rest, rest', h, h', trimmed⟩ :=
        ih chain.tail (.inr (.inr ⟨Iff.rfl, rfl⟩)) a.byte?
      refine ⟨(Gap.separator prev run a.byte?).map code ++ a :: woven, rest, rest', ?_, ?_, trimmed⟩
      · rw [weave_cons_of_not_isSpace space, h]
        simp
      · rw [weave_cons_of_not_isSpace space, h', ← Gap.separator_congr empty breaks]
        simp

theorem trim_append_of_isTrimmed {rest : List Atom} (trimmed : ∀ a ∈ rest, isTrimmed a)
    (as : List Atom) : trim (as ++ rest) = trim as := rdropWhile_dropWhile_append trimmed as

theorem trim_weave_dropReturns {as : List Atom} (chain : List.IsChain Paired as) :
    trim (weave none [] (dropReturns as)) = trim (weave none [] as) := by
  obtain ⟨woven, rest, rest', h, h', trimmed, trimmed'⟩ :=
    weave_dropReturns chain (.inr (.inr ⟨Iff.rfl, rfl⟩)) none
  rw [h, h', trim_append_of_isTrimmed trimmed, trim_append_of_isTrimmed trimmed']

end Atom

end LuaCompact
