import LuaCompact.Proofs.PlainSpace
import LuaCompact.Proofs.Weave

namespace LuaCompact

namespace Gap

theorem isGap_of_mem_separator (a : Option UInt8) (run : Bytes) (b : Option UInt8) :
    ∀ c ∈ separator a run b, isGap c := by
  intro c mem
  unfold separator at mem
  split at mem
  · rw [List.mem_singleton.mp mem]; decide
  · split at mem
    · simp at mem
    · split at mem
      · rw [List.mem_singleton.mp mem]; decide
      · split at mem
        · rw [List.mem_singleton.mp mem]; decide
        · split at mem
          · simp at mem
          · rw [List.mem_singleton.mp mem]; decide

/-- All that counts of a run is whether it is there and whether it breaks the line. -/
theorem separator_congr {run run' : Bytes} (empty : run = [] ↔ run' = [])
    (breaks : run.any Token.isBreak = run'.any Token.isBreak) (a b : Option UInt8) :
    separator a run b = separator a run' b := by
  simp only [separator, empty, breaks]

end Gap

namespace Atom

/-- The byte of code that an atom is. -/
def byte? : Atom → Option UInt8
  | code b => some b
  | literal _ => none

/-- Whether an atom is white space of code. -/
def isSpace : Atom → Bool
  | code b => isGap b
  | literal _ => false

theorem exists_code_of_isSpace {a : Atom} (h : a.isSpace) : ∃ c, a = code c ∧ isGap c := by
  cases a with
  | code c => exact ⟨c, rfl, h⟩
  | literal => simp [isSpace] at h

theorem ne_of_isGap {c d : UInt8} (h : isGap c) (hd : isGap d = false) : c ≠ d := by
  rintro rfl
  simp [h] at hd

theorem isSpace_of_mem_blockComment {body : Bracket.Body} {a : Atom}
    (mem : a ∈ (Token.blockComment body).atoms) : a.isSpace := by
  simp only [Token.atoms] at mem
  split at mem
  · split at mem
    · rw [List.mem_singleton.mp mem]; decide
    · rw [List.mem_singleton.mp mem]; decide
  · simp at mem

theorem literal_notMem_blockComment (body : Bracket.Body) (t : Bytes) :
    literal t ∉ (Token.blockComment body).atoms := by
  intro mem
  have space := isSpace_of_mem_blockComment mem
  simp [isSpace] at space

/-- What is written for the white space `run` between two atoms; nothing at the start. -/
def gap : Option Atom → Bytes → Atom → Bytes
  | none, _, _ => []
  | some a, run, b => Gap.separator a.byte? run b.byte?

/-- The text of the atoms with their white space brought to a minimum. `prev` is the atom before the
white space `run`. White space at the two ends goes. -/
def flow (prev : Option Atom) (run : Bytes) : List Atom → Bytes
  | [] => []
  | a :: as =>
    if a.isSpace then flow prev (run ++ a.bytes) as
    else gap prev run a ++ a.bytes ++ flow (some a) [] as

theorem isTrimmed_of_isGap {t : Bytes} (gaps : ∀ b ∈ t, isGap b) :
    ∀ a ∈ t.map code, isTrimmed a := by
  intro a ha
  obtain ⟨b, hb, rfl⟩ := List.mem_map.mp ha
  simp [isTrimmed, isEdge, gaps b hb]

theorem weave_cons_of_isSpace {a : Atom} (h : a.isSpace) (prev : Option UInt8) (run : Bytes)
    (as : List Atom) : weave prev run (a :: as) = weave prev (run ++ a.bytes) as := by
  cases a with
  | code b =>
    rw [isSpace] at h
    rw [weave, if_pos h, bytes]
  | literal => simp [isSpace] at h

theorem weave_cons_of_not_isSpace {a : Atom} (h : ¬ a.isSpace) (prev : Option UInt8) (run : Bytes)
    (as : List Atom) :
    weave prev run (a :: as) =
      (Gap.separator prev run a.byte?).map code ++ a :: weave a.byte? [] as := by
  cases a with
  | code b =>
    rw [isSpace] at h
    rw [weave, if_neg h, byte?]
  | literal => rfl

theorem flow_cons_of_isSpace {a : Atom} (h : a.isSpace) (prev : Option Atom) (run : Bytes)
    (as : List Atom) : flow prev run (a :: as) = flow prev (run ++ a.bytes) as := by
  rw [flow, if_pos h]

theorem flow_cons_of_not_isSpace {a : Atom} (h : ¬ a.isSpace) (prev : Option Atom) (run : Bytes)
    (as : List Atom) :
    flow prev run (a :: as) = gap prev run a ++ a.bytes ++ flow (some a) [] as := by
  rw [flow, if_neg h]

/-- Behind an atom, only the end of the woven text is trimmed. -/
theorem join_rdropWhile_weave {as : List Atom} (plain : ∀ a ∈ as, isTrimmed a → a.isSpace)
    (a : Atom) (run : Bytes) :
    join ((weave a.byte? run as).rdropWhile isTrimmed) = flow (some a) run as := by
  induction as generalizing a run with
  | nil =>
    have trimmed := isTrimmed_of_isGap (Gap.isGap_of_mem_separator a.byte? run none)
    rw [weave, List.rdropWhile_eq_nil_iff.mpr trimmed]
    rfl
  | cons b as ih =>
    have tail : ∀ c ∈ as, isTrimmed c → c.isSpace := fun c hc => plain c (by simp [hc])
    by_cases space : b.isSpace
    · rw [weave_cons_of_isSpace space, flow_cons_of_isSpace space, ih tail]
    · have kept : ¬ isTrimmed b := fun h => space (plain b (by simp) h)
      rw [weave_cons_of_not_isSpace space, flow_cons_of_not_isSpace space,
        rdropWhile_append_cons kept, ← ih tail]
      simp [gap]

theorem join_trim_weave {as : List Atom} (plain : ∀ a ∈ as, isTrimmed a → a.isSpace)
    (run : Bytes) : join (trim (weave none run as)) = flow none run as := by
  induction as generalizing run with
  | nil =>
    have trimmed := isTrimmed_of_isGap (Gap.isGap_of_mem_separator none run none)
    rw [weave, trim, List.dropWhile_eq_nil_iff.mpr trimmed]
    rfl
  | cons b as ih =>
    have tail : ∀ c ∈ as, isTrimmed c → c.isSpace := fun c hc => plain c (by simp [hc])
    by_cases space : b.isSpace
    · rw [weave_cons_of_isSpace space, flow_cons_of_isSpace space, ih tail]
    · have kept : ¬ isTrimmed b := fun h => space (plain b (by simp) h)
      have trimmed := isTrimmed_of_isGap (Gap.isGap_of_mem_separator none run b.byte?)
      have last := rdropWhile_append_cons kept [] (weave b.byte? [] as)
      rw [weave_cons_of_not_isSpace space, flow_cons_of_not_isSpace space, trim,
        List.dropWhile_append_of_pos trimmed, List.dropWhile_cons_of_neg kept,
        ← List.nil_append (b :: _), last, ← join_rdropWhile_weave tail]
      simp [gap]

theorem flow_append_of_isSpace {line : List Atom} (spaces : ∀ a ∈ line, a.isSpace)
    (prev : Option Atom) (run : Bytes) (as : List Atom) :
    flow prev run (line ++ as) = flow prev (run ++ join line) as := by
  induction line generalizing run with
  | nil => simp
  | cons a line ih =>
    rw [List.cons_append, flow_cons_of_isSpace (spaces a (by simp)),
      ih fun b hb => spaces b (by simp [hb])]
    simp

theorem flow_append_congr {as bs : List Atom}
    (same : ∀ prev run, flow prev run as = flow prev run bs) (line : List Atom)
    (prev : Option Atom) (run : Bytes) :
    flow prev run (line ++ as) = flow prev run (line ++ bs) := by
  induction line generalizing prev run with
  | nil => exact same prev run
  | cons a line ih =>
    by_cases space : a.isSpace
    · simp only [List.cons_append, flow_cons_of_isSpace space, ih]
    · simp only [List.cons_append, flow_cons_of_not_isSpace space, ih]

theorem flow_congr_run {run run' : Bytes} (empty : run = [] ↔ run' = [])
    (breaks : run.any Token.isBreak = run'.any Token.isBreak) (prev : Option Atom)
    (as : List Atom) : flow prev run as = flow prev run' as := by
  induction as generalizing run run' with
  | nil => rfl
  | cons a as ih =>
    by_cases space : a.isSpace
    · rw [flow_cons_of_isSpace space, flow_cons_of_isSpace space]
      exact ih (by simp [empty]) (by simp [breaks])
    · rw [flow_cons_of_not_isSpace space, flow_cons_of_not_isSpace space]
      cases prev with
      | none => rfl
      | some b => simp only [gap, Gap.separator_congr empty breaks]

theorem flow_none_run (run run' : Bytes) (as : List Atom) :
    flow none run as = flow none run' as := by
  induction as generalizing run run' with
  | nil => rfl
  | cons a as ih =>
    by_cases space : a.isSpace
    · rw [flow_cons_of_isSpace space, flow_cons_of_isSpace space]
      exact ih _ _
    · rw [flow_cons_of_not_isSpace space, flow_cons_of_not_isSpace space]
      rfl

/-- Behind a line break it does not matter what white space stood before it. -/
theorem flow_lineFeed (prev : Option Atom) (run run' : Bytes) (as : List Atom) :
    flow prev run (lineFeed :: as) = flow prev run' (lineFeed :: as) := by
  have space : lineFeed.isSpace := by decide
  rw [flow_cons_of_isSpace space, flow_cons_of_isSpace space]
  exact flow_congr_run (by simp [bytes]) (by simp [bytes, Token.isBreak]) prev as

theorem flow_lines_run (ls : List (List Atom)) (prev : Option Atom) (run run' : Bytes) :
    flow prev run (ls.flatMap (lineFeed :: ·)) = flow prev run' (ls.flatMap (lineFeed :: ·)) := by
  cases ls with
  | nil => rfl
  | cons line ls => exact flow_lineFeed prev run run' _

theorem flow_filter_lines {ls : List (List Atom)} {drops : List Atom → Bool}
    (spaces : ∀ line ∈ ls, drops line → ∀ a ∈ line, a.isSpace) (prev : Option Atom) (run : Bytes) :
    flow prev run ((ls.filter fun line => !drops line).flatMap (lineFeed :: ·)) =
      flow prev run (ls.flatMap (lineFeed :: ·)) := by
  induction ls generalizing prev run with
  | nil => rfl
  | cons line ls ih =>
    have tail := ih fun l hl => spaces l (by simp [hl])
    by_cases goes : drops line
    · have line_spaces : ∀ a ∈ lineFeed :: line, a.isSpace := by
        intro a ha
        rcases List.mem_cons.mp ha with rfl | ha
        · decide
        · exact spaces line (by simp) goes a ha
      rw [List.filter_cons_of_neg (by simp [goes]), List.flatMap_cons,
        flow_append_of_isSpace line_spaces, flow_lines_run ls prev _ run]
      exact tail prev run
    · rw [List.filter_cons_of_pos (by simp [goes]), List.flatMap_cons, List.flatMap_cons]
      exact flow_append_congr tail _ prev run

/-- Lines of white space leave no trace. -/
theorem flow_dropBlank {as : List Atom}
    (spaces : ∀ line ∈ lines as, isBlankLine line → ∀ a ∈ line, a.isSpace) (run : Bytes) :
    flow none run (dropBlank as) = flow none run as := by
  obtain ⟨line, ls, hlines, whole⟩ := exists_lines_eq_cons as
  rw [dropBlank, keptLines]
  rw [hlines] at spaces ⊢
  have tail := flow_filter_lines fun l (hl : l ∈ ls) => spaces l (by simp [hl])
  rw [← whole]
  by_cases goes : isBlankLine line
  · rw [List.filter_cons_of_neg (by simp [goes]),
      flow_append_of_isSpace (spaces line (by simp) goes), ← tail none]
    cases hkept : ls.filter fun line => !isBlankLine line with
    | nil => rfl
    | cons kept rest =>
      rw [intercalate_cons_eq, List.flatMap_cons, List.cons_append,
        flow_cons_of_isSpace (by decide)]
      exact flow_none_run _ _ _
  · rw [List.filter_cons_of_pos (by simp [goes]), intercalate_cons_eq]
    exact flow_append_congr tail line none run

end Atom

end LuaCompact
