import LuaCompact.Proofs.Agreement
import LuaCompact.Proofs.Factorisation
import LuaCompact.Proofs.Weave
import Mathlib

namespace LuaCompact

theorem cons_intercalate {α : Type} (sep : α) {ls : List (List α)} (nonempty : ls ≠ []) :
    sep :: [sep].intercalate ls = ls.flatMap (sep :: ·) := by
  obtain ⟨line, ls, rfl⟩ := List.exists_cons_of_ne_nil nonempty
  rw [intercalate_cons_eq, List.flatMap_cons, List.cons_append]

/-- Lines that are parts of other lines, in their order, are a part of the text of these. -/
theorem intercalate_sublist {α : Type} {sep : α} {ls ls' : List (List α)}
    (h : (ls'.flatMap (sep :: ·)).Sublist (ls.flatMap (sep :: ·))) :
    ([sep].intercalate ls').Sublist ([sep].intercalate ls) := by
  by_cases none : ls' = []
  · rw [none]
    exact List.nil_sublist _
  · have some : ls ≠ [] := by
      rintro rfl
      rw [← cons_intercalate sep none] at h
      simp at h
    rw [← cons_intercalate sep none, ← cons_intercalate sep some] at h
    exact List.cons_sublist_cons.mp h

namespace Gap

/-- How many semicolons of a text have no white space right behind them. -/
def bareSemicolons : Bytes → Nat
  | [] => 0
  | c :: s => (if c = Byte.semicolon ∧ ¬ s.head?.any isGap then 1 else 0) + bareSemicolons s

theorem length_separator_le (a : Option UInt8) (run : Bytes) (b : Option UInt8) :
    (separator a run b).length ≤
      run.length + if a = some Byte.semicolon ∧ run = [] then 1 else 0 := by
  by_cases empty : run = []
  · by_cases semicolon : a = some Byte.semicolon <;> simp [separator, empty, semicolon]
  · have room : 1 ≤ run.length := List.length_pos_of_ne_nil empty
    have short : (separator a run b).length ≤ 1 := by
      unfold separator
      split_ifs <;> simp
    omega

/-- Behind a semicolon a line feed is written even where no white space stands. Nowhere else is more
written than was there. -/
theorem length_respace_le (prev : Option UInt8) (run s : Bytes) :
    (respace separator prev run s).length ≤ run.length + s.length + bareSemicolons s +
      if prev = some Byte.semicolon ∧ run = [] ∧ ¬ s.head?.any isGap then 1 else 0 := by
  induction s generalizing prev run with
  | nil => simpa [respace, bareSemicolons] using length_separator_le prev run none
  | cons c s ih =>
    by_cases gap : isGap c
    · have later := ih prev (run ++ [c])
      simp only [respace, gap, if_true, bareSemicolons, List.length_append, List.length_cons,
        List.length_nil, List.append_eq_nil_iff, List.cons_ne_nil, and_false, false_and,
        if_false] at later ⊢
      omega
    · have here := length_separator_le prev run (some c)
      have later := ih (some c) []
      simp only [respace, gap, if_false, bareSemicolons, List.length_append, List.length_cons,
        List.length_nil, Option.some.injEq, true_and, List.head?_cons, Option.any_some,
        Bool.false_eq_true, not_false_eq_true, and_true] at here later ⊢
      omega

theorem length_trimStart_le (s : Bytes) : (trimStart s).length ≤ s.length :=
  length_dropWhile_le isEdge s

theorem length_trimEnd_le (s : Bytes) : (trimEnd s).length ≤ s.length := by
  rw [trimEnd, List.length_reverse]
  simpa using length_dropWhile_le isEdge s.reverse

end Gap

namespace Segment

/-- The semicolons of code that have no white space right behind them in their segment. -/
def bareSemicolons : Segment → Nat
  | code t => Gap.bareSemicolons t
  | literal _ => 0

theorem length_normalizeFrom_le (first : Bool) (segs : List Segment) :
    (Gap.normalizeFrom first segs).length ≤
      (join segs).length + (segs.map bareSemicolons).sum := by
  induction segs generalizing first with
  | nil => simp [Gap.normalizeFrom]
  | cons seg segs ih =>
    have later := ih false
    cases seg with
    | literal t =>
      simp only [Gap.normalizeFrom, join, List.flatMap_cons, text, List.map_cons, List.sum_cons,
        bareSemicolons, List.length_append] at later ⊢
      omega
    | code t =>
      have tightened : (Gap.tighten t).length ≤ t.length + Gap.bareSemicolons t := by
        rw [Gap.tighten_eq_respace]
        simpa using Gap.length_respace_le none [] t
      have started : (if first then trimStart (Gap.tighten t) else Gap.tighten t).length ≤
          (Gap.tighten t).length := by
        split
        · exact Gap.length_trimStart_le _
        · exact Nat.le_refl _
      have ended (u : Bytes) : (if segs.isEmpty then trimEnd u else u).length ≤ u.length := by
        split
        · exact Gap.length_trimEnd_le u
        · exact Nat.le_refl _
      have trimmed := ended (if first then trimStart (Gap.tighten t) else Gap.tighten t)
      simp only [Gap.normalizeFrom, join, List.flatMap_cons, text, List.map_cons, List.sum_cons,
        bareSemicolons, List.length_append] at later ⊢
      omega

theorem join_ofSegments (segs : List Segment) : Atom.join (Atom.ofSegments segs) = join segs := by
  induction segs with
  | nil => rfl
  | cons seg segs ih => cases seg <;> simp_all [join, text, Atom.bytes]

end Segment

namespace Token

/-- A comment is longer than what it leaves behind. -/
theorem length_atoms_le (tok : Token) : (Atom.join tok.atoms).length ≤ tok.bytes.length := by
  cases tok with
  | shebang | shortString | longString | code => simp [atoms, bytes, Atom.bytes]
  | lineComment => simp [atoms]
  | blockComment body =>
    have left : (Atom.join (atoms (.blockComment body))).length ≤ 1 := by
      rw [atoms]
      split_ifs <;> simp [Atom.bytes]
    have mark : 2 ≤ (bytes (.blockComment body)).length := by simp [bytes, commentMark]
    omega

end Token

namespace Atom

theorem length_ofTokens_le (ts : List Token) :
    (join (ofTokens ts)).length ≤ (ts.flatMap Token.bytes).length := by
  induction ts with
  | nil => exact Nat.le_refl _
  | cons tok ts ih =>
    have here := tok.length_atoms_le
    rw [ofTokens_cons, join_append, List.flatMap_cons, List.length_append, List.length_append]
    omega

theorem dropBlank_sublist (as : List Atom) : (dropBlank as).Sublist as := by
  have kept : (dropBlank as).Sublist ([lineFeed].intercalate (lines as)) :=
    intercalate_sublist (List.filter_sublist.flatMap _)
  rwa [intercalate_lines] at kept

end Atom

theorem length_stripLiteralAware_le (s : Bytes) :
    (Segment.join (stripLiteralAware s)).length ≤ s.length := by
  have separated := Segment.separated_ofTokens (Token.lex s)
  rw [stripLiteralAware, ← Segment.join_ofSegments, Segment.ofSegments_dropBlankLines separated,
    Segment.ofSegments_ofTokens]
  calc (Atom.join (Atom.dropBlank (Atom.ofTokens (Token.lex s)))).length
    _ ≤ (Atom.join (Atom.ofTokens (Token.lex s))).length :=
      ((Atom.dropBlank_sublist _).flatMap Atom.bytes).length_le
    _ ≤ ((Token.lex s).flatMap Token.bytes).length := Atom.length_ofTokens_le _
    _ = s.length := by rw [(Token.factors_lex s).flatMap_bytes]

namespace LineStrip

theorem leaveBlock_suffix {inside : Bool} {line rest : Bytes}
    (h : leaveBlock inside line = some rest) : rest <:+ line := by
  unfold leaveBlock at h
  split at h
  · obtain ⟨⟨before, after⟩, found, rfl⟩ := Option.map_eq_some_iff.mp h
    obtain ⟨rfl, _⟩ := Bytes.upToFirst_of_cut found
    exact List.suffix_append _ _
  · cases Option.some.inj h
    exact List.suffix_rfl

theorem dropBlock_sublist (line : Bytes) : (dropBlock line).1.Sublist line := by
  unfold dropBlock
  split
  next => exact List.Sublist.refl line
  next before after opened =>
    obtain ⟨rfl, _⟩ := Bytes.upToFirst_of_cut opened
    split
    next body rest closed =>
      obtain ⟨rfl, _⟩ := Bytes.upToFirst_of_cut closed
      have later : rest.Sublist (blockOpener ++ (body ++ blockCloser ++ rest)) :=
        (List.sublist_append_right _ _).trans (List.sublist_append_right _ _)
      rw [List.append_assoc]
      exact later.append_left before
    next =>
      rw [List.append_assoc]
      exact List.sublist_append_left _ _

/-- A step takes bytes out of its line and puts none in. -/
theorem line_step_sublist (inside : Bool) (line : Bytes) :
    (step inside line).line.Sublist line := by
  unfold step
  split
  next => exact List.nil_sublist line
  next rest left =>
    have opened := (dropBlock_sublist rest).trans (leaveBlock_suffix left).sublist
    simp only
    split
    · exact opened
    · have cut := dropLineComment_prefix (dropBlock rest).1
      exact cut.sublist.trans opened

theorem flatMap_steps_sublist (inside : Bool) (ls : List Bytes) :
    ((((steps inside ls).filter Step.keep).map Step.line).flatMap (Byte.lf :: ·)).Sublist
      (ls.flatMap (Byte.lf :: ·)) := by
  induction ls generalizing inside with
  | nil => exact List.Sublist.refl _
  | cons line ls ih =>
    have here := line_step_sublist inside line
    rw [steps, List.filter_cons, List.flatMap_cons]
    split
    · rw [List.map_cons, List.flatMap_cons]
      exact (here.cons_cons Byte.lf).append (ih _)
    · exact (ih _).trans (List.sublist_append_right _ _)

theorem strip_sublist (s : Bytes) : (Segment.join (strip s)).Sublist s := by
  have kept := intercalate_sublist (flatMap_steps_sublist false (Bytes.lines s))
  rw [← Bytes.joinLines, ← Bytes.joinLines, Atom.joinLines_lines] at kept
  rwa [strip, ← Segment.join_ofSegments, Segment.ofSegments_ofCode, Atom.join_map_code]

end LineStrip

theorem length_strip_le (policy : Policy) (s : Bytes) :
    (Segment.join (strip policy s)).length ≤ s.length := by
  cases policy with
  | faithful => exact (LineStrip.strip_sublist s).length_le
  | literal | unnamed => exact length_stripLiteralAware_le s

/-- The result is longer than the source by one byte at most for each semicolon that comes to stand
in code without white space right behind it. -/
theorem length_minify_le (policy : Policy) (s : Bytes) :
    (minify policy s).length ≤
      s.length + ((strip policy s).map Segment.bareSemicolons).sum := by
  have normalized := Segment.length_normalizeFrom_le true (strip policy s)
  have stripped := length_strip_le policy s
  rw [minify, Gap.normalize]
  omega

end LuaCompact
