import LuaCompact.Proofs.OpenBlock
import LuaCompact.Proofs.Traceless
import Mathlib.Data.Bool.AllAny

namespace LuaCompact

namespace Bytes

/-- The text with a carriage return for every line feed. -/
def lfToCr (s : Bytes) : Bytes := s.map fun b => if b = Byte.lf then Byte.cr else b

theorem lfToCr_cons (b : UInt8) (s : Bytes) :
    lfToCr (b :: s) = (if b = Byte.lf then Byte.cr else b) :: lfToCr s := rfl

theorem lfToCr_of_notMem {s : Bytes} (free : Byte.lf ∉ s) : lfToCr s = s := by
  refine (List.map_congr_left fun b mem => if_neg ?_).trans (List.map_id s)
  rintro rfl
  exact free mem

theorem lf_notMem_lfToCr (s : Bytes) : Byte.lf ∉ lfToCr s := by
  intro mem
  obtain ⟨b, -, same⟩ := List.mem_map.mp mem
  split at same
  next => exact absurd same (by decide)
  next other => exact other same

theorem lines_lfToCr (s : Bytes) : lines (lfToCr s) = [lfToCr s] :=
  List.splitOn_eq_singleton (lf_notMem_lfToCr s)

theorem mem_of_mem_lfToCr {s : Bytes} {b : UInt8} (mem : b ∈ lfToCr s) : b = Byte.cr ∨ b ∈ s := by
  obtain ⟨c, hc, same⟩ := List.mem_map.mp mem
  split at same
  next => exact .inl same.symm
  next => exact .inr (same ▸ hc)

theorem prefix_lfToCr_iff {mark : Bytes} (feed : Byte.lf ∉ mark) (ret : Byte.cr ∉ mark)
    (s : Bytes) : mark <+: lfToCr s ↔ mark <+: s := by
  induction mark generalizing s with
  | nil => simp
  | cons m mark ih =>
    rw [List.mem_cons, not_or] at feed ret
    cases s with
    | nil => simp [lfToCr]
    | cons b s =>
      rw [lfToCr_cons, List.cons_prefix_cons, List.cons_prefix_cons, ih feed.2 ret.2]
      refine and_congr_left fun _ => ?_
      split
      next isFeed =>
        rw [isFeed]
        exact ⟨fun h => absurd h.symm ret.1, fun h => absurd h.symm feed.1⟩
      next => exact Iff.rfl

theorem cons_eq_flatMap_lines (s : Bytes) : Byte.lf :: s = (lines s).flatMap (Byte.lf :: ·) := by
  have whole : joinLines (lines s) = s := Atom.joinLines_lines s
  conv_lhs => rw [← whole]
  exact cons_intercalate Byte.lf (List.splitOn_ne_nil Byte.lf s)

/-- A line feed and a carriage return both divide the lines without a trace of ink. -/
theorem ink_lfToCr (s : Bytes) : ink (lfToCr s) = ink s := by
  have feeds := cons_eq_flatMap_lines s
  have returns : Byte.cr :: lfToCr s = (lines s).flatMap (Byte.cr :: ·) := by
    have image := congrArg lfToCr feeds
    rw [lfToCr_cons, if_pos rfl] at image
    rw [image, lfToCr, List.map_flatMap]
    refine List.flatMap_congr fun line mem => ?_
    have same := lfToCr_of_notMem (notMem_of_mem_splitOn mem)
    rw [List.map_cons, if_pos rfl]
    exact congrArg (Byte.cr :: ·) same
  have single {c : UInt8} (edge : isEdge c) (t : Bytes) : ink (c :: t) = ink t := by
    simpa using ink_flatMap_cons edge [t]
  rw [← single (c := Byte.cr) (by decide), ← single (c := Byte.lf) (by decide) s, feeds, returns,
    ink_flatMap_cons (by decide), ink_flatMap_cons (by decide)]

theorem isBlank_lfToCr (s : Bytes) : isBlank (lfToCr s) = isBlank s := by
  rw [Bool.eq_iff_iff, ← ink_eq_zero_iff, ← ink_eq_zero_iff, ink_lfToCr]

end Bytes

namespace Gap

theorem respace_lfToCr {run run' : Bytes} (empty : run = [] ↔ run' = [])
    (breaks : run.any Token.isBreak = run'.any Token.isBreak) (prev : Option UInt8) (s : Bytes) :
    respace separator prev run (Bytes.lfToCr s) = respace separator prev run' s := by
  induction s generalizing prev run run' with
  | nil => exact separator_congr empty breaks prev none
  | cons c s ih =>
    rw [Bytes.lfToCr_cons]
    by_cases feed : c = Byte.lf
    · rw [if_pos feed, feed, respace, respace, if_pos (by decide), if_pos (by decide)]
      exact ih (by simp) (by simp [breaks, Token.isBreak]) prev
    · rw [if_neg feed, respace, respace]
      by_cases gap : isGap c
      · rw [if_pos gap, if_pos gap]
        exact ih (by simp) (by simp [breaks]) prev
      · rw [if_neg gap, if_neg gap, separator_congr empty breaks, ih Iff.rfl rfl]

/-- The rules for white space take a carriage return for a line break as well. -/
theorem normalizeCode_lfToCr (s : Bytes) : normalizeCode (Bytes.lfToCr s) = normalizeCode s := by
  rw [normalizeCode, normalizeCode, tighten_eq_respace, tighten_eq_respace,
    respace_lfToCr Iff.rfl rfl]

end Gap

theorem plain_of_notMem {s : Bytes} (unquoted : ∀ b ∈ s, Token.isQuote b = false)
    (unbracketed : Byte.openBracket ∉ s) : Plain s where
  unquoted := unquoted
  unbracketed level opens := unbracketed (opens.subset (by simp [Bracket.opener]))

namespace LineStrip

theorem dropLineComment_lfToCr (s : Bytes) :
    dropLineComment (Bytes.lfToCr s) = Bytes.lfToCr (dropLineComment s) := by
  have marked (s : Bytes) : Token.commentMark <+: Bytes.lfToCr s ↔ Token.commentMark <+: s :=
    Bytes.prefix_lfToCr_iff (by decide) (by decide) s
  induction s with
  | nil => rfl
  | cons c s ih =>
    by_cases mark : Token.commentMark <+: c :: s
    · have none := dropLineComment_of_prefix mark
      rw [none, dropLineComment_of_prefix ((marked _).mpr mark)]
      rfl
    · have unmarked := mt (marked _).mp mark
      rw [Bytes.lfToCr_cons] at unmarked ⊢
      rw [dropLineComment_cons mark, dropLineComment_cons unmarked, ih, Bytes.lfToCr_cons]

/-- The text from the first comment mark on. -/
def fromComment (s : Bytes) : Bytes := s.drop (dropLineComment s).length

theorem dropLineComment_append_fromComment (s : Bytes) : dropLineComment s ++ fromComment s = s :=
  List.prefix_iff_eq_append.mp <| dropLineComment_prefix s

theorem plain_fromComment {s : Bytes} (plain : Plain s) : Plain (fromComment s) :=
  plain.of_infix (List.IsSuffix.isInfix ⟨_, dropLineComment_append_fromComment s⟩)

theorem fromComment_of_mark {s : Bytes} (mark : Token.commentMark <+: s) : fromComment s = s := by
  rw [fromComment, dropLineComment_of_prefix mark]
  rfl

theorem fromComment_cons {c : UInt8} {s : Bytes} (unmarked : ¬ Token.commentMark <+: c :: s) :
    fromComment (c :: s) = fromComment s := by
  rw [fromComment, dropLineComment_cons unmarked]
  rfl

theorem fromComment_eq_nil_or_prefix (s : Bytes) :
    fromComment s = [] ∨ Token.commentMark <+: fromComment s := by
  unfold fromComment dropLineComment
  split
  next before after found =>
    obtain ⟨rfl, -⟩ := Bytes.upToFirst_of_cut found
    exact .inr ⟨after, by simp⟩
  next => exact .inl (by simp)

theorem exists_lines_of_mark {s : Bytes} (mark : Token.commentMark <+: s) :
    ∃ ls, (Bytes.lines s).map dropLineComment = [] :: ls := by
  obtain ⟨text, rfl⟩ := mark
  obtain ⟨line, ls, hs⟩ := List.exists_cons_of_ne_nil (List.splitOn_ne_nil Byte.lf text)
  have first : dropLineComment (Token.commentMark ++ line) = [] :=
    dropLineComment_of_prefix (List.prefix_append _ _)
  refine ⟨ls.map dropLineComment, ?_⟩
  rw [Bytes.lines, Token.commentMark, List.cons_append, List.singleton_append,
    List.splitOn_cons_eq_if_modifyHead, List.splitOn_cons_eq_if_modifyHead, if_neg (by decide),
    if_neg (by decide), hs, ← first]
  rfl

theorem unmarked_fromComment (s : Bytes) : ¬ Token.shebangMark <+: fromComment s := by
  rw [Token.shebangMark_eq]
  intro shebang
  rcases fromComment_eq_nil_or_prefix s with none | ⟨text, whole⟩
  · simp [none] at shebang
  · rw [← whole, Token.commentMark] at shebang
    exact absurd (List.cons_prefix_cons.mp shebang).1 (by decide)

/-- Up to the first comment the lines are the same, and behind it each line is cut by itself. -/
theorem map_dropLineComment_lines (s : Bytes) :
    (Bytes.lines s).map dropLineComment = Bytes.lines (dropLineComment s) ++
      ((Bytes.lines (fromComment s)).map dropLineComment).tail := by
  induction s with
  | nil => rfl
  | cons c s ih =>
    by_cases mark : Token.commentMark <+: c :: s
    · obtain ⟨ls, hls⟩ := exists_lines_of_mark mark
      rw [fromComment_of_mark mark, dropLineComment_of_prefix mark, hls]
      rfl
    · rw [fromComment_cons mark, dropLineComment_cons mark]
      obtain ⟨line, ls, hs⟩ := List.exists_cons_of_ne_nil (List.splitOn_ne_nil Byte.lf s)
      obtain ⟨line', ls', hs'⟩ :=
        List.exists_cons_of_ne_nil (List.splitOn_ne_nil Byte.lf (dropLineComment s))
      unfold Bytes.lines at ih ⊢
      rw [List.splitOn_cons_eq_if_modifyHead, List.splitOn_cons_eq_if_modifyHead]
      by_cases feed : c = Byte.lf
      · rw [if_pos (by simpa using feed), if_pos (by simpa using feed), List.map_cons, ih]
        rfl
      · rw [if_neg (by simpa using feed), if_neg (by simpa using feed)]
        rw [hs, hs', List.map_cons, List.cons_append] at ih
        obtain ⟨here, later⟩ := List.cons.inj ih
        have unmarked : ¬ Token.commentMark <+: c :: line := by
          have whole : [Byte.lf].intercalate (s.splitOn Byte.lf) = s := List.intercalate_splitOn _
          rw [hs, intercalate_cons_eq] at whole
          exact fun h => mark (h.trans (List.cons_prefix_cons.mpr ⟨rfl, _, whole⟩))
        rw [hs, hs', List.modifyHead_cons, List.modifyHead_cons, List.map_cons,
          dropLineComment_cons unmarked, here, later]
        rfl

/-- In a text without long brackets a line is kept up to its comment, if that is not blank. -/
theorem keptLines_of_plain {s : Bytes} (plain : Plain s) :
    keptLines s = ((Bytes.lines s).map dropLineComment).filter fun line => !isBlank line :=
  steps_of_plain fun _ mem => plain.of_infix (infix_of_mem_splitOn mem)

theorem keptLines_append {s : Bytes} (plain : Plain s) :
    keptLines s = ((Bytes.lines (dropLineComment s)).filter fun line => !isBlank line) ++
      keptLines (fromComment s) := by
  have blank : isBlank [] = true := by simp [isBlank, Utf8.pieces]
  have first : ∃ ls, (Bytes.lines (fromComment s)).map dropLineComment = [] :: ls := by
    rcases fromComment_eq_nil_or_prefix s with none | mark
    · exact ⟨[], by rw [none]; rfl⟩
    · exact exists_lines_of_mark mark
  obtain ⟨ls, hls⟩ := first
  rw [keptLines_of_plain plain, keptLines_of_plain (plain_fromComment plain),
    map_dropLineComment_lines, hls, List.filter_append, List.tail_cons,
    List.filter_cons_of_neg (by simp [blank])]

theorem keptLines_lfToCr {s : Bytes} (plain : Plain (Bytes.lfToCr s)) :
    keptLines (Bytes.lfToCr s) =
      if isBlank (dropLineComment s) then [] else [Bytes.lfToCr (dropLineComment s)] := by
  rw [keptLines_of_plain plain, Bytes.lines_lfToCr, List.map_singleton, dropLineComment_lfToCr]
  split
  next blank => simp [Bytes.isBlank_lfToCr, blank]
  next content => simp [Bytes.isBlank_lfToCr, content]

/-- What is stripped of a text is nothing exactly if no line is kept. -/
theorem strip_eq_nil_iff {s : Bytes} : strip s = [] ↔ keptLines s = [] := by
  constructor
  · intro none
    rw [← lines_strip, none]
    rfl
  · intro none
    have text : strip s = Segment.ofCode (Bytes.joinLines (keptLines s)) := rfl
    rw [text, none]
    rfl

end LineStrip

theorem strip_of_plain (policy : Policy) {s : Bytes} (plain : Plain s)
    (unmarked : ¬ Token.shebangMark <+: s) : strip policy s = LineStrip.strip s := by
  cases policy with
  | faithful => rfl
  | literal | unnamed => exact stripLiteralAware_eq_strip plain unmarked

theorem minify_of_plain (policy : Policy) {s : Bytes} (plain : Plain s)
    (unmarked : ¬ Token.shebangMark <+: s) :
    minify policy s = Gap.normalizeCode (Bytes.joinLines (LineStrip.keptLines s)) := by
  rw [minify, strip_of_plain policy plain unmarked]
  exact Gap.normalize_ofCode _

/-- A text whose lines are divided by carriage returns comes to what stands before the first
comment, all of it, if that is not blank. -/
theorem minify_lfToCr (policy : Policy) {s : Bytes} (unquoted : ∀ b ∈ s, Token.isQuote b = false)
    (unbracketed : Byte.openBracket ∉ s) (unmarked : ¬ Token.shebangMark <+: s) :
    minify policy (Bytes.lfToCr s) =
      if isBlank (LineStrip.dropLineComment s) then []
      else Gap.normalizeCode (LineStrip.dropLineComment s) := by
  have plain : Plain (Bytes.lfToCr s) := by
    refine plain_of_notMem (fun b mem => ?_) fun mem => ?_
    · rcases Bytes.mem_of_mem_lfToCr mem with rfl | mem
      · decide
      · exact unquoted b mem
    · rcases Bytes.mem_of_mem_lfToCr mem with same | mem
      · exact absurd same (by decide)
      · exact unbracketed mem
  have first : ¬ Token.shebangMark <+: Bytes.lfToCr s := by
    rwa [Bytes.prefix_lfToCr_iff (by rw [Token.shebangMark_eq]; decide)
      (by rw [Token.shebangMark_eq]; decide)]
  rw [minify_of_plain policy plain first, LineStrip.keptLines_lfToCr plain]
  split
  next => exact Gap.normalizeCode_nil
  next => rw [Bytes.joinLines, List.intercalate_singleton, Gap.normalizeCode_lfToCr]

/-- Carriage returns in place of all line feeds change nothing exactly if nothing is left of the
text from its first comment on, as that comment has no end then, and if the blank lines before it
leave no trace, as they are not lines of their own then. -/
theorem minify_lfToCr_eq_iff (policy : Policy) {s : Bytes}
    (unquoted : ∀ b ∈ s, Token.isQuote b = false) (unbracketed : Byte.openBracket ∉ s)
    (unmarked : ¬ Token.shebangMark <+: s) :
    minify policy (Bytes.lfToCr s) = minify policy s ↔
      strip policy (LineStrip.fromComment s) = [] ∧
        (isBlank (LineStrip.dropLineComment s) ∨
          Traceless (Bytes.lines (LineStrip.dropLineComment s))) := by
  have plain := plain_of_notMem unquoted unbracketed
  have rest := LineStrip.plain_fromComment plain
  have content : ∀ line ∈ LineStrip.keptLines (LineStrip.fromComment s), isBlank line = false :=
    fun line mem => LineStrip.isBlank_of_mem_keptLines mem
  rw [minify_lfToCr policy unquoted unbracketed unmarked, minify_of_plain policy plain unmarked,
    strip_of_plain policy rest (LineStrip.unmarked_fromComment s), LineStrip.strip_eq_nil_iff,
    LineStrip.keptLines_append plain]
  by_cases blank : isBlank (LineStrip.dropLineComment s)
  · rw [if_pos blank, Gap.filter_lines_of_isBlank blank, List.nil_append, eq_comm,
      Gap.normalizeCode_joinLines_eq_nil_iff content]
    simp [blank]
  · rw [if_neg blank, Gap.normalizeCode_eq_iff _ content]
    simp [blank]

/-- A vertical tab on the first line, a blank line in the code, and nothing behind the comment. -/
theorem minify_lfToCr_eq_sample :
    (∀ b ∈ utf8 "\x0b\na = 1\n \t\nb -- c\n\n-- d", Token.isQuote b = false) ∧
      minify .faithful (utf8 "\x0b\ra = 1\r \t\rb -- c\r\r-- d") =
        minify .faithful (utf8 "\x0b\na = 1\n \t\nb -- c\n\n-- d") := by
  have unquoted : ∀ b ∈ utf8 "\x0b\na = 1\n \t\nb -- c\n\n-- d", Token.isQuote b = false :=
    List.all_iff_forall_prop.mp (by decide)
  have returns : Bytes.lfToCr (utf8 "\x0b\na = 1\n \t\nb -- c\n\n-- d") =
      utf8 "\x0b\ra = 1\r \t\rb -- c\r\r-- d" := by decide
  have lines : Bytes.lines (LineStrip.dropLineComment (utf8 "\x0b\na = 1\n \t\nb -- c\n\n-- d")) =
      [utf8 "\x0b"] ++ [utf8 "a = 1", utf8 " \t", utf8 "b "] ++ [] := by decide
  have traceless : Traceless ([utf8 "\x0b"] ++ [utf8 "a = 1", utf8 " \t", utf8 "b "] ++ []) :=
    ⟨_, _, _, rfl, by decide +kernel, by decide +kernel⟩
  have none : strip .faithful
      (LineStrip.fromComment (utf8 "\x0b\na = 1\n \t\nb -- c\n\n-- d")) = [] := by decide_cbv
  rw [← returns]
  exact ⟨unquoted, (minify_lfToCr_eq_iff .faithful unquoted (by decide)
    (by decide)).mpr ⟨none, .inr (lines ▸ traceless)⟩⟩

/-- A carriage return ends no comment, so that the code behind it is lost. -/
theorem minify_lfToCr_ne :
    (Byte.cr ∉ utf8 "-- a\nb" ∧ (∀ b ∈ utf8 "-- a\nb", Token.isQuote b = false) ∧
      Byte.openBracket ∉ utf8 "-- a\nb" ∧ ¬ Token.shebangMark <+: utf8 "-- a\nb") ∧
    ∀ policy : Policy, minify policy (Bytes.lfToCr (utf8 "-- a\nb")) = [] ∧
      minify policy (utf8 "-- a\nb") = utf8 "b" ∧
      minify policy (Bytes.lfToCr (utf8 "-- a\nb")) ≠ minify policy (utf8 "-- a\nb") := by
  have unquoted : ∀ b ∈ utf8 "-- a\nb", Token.isQuote b = false :=
    List.all_iff_forall_prop.mp (by decide)
  refine ⟨⟨by decide, unquoted, by decide, by decide⟩, fun policy => ?_⟩
  have literal : minify .literal (Bytes.lfToCr (utf8 "-- a\nb")) = [] ∧
      minify .literal (utf8 "-- a\nb") = utf8 "b" := by decide_cbv
  have faithful : minify .faithful (Bytes.lfToCr (utf8 "-- a\nb")) = [] ∧
      minify .faithful (utf8 "-- a\nb") = utf8 "b" := by decide_cbv
  have both : minify policy (Bytes.lfToCr (utf8 "-- a\nb")) = [] ∧
      minify policy (utf8 "-- a\nb") = utf8 "b" := by
    cases policy with
    | literal | unnamed => exact literal
    | faithful => exact faithful
  refine ⟨both.1, both.2, ?_⟩
  rw [both.1, both.2]
  decide

end LuaCompact
