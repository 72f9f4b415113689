import LuaCompact.Proofs.CarriageReturn
import LuaCompact.Proofs.Length
import LuaCompact.Proofs.Relex
import Mathlib.Data.Bool.AllAny

namespace LuaCompact

namespace Segment

/-- The segment with the line breaks in a literal changed. -/
def crlf : Segment → Segment
  | code t => code t
  | literal t => literal (Bytes.crlf t)

theorem ofSegments_map_crlf (segs : List Segment) :
    Atom.ofSegments (segs.map crlf) = (Atom.ofSegments segs).map Atom.crlf := by
  induction segs with
  | nil => rfl
  | cons seg segs ih =>
    cases seg with
    | code t => simp [crlf, ih, Function.comp_def, Atom.crlf]
    | literal t => simp [crlf, ih, Atom.crlf]

theorem separated_map_crlf {segs : List Segment} (separated : Separated segs) :
    Separated (segs.map crlf) := by
  induction separated with
  | nil => exact .nil
  | literal _ ih => exact .literal ih
  | last nonempty => exact .last nonempty
  | code nonempty _ ih => exact .code nonempty ih

end Segment

namespace Atom

theorem isBlankLine_map_crlf (line : List Atom) :
    isBlankLine (line.map crlf) = isBlankLine line := by
  have isNone (a : Atom) : (crlf a).literal?.isNone = a.literal?.isNone := by cases a <;> rfl
  rw [isBlankLine, isBlankLine, List.all_map]
  simp only [Function.comp_def, isNone]
  by_cases free : line.all fun a => a.literal?.isNone
  · have same : line.map crlf = line := by
      conv_rhs => rw [← List.map_id line]
      refine List.map_congr_left fun a mem => ?_
      have plain := List.all_eq_true.mp free a mem
      cases a with
      | code => rfl
      | literal => contradiction
    rw [same]
  · rw [Bool.not_eq_true] at free
    rw [free, Bool.false_and, Bool.false_and]

theorem dropBlank_map_crlf (as : List Atom) :
    dropBlank (as.map crlf) = (dropBlank as).map crlf := by
  rw [← List.filterMap_eq_map, dropBlank_filterMap]
  · intro a
    cases a <;> simp [crlf]
  · intro line _
    rw [List.filterMap_eq_map]
    exact isBlankLine_map_crlf line

theorem filterMap_literal?_dropReturns (as : List Atom) :
    (dropReturns as).filterMap literal? = as.filterMap literal? := by
  rw [dropReturns, List.filterMap_filter]
  refine List.filterMap_congr fun a _ => ?_
  by_cases h : a = carriageReturn
  · rw [h]
    rfl
  · rw [if_pos (by simpa using h)]

theorem filterMap_literal?_map_crlf (as : List Atom) :
    (as.map crlf).filterMap literal? = (as.filterMap literal?).map Bytes.crlf := by
  rw [List.filterMap_map, List.map_filterMap]
  refine List.filterMap_congr fun a _ => ?_
  cases a <;> rfl

end Atom

/-- What is left of a text, as atoms, with and without carriage returns in its line breaks. -/
theorem exists_ofTokens_crlf {s : Bytes} (free : Byte.cr ∉ s) (unmarked : ¬ Token.shebangMark <+: s)
    (closed : ∀ tok ∈ Token.lex s, tok.Closed) :
    Token.Carries (Token.lex s) (Token.lex (Bytes.crlf s)) := by
  have unmarked' : ¬ Token.shebangMark <+: Bytes.crlf s := by
    rwa [Bytes.prefix_crlf_iff (by rw [Token.shebangMark_eq]; decide)]
  have factors : Token.Factors false s (Token.lex s) :=
    (Token.factors_lex s).of_not_shebang unmarked
  obtain ⟨ts, factors', carries⟩ := Token.exists_factors_crlf factors free closed
  rwa [← Token.lex_of_factors (factors'.of_not_shebang unmarked')]

theorem literals_strip_crlf {s : Bytes} (free : Byte.cr ∉ s) (unmarked : ¬ Token.shebangMark <+: s)
    (closed : ∀ tok ∈ Token.lex s, tok.Closed) :
    (strip .literal (Bytes.crlf s)).filterMap Segment.literal? =
      ((strip .literal s).filterMap Segment.literal?).map Bytes.crlf := by
  obtain ⟨same, -⟩ := exists_ofTokens_crlf free unmarked closed
  rw [filterMap_literal?_strip, filterMap_literal?_strip, ← Atom.filterMap_literal?_map_crlf,
    ← same, Atom.filterMap_literal?_dropReturns]

theorem minify_literal_crlf {s : Bytes} (free : Byte.cr ∉ s) (unmarked : ¬ Token.shebangMark <+: s)
    (closed : ∀ tok ∈ Token.lex s, tok.Closed) :
    minify .literal (Bytes.crlf s) = Gap.normalize ((strip .literal s).map Segment.crlf) := by
  obtain ⟨same, chain⟩ := exists_ofTokens_crlf free unmarked closed
  have separated := Segment.separated_ofTokens (Token.lex s)
  have kept := Segment.separated_map_crlf (Segment.separated_dropBlankFrom true separated)
  have left : Atom.ofSegments ((strip .literal s).map Segment.crlf) =
      Atom.dropBlank (Atom.dropReturns (Atom.ofTokens (Token.lex (Bytes.crlf s)))) := by
    rw [Segment.ofSegments_map_crlf, same, Atom.dropBlank_map_crlf, ← Segment.ofSegments_ofTokens,
      ← Segment.ofSegments_dropBlankLines separated]
    rfl
  have written : Gap.normalize ((strip .literal s).map Segment.crlf) =
      Atom.join (Atom.trim (Atom.weave none []
        (Atom.ofSegments ((strip .literal s).map Segment.crlf)))) :=
    Atom.normalizeFrom_eq_join kept true
  rw [written, left, ← Atom.dropReturns_dropBlank chain,
    Atom.trim_weave_dropReturns (Atom.isChain_dropBlank chain), minify_literal_eq]

namespace LineStrip

/-- The same line, or the line with a carriage return at its end. -/
def Ended (line line' : Bytes) : Prop := line' = line ∨ line' = line ++ [Byte.cr]

theorem Ended.cons {line line' : Bytes} (ended : Ended line line') (b : UInt8) :
    Ended (b :: line) (b :: line') := by
  rcases ended with rfl | rfl
  · exact .inl rfl
  · exact .inr rfl

theorem Ended.append {line line' : Bytes} (ended : Ended line line') (before : Bytes) :
    Ended (before ++ line) (before ++ line') := by
  rcases ended with rfl | rfl
  · exact .inl rfl
  · exact .inr (List.append_assoc _ _ _).symm

theorem Ended.isBlank_eq {line line' : Bytes} (ended : Ended line line') :
    isBlank line' = isBlank line := by
  rcases ended with rfl | rfl
  · rfl
  · exact isBlank_concat_cr line

theorem forall₂_lines_crlf (s : Bytes) :
    List.Forall₂ Ended (Bytes.lines s) (Bytes.lines (Bytes.crlf s)) := by
  unfold Bytes.lines
  induction s with
  | nil => exact .cons (.inl rfl) .nil
  | cons b s ih =>
    by_cases feed : b = Byte.lf
    · rw [feed, Bytes.crlf_cons_lf]
      simp only [List.splitOn_cons_eq_if_modifyHead]
      exact .cons (.inr rfl) ih
    · rw [Bytes.crlf_cons_of_ne feed, List.splitOn_cons_eq_if_modifyHead,
        List.splitOn_cons_eq_if_modifyHead, if_neg (by simpa using feed),
        if_neg (by simpa using feed)]
      generalize List.splitOn Byte.lf s = ls, List.splitOn Byte.lf (Bytes.crlf s) = ls' at ih
      cases ih with
      | nil => exact .nil
      | cons ended rest => exact .cons (ended.cons b) rest

theorem cut_concat {mark : Bytes} (nonempty : mark ≠ []) {c : UInt8} (free : c ∉ mark) (s : Bytes) :
    Bytes.cut mark (s ++ [c]) =
      (Bytes.cut mark s).map fun (before, after) => (before, after ++ [c]) := by
  have prefix_iff (s : Bytes) : mark <+: s ++ [c] ↔ mark <+: s := by
    rw [List.prefix_concat_iff, or_iff_right]
    rintro rfl
    exact free (by simp)
  induction s with
  | nil =>
    have absent : ¬ mark <+: [c] := by
      rw [← List.nil_append [c], prefix_iff]
      simpa using nonempty
    rw [List.nil_append, Bytes.cut_cons_of_absent absent, Bytes.cut, if_neg nonempty]
    rfl
  | cons b s ih =>
    by_cases here : mark <+: b :: s
    · obtain ⟨after, h⟩ := here
      rw [← h, List.append_assoc, Bytes.cut_append, Bytes.cut_append]
      rfl
    · have absent : ¬ mark <+: b :: (s ++ [c]) := by
        rwa [← List.cons_append, prefix_iff]
      rw [List.cons_append, Bytes.cut_cons_of_absent absent, Bytes.cut_cons_of_absent here, ih]
      simp [Function.comp_def]

theorem ended_dropLineComment {line line' : Bytes} (ended : Ended line line') :
    Ended (dropLineComment line) (dropLineComment line') := by
  rcases ended with rfl | rfl
  · exact .inl rfl
  · unfold dropLineComment
    rw [cut_concat (by decide) (by decide)]
    cases Bytes.cut Token.commentMark line with
    | none => exact .inr rfl
    | some => exact .inl rfl

theorem ended_dropBlock {line line' : Bytes} (ended : Ended line line') :
    Ended (dropBlock line).1 (dropBlock line').1 ∧ (dropBlock line').2 = (dropBlock line).2 := by
  rcases ended with rfl | rfl
  · exact ⟨.inl rfl, rfl⟩
  · unfold dropBlock
    rw [cut_concat (by simp [blockOpener_eq]) (by rw [blockOpener_eq]; decide)]
    cases Bytes.cut blockOpener line with
    | none => exact ⟨.inr rfl, rfl⟩
    | some found =>
      obtain ⟨before, after⟩ := found
      simp only [Option.map_some]
      rw [cut_concat (by simp [blockCloser_eq]) (by rw [blockCloser_eq]; decide)]
      cases Bytes.cut blockCloser after with
      | none => exact ⟨.inl rfl, rfl⟩
      | some found => exact ⟨Ended.append (.inr rfl) before, rfl⟩

/-- A carriage return at the end of a line stays or goes, and changes nothing else. -/
theorem ended_step (inside : Bool) {line line' : Bytes} (ended : Ended line line') :
    Ended (step inside line).line (step inside line').line ∧
      (step inside line').inside = (step inside line).inside ∧
      (step inside line').keep = (step inside line).keep := by
  have left : leaveBlock inside line = none ∧ leaveBlock inside line' = none ∨
      ∃ rest rest', leaveBlock inside line = some rest ∧ leaveBlock inside line' = some rest' ∧
        Ended rest rest' := by
    rcases ended with rfl | rfl
    · cases leaveBlock inside line' with
      | none => exact .inl ⟨rfl, rfl⟩
      | some rest => exact .inr ⟨rest, rest, rfl, rfl, .inl rfl⟩
    · unfold leaveBlock
      rw [cut_concat (by simp [blockCloser_eq]) (by rw [blockCloser_eq]; decide)]
      cases inside with
      | false => exact .inr ⟨_, _, rfl, rfl, .inr rfl⟩
      | true =>
        cases Bytes.cut blockCloser line with
        | none => exact .inl ⟨rfl, rfl⟩
        | some found => exact .inr ⟨_, _, rfl, rfl, .inr rfl⟩
  unfold step
  rcases left with ⟨h, h'⟩ | ⟨rest, rest', h, h', ended⟩
  · rw [h, h']
    exact ⟨.inl rfl, rfl, rfl⟩
  · rw [h, h']
    obtain ⟨dropped, same⟩ := ended_dropBlock ended
    have cut : Ended
        (if (dropBlock rest).2 then (dropBlock rest).1 else dropLineComment (dropBlock rest).1)
        (if (dropBlock rest').2 then (dropBlock rest').1
          else dropLineComment (dropBlock rest').1) := by
      rw [same]
      split
      · exact dropped
      · exact ended_dropLineComment dropped
    exact ⟨cut, same, congrArg (!·) cut.isBlank_eq⟩

theorem forall₂_kept {ls ls' : List Bytes} (ended : List.Forall₂ Ended ls ls') (inside : Bool) :
    List.Forall₂ Ended (((steps inside ls).filter Step.keep).map Step.line)
      (((steps inside ls').filter Step.keep).map Step.line) := by
  induction ended generalizing inside with
  | nil => exact .nil
  | @cons line line' ls ls' here _ ih =>
    obtain ⟨ended, same, keep⟩ := ended_step inside here
    rw [steps, steps, List.filter_cons, List.filter_cons, same, keep]
    split
    · exact .cons ended (ih _)
    · exact ih _

theorem Ended.dropReturns {line line' : Bytes} (ended : Ended line line') (free : Byte.cr ∉ line) :
    Atom.dropReturns (line'.map .code) = line.map .code ∧
      List.IsChain Atom.Paired (line'.map .code) := by
  have solid : Atom.carriageReturn ∉ line.map Atom.code := by simpa using free
  have kept := Atom.dropReturns_append_of_notMem solid
  have chain {as : List Atom} (ends : as.IsChain Atom.Paired) :=
    Atom.isChain_paired_append solid ends
  rcases ended with rfl | rfl
  · have whole := kept []
    rw [List.append_nil] at whole
    refine ⟨whole.trans (List.append_nil _), ?_⟩
    simpa using chain .nil
  · rw [List.map_append]
    exact ⟨(kept _).trans (List.append_nil _), chain (.singleton _)⟩

theorem dropReturns_joinLines {ls ls' : List Bytes} (ended : List.Forall₂ Ended ls ls')
    (free : ∀ line ∈ ls, Byte.cr ∉ line) :
    Atom.dropReturns ((Bytes.joinLines ls').map .code) = (Bytes.joinLines ls).map .code ∧
      List.IsChain Atom.Paired ((Bytes.joinLines ls').map .code) := by
  induction ended with
  | nil => exact ⟨rfl, .nil⟩
  | @cons line line' ls ls' here rest ih =>
    obtain ⟨free, frees⟩ := List.forall_mem_cons.mp free
    obtain ⟨first, firstChain⟩ := here.dropReturns free
    obtain ⟨later, laterChain⟩ := ih frees
    cases rest with
    | nil =>
      rw [Bytes.joinLines, Bytes.joinLines, List.intercalate_singleton, List.intercalate_singleton]
      exact ⟨first, firstChain⟩
    | cons next rest =>
      rw [Atom.map_code_joinLines_cons_cons, Atom.map_code_joinLines_cons_cons, ← first, ← later]
      refine ⟨List.filter_append .., firstChain.append ?_ ?_⟩
      · have feed : Atom.carriageReturn ∉ [Atom.lineFeed] := by decide
        exact Atom.isChain_paired_append feed laterChain
      · intro a _ b hb _
        exact (Option.some.inj hb).symm

/-- The lines that are kept, as one text. -/
def keptText (s : Bytes) : Bytes :=
  Bytes.joinLines (((steps false (Bytes.lines s)).filter Step.keep).map Step.line)

theorem join_strip (s : Bytes) : Segment.join (strip s) = keptText s := by
  rw [strip, ← Segment.join_ofSegments, Segment.ofSegments_ofCode, Atom.join_map_code]
  rfl

end LineStrip

theorem minify_faithful_eq (s : Bytes) :
    minify .faithful s =
      Atom.join (Atom.trim (Atom.weave none [] ((LineStrip.keptText s).map .code))) := by
  have separated : Segment.Separated (LineStrip.strip s) := by
    rw [LineStrip.strip, Segment.ofCode]
    split
    next => exact .nil
    next nonempty => exact .last nonempty
  have written := Atom.normalizeFrom_eq_join separated true
  rwa [LineStrip.strip, Segment.ofSegments_ofCode] at written

theorem minify_faithful_crlf {s : Bytes} (free : Byte.cr ∉ s) :
    minify .faithful (Bytes.crlf s) = minify .faithful s := by
  have kept := LineStrip.forall₂_kept (LineStrip.forall₂_lines_crlf s) false
  have frees : ∀ line ∈ ((LineStrip.steps false (Bytes.lines s)).filter LineStrip.Step.keep).map
      LineStrip.Step.line, Byte.cr ∉ line := by
    intro line mem inside
    have fed := List.mem_flatMap.mpr ⟨line, mem, List.mem_cons_of_mem Byte.lf inside⟩
    rw [← cons_intercalate Byte.lf (List.ne_nil_of_mem mem)] at fed
    rcases List.mem_cons.mp fed with h | kept
    · exact absurd h (by decide)
    · exact free ((LineStrip.strip_sublist s).subset (LineStrip.join_strip s ▸ kept))
  obtain ⟨same, chain⟩ := LineStrip.dropReturns_joinLines kept frees
  rw [minify_faithful_eq, minify_faithful_eq, LineStrip.keptText, LineStrip.keptText, ← same,
    Atom.trim_weave_dropReturns chain]

/-- A carriage return before every line feed changes nothing that is written but the line breaks in
literals. -/
theorem minify_crlf (s : Bytes) (free : Byte.cr ∉ s) :
    minify .faithful (Bytes.crlf s) = minify .faithful s ∧
      ∀ policy : Policy, policy ≠ .faithful → ¬ Token.shebangMark <+: s →
        (∀ tok ∈ Token.lex s, tok.Closed) →
        (strip policy (Bytes.crlf s)).filterMap Segment.literal? =
            ((strip policy s).filterMap Segment.literal?).map Bytes.crlf ∧
          minify policy (Bytes.crlf s) = Gap.normalize ((strip policy s).map Segment.crlf) := by
  refine ⟨minify_faithful_crlf free, ?_⟩
  intro policy aware unmarked closed
  cases policy with
  | faithful => exact absurd rfl aware
  | literal | unnamed =>
    exact ⟨literals_strip_crlf free unmarked closed, minify_literal_crlf free unmarked closed⟩

/-- An escaped line break, a long string, a comment at the end of a line, and a blank line. -/
theorem minify_crlf_sample :
    Byte.cr ∉ utf8 "x = 'a\\\nb' -- c\n\n y=[[d\ne]]\n" ∧
      ¬ Token.shebangMark <+: utf8 "x = 'a\\\nb' -- c\n\n y=[[d\ne]]\n" ∧
      (∀ tok ∈ Token.lex (utf8 "x = 'a\\\nb' -- c\n\n y=[[d\ne]]\n"), tok.Closed) ∧
      minify .faithful (utf8 "x = 'a\\\r\nb' -- c\r\n\r\n y=[[d\r\ne]]\r\n") =
        minify .faithful (utf8 "x = 'a\\\nb' -- c\n\n y=[[d\ne]]\n") ∧
      minify .literal (utf8 "x = 'a\\\r\nb' -- c\r\n\r\n y=[[d\r\ne]]\r\n") =
        utf8 "x='a\\\r\nb'\ny=[[d\r\ne]]" := by
  have free : Byte.cr ∉ utf8 "x = 'a\\\nb' -- c\n\n y=[[d\ne]]\n" := by decide
  have unmarked : ¬ Token.shebangMark <+: utf8 "x = 'a\\\nb' -- c\n\n y=[[d\ne]]\n" := by
    decide
  have closed : ∀ tok ∈ Token.lex (utf8 "x = 'a\\\nb' -- c\n\n y=[[d\ne]]\n"), tok.Closed :=
    List.all_iff_forall_prop.mp (by decide_cbv)
  have breaks : Bytes.crlf (utf8 "x = 'a\\\nb' -- c\n\n y=[[d\ne]]\n") =
      utf8 "x = 'a\\\r\nb' -- c\r\n\r\n y=[[d\r\ne]]\r\n" := by decide
  obtain ⟨faithful, aware⟩ := minify_crlf _ free
  have literal := (aware .literal (by decide) unmarked closed).2
  rw [breaks] at faithful literal
  refine ⟨free, unmarked, closed, faithful, literal.trans ?_⟩
  decide_cbv

end LuaCompact
