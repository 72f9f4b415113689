import LuaCompact.Proofs.WideSpace

namespace LuaCompact

namespace Token

theorem eq_code_of_atoms {tok : Token} {c : UInt8} (h : tok.atoms = [.code c])
    (solid : ¬ isGap c) : tok = code c := by
  cases tok with
  | shebang | shortString | longString | lineComment => simp [atoms] at h
  | blockComment =>
    have space : (Atom.code c).isSpace :=
      Atom.isSpace_of_mem_blockComment (h ▸ List.mem_singleton_self _)
    exact absurd space solid
  | code b => rw [Atom.code.inj (List.singleton_inj.mp h)]

/-- Bytes without white space that tokens leave behind at the start of a text start the text: a
comment that leaves nothing has the end of a line behind it. -/
theorem prefix_of_prefix_ofTokens {first : Bool} {s : Bytes} {ts : List Token}
    (factors : Factors first s ts) {u : Bytes} (solid : ∀ b ∈ u, ¬ isGap b)
    (start : u.map Atom.code <+: Atom.ofTokens ts) : u <+: s := by
  induction factors generalizing u with
  | nil =>
    rw [List.map_eq_nil_iff.mp (List.prefix_nil.mp start)]
  | @cons first tok rest ts starts tail ih =>
    cases u with
    | nil => exact List.nil_prefix
    | cons b u =>
      have hb : ¬ isGap b := solid b (by simp)
      rcases tok.atoms_eq_nil_or with gone | ⟨a, hatoms⟩
      · rw [Atom.ofTokens_cons, gone, List.nil_append] at start
        obtain ⟨after, whole⟩ := start
        have ends := endsLine_of_atoms_eq_nil starts gone
        have feed : Atom.code b = .lineFeed :=
          Atom.eq_lineFeed_of_endsLine tail ends (by simp [← whole])
        rw [Atom.code.inj feed] at hb
        exact absurd (by decide) hb
      · rw [Atom.ofTokens_cons_of_atoms hatoms] at start
        obtain ⟨rfl, later⟩ := List.cons_prefix_cons.mp start
        rw [eq_code_of_atoms hatoms hb]
        exact List.cons_prefix_cons.mpr ⟨rfl, ih (fun d hd => solid d (by simp [hd])) later⟩

/-- Bytes without white space that stand in no source where a byte of code starts. -/
structure Foreign (mark : Bytes) : Prop where
  ne_nil : mark ≠ []
  solid : ∀ b ∈ mark, ¬ isGap b
  unstarted : ∀ {first c rest}, Starts first (code c) rest → ¬ mark <+: c :: rest

theorem foreign_commentMark : Foreign commentMark where
  ne_nil := by simp [commentMark]
  solid b hb := by
    obtain rfl : b = Byte.dash := by simpa [commentMark] using hb
    decide
  unstarted starts := by
    cases starts with
    | code _ plain => exact plain

theorem foreign_quote {q : UInt8} (quote : isQuote q) : Foreign [q] where
  ne_nil := by simp
  solid b hb := by
    rw [List.mem_singleton.mp hb]
    exact fun gap => Atom.not_isQuote_of_isGap gap quote
  unstarted starts start := by
    cases starts with
    | code _ _ unquoted =>
      rw [(List.cons_prefix_cons.mp start).1] at quote
      exact unquoted quote

theorem foreign_opener (level : Nat) : Foreign (Bracket.opener level) where
  ne_nil := by simp [Bracket.opener]
  solid b hb := by
    simp only [Bracket.opener, List.mem_cons, List.mem_append, List.mem_replicate,
      List.not_mem_nil, or_false] at hb
    rcases hb with rfl | ⟨_, rfl⟩ | rfl <;> decide
  unstarted starts := by
    cases starts with
    | code _ _ _ absent => exact absent level

/-- Tokens leave no foreign mark in code, not even by taking out what divided it. -/
theorem Foreign.not_infix_ofTokens {mark : Bytes} (foreign : Foreign mark) {first : Bool}
    {s : Bytes} {ts : List Token} (factors : Factors first s ts) :
    ¬ mark.map Atom.code <:+: Atom.ofTokens ts := by
  obtain ⟨c, u, rfl⟩ := List.exists_cons_of_ne_nil foreign.ne_nil
  induction factors with
  | nil => simp [Atom.ofTokens]
  | @cons first tok rest ts starts tail ih =>
    rcases tok.atoms_eq_nil_or with gone | ⟨a, hatoms⟩
    · rwa [Atom.ofTokens_cons, gone, List.nil_append]
    · intro inside
      rw [Atom.ofTokens_cons_of_atoms hatoms] at inside
      rcases List.infix_cons_iff.mp inside with start | inside
      · obtain ⟨rfl, _⟩ := List.cons_prefix_cons.mp start
        obtain rfl := eq_code_of_atoms hatoms (foreign.solid c (by simp))
        have whole := prefix_of_prefix_ofTokens (.cons starts tail) foreign.solid start
        exact foreign.unstarted starts whole
      · exact ih inside

/-- Dropping blank lines brings no foreign mark into code either: a line break stays between lines. -/
theorem Foreign.not_infix_strip {mark : Bytes} (foreign : Foreign mark) {s t : Bytes}
    (mem : Segment.code t ∈ stripLiteralAware s) : ¬ mark <:+: t := by
  intro inside
  have separated := Segment.separated_ofTokens (lex s)
  have same : Atom.ofSegments (stripLiteralAware s) = Atom.dropBlank (Atom.ofTokens (lex s)) := by
    rw [stripLiteralAware, Segment.ofSegments_dropBlankLines separated, Segment.ofSegments_ofTokens]
  have whole : t.map Atom.code <:+: Atom.ofSegments (stripLiteralAware s) :=
    List.infix_of_mem_flatten (List.mem_map_of_mem mem)
  have free : Atom.lineFeed ∉ mark.map Atom.code := by
    intro feed
    obtain ⟨b, hb, h⟩ := List.mem_map.mp feed
    rw [Atom.code.inj h] at hb
    exact absurd (by decide) (foreign.solid Byte.lf hb)
  rw [same] at whole
  refine foreign.not_infix_ofTokens (factors_lex s) (Atom.infix_of_infix_dropBlank ?_ free ?_)
  · simpa using foreign.ne_nil
  · exact (inside.map Atom.code).trans whole

end Token

namespace Gap

/-- A pass over white space brings in nothing but white space. -/
theorem mem_respace {prev : Option UInt8} {run s : Bytes} {b : UInt8}
    (mem : b ∈ respace separator prev run s) : isGap b ∨ b ∈ s := by
  induction s generalizing prev run with
  | nil => exact .inl (isGap_of_mem_separator prev run none b mem)
  | cons c s ih =>
    rw [respace] at mem
    split at mem
    · exact (ih mem).imp_right (List.mem_cons_of_mem c)
    · rcases List.mem_append.mp mem with mem | mem
      · exact .inl (isGap_of_mem_separator prev run (some c) b mem)
      · rcases List.mem_cons.mp mem with rfl | mem
        · exact .inr (by simp)
        · exact (ih mem).imp_right (List.mem_cons_of_mem c)

/-- Two bytes that are not both minus signs. -/
def NotDashes (a b : UInt8) : Prop := ¬ (a = Byte.dash ∧ b = Byte.dash)

theorem isChain_notDashes_iff {s : Bytes} :
    List.IsChain NotDashes s ↔ ¬ Token.commentMark <:+: s := by
  induction s with
  | nil => simp [Token.commentMark]
  | cons c s ih =>
    rw [List.infix_cons_iff, Token.commentMark_prefix_cons_iff, not_or, ← ih, List.isChain_cons]
    refine and_congr_left fun _ => ?_
    cases s <;> simp [NotDashes]

theorem notDashes_of_isGap {a b : UInt8} (gap : isGap a ∨ isGap b) : NotDashes a b := by
  rintro ⟨rfl, rfl⟩
  exact absurd gap (by decide)

theorem isChain_gaps_append {run s : Bytes} (gaps : ∀ b ∈ run, isGap b)
    (chain : List.IsChain NotDashes s) : List.IsChain NotDashes (run ++ s) := by
  induction run with
  | nil => exact chain
  | cons c run ih =>
    exact (ih fun b hb => gaps b (by simp [hb])).cons fun _ _ =>
      notDashes_of_isGap (.inl (gaps c (by simp)))

/-- Of the white space between two minus signs a pass leaves some. -/
theorem isChain_cons_respace {a : UInt8} {run s : Bytes} (gaps : ∀ b ∈ run, isGap b)
    (chain : List.IsChain NotDashes (a :: (run ++ s))) :
    List.IsChain NotDashes (a :: respace separator (some a) run s) := by
  induction s generalizing a run with
  | nil =>
    have filled := isGap_of_mem_separator (some a) run none
    have spaces := isChain_gaps_append filled .nil
    rw [List.append_nil] at spaces
    exact spaces.cons fun b hb => notDashes_of_isGap (.inr (filled b (List.mem_of_mem_head? hb)))
  | cons c s ih =>
    by_cases gap : isGap c
    · rw [respace, if_pos gap]
      exact ih (Atom.isGap_of_mem_concat gaps gap) (by simpa using chain)
    · have rest := chain.infix ⟨a :: run, [], List.append_nil _⟩
      have tail := ih (List.forall_mem_nil _) rest
      have filled := isGap_of_mem_separator (some a) run (some c)
      rw [respace, if_neg gap]
      refine (isChain_gaps_append filled tail).cons fun b hb => ?_
      cases hsep : separator (some a) run (some c) with
      | cons d sep =>
        rw [hsep] at hb filled
        obtain rfl := Option.some.inj hb
        exact notDashes_of_isGap (.inr (filled d (by simp)))
      | nil =>
        rw [hsep] at hb
        obtain rfl := Option.some.inj hb
        cases run with
        | nil => exact chain.rel
        | cons d run => simpa [NotDashes] using (separator_eq_nil (by simp) hsep).1

theorem isChain_respace {run s : Bytes} (chain : List.IsChain NotDashes s) :
    List.IsChain NotDashes (respace separator none run s) := by
  induction s generalizing run with
  | nil =>
    have spaces := isChain_gaps_append (isGap_of_mem_separator none run none) .nil
    rwa [List.append_nil] at spaces
  | cons c s ih =>
    rw [respace]
    split
    · exact ih chain.tail
    · exact isChain_gaps_append (isGap_of_mem_separator none run (some c))
        (isChain_cons_respace (by simp) chain)

end Gap

/-- No mark of a literal or a comment is in the code that is left, and the four rules bring in no
quote and no comment mark. -/
theorem strip_literal_free_of_marks {s t : Bytes} (mem : Segment.code t ∈ strip .literal s) :
    ((∀ b ∈ t, ¬ Token.isQuote b) ∧ ¬ Token.commentMark <:+: t ∧
        ∀ level, ¬ Bracket.opener level <:+: t) ∧
      (∀ b ∈ Gap.tighten t, ¬ Token.isQuote b) ∧ ¬ Token.commentMark <:+: Gap.tighten t := by
  have uncommented := Token.foreign_commentMark.not_infix_strip mem
  have unquoted (b : UInt8) (hb : b ∈ t) : ¬ Token.isQuote b := by
    intro quote
    exact (Token.foreign_quote quote).not_infix_strip mem ((List.singleton_infix_iff b t).mpr hb)
  refine ⟨⟨unquoted, uncommented, fun level => (Token.foreign_opener level).not_infix_strip mem⟩, ?_⟩
  rw [Gap.tighten_eq_respace]
  constructor
  · intro b hb
    rcases Gap.mem_respace hb with gap | hb
    · exact Atom.not_isQuote_of_isGap gap
    · exact unquoted b hb
  · rw [← Gap.isChain_notDashes_iff] at uncommented ⊢
    exact Gap.isChain_respace uncommented

/-- Minus signs, and halves of a long bracket, with comments, a blank line and white space between. -/
theorem strip_literal_free_of_marks_sample :
    Segment.code (utf8 "a = - \n- -b [= \n[ c") ∈
        strip .literal (utf8 "a = - --x\n\t\n- -b [=--[[ ]]\n[ c'--'") ∧
      ¬ Bracket.opener 1 <:+: utf8 "a = - \n- -b [= \n[ c" ∧
      Gap.tighten (utf8 "a = - \n- -b [= \n[ c") = utf8 "a=-\n- -b [=\n[ c" ∧
      ¬ Token.commentMark <:+: utf8 "a=-\n- -b [=\n[ c" := by
  have mem : Segment.code (utf8 "a = - \n- -b [= \n[ c") ∈
      strip .literal (utf8 "a = - --x\n\t\n- -b [=--[[ ]]\n[ c'--'") := by decide +kernel
  have tight : Gap.tighten (utf8 "a = - \n- -b [= \n[ c") = utf8 "a=-\n- -b [=\n[ c" := by
    decide +kernel
  obtain ⟨⟨_, _, unopened⟩, _, uncommented⟩ := strip_literal_free_of_marks mem
  rw [tight] at uncommented
  exact ⟨mem, unopened 1, tight, uncommented⟩

end LuaCompact
