import LuaCompact.Proofs.Factorisation
import LuaCompact.Proofs.Flow
import LuaCompact.Proofs.Utf8Cut

namespace LuaCompact

open Utf8

theorem isAscii_of_isGap {b : UInt8} (gap : isGap b) : IsAscii b := by
  simp only [isGap, Bool.or_eq_true, decide_eq_true_eq] at gap
  rcases gap with (((rfl | rfl) | rfl) | rfl) | rfl <;> decide

theorem isAscii_of_isEdge {b : UInt8} (edge : isEdge b) : IsAscii b := by
  rcases Bool.or_eq_true_iff.mp edge with gap | vt
  · exact isAscii_of_isGap gap
  · rw [of_decide_eq_true vt]
    decide

namespace Token

theorem isAscii_of_isQuote {b : UInt8} (quote : isQuote b) : IsAscii b := by
  simp only [isQuote, Bool.or_eq_true, decide_eq_true_eq] at quote
  rcases quote with rfl | rfl <;> decide

theorem EndsLine.isAscii {rest : Bytes} (ends : EndsLine rest) : ∀ b ∈ rest.head?, IsAscii b := by
  intro b hb
  rw [ends b hb]
  decide

theorem Quoted.exists_concat_or_endsLine {quote : UInt8} {text rest : Bytes}
    (units : Quoted quote text rest) : (∃ inner, text = inner ++ [quote]) ∨ EndsLine rest := by
  induction units with
  | close => exact .inl ⟨[], rfl⟩
  | lineEnd => exact .inr (by simp [EndsLine])
  | textEnd | dangling => exact .inr (by simp [EndsLine])
  | @escape a _ _ _ _ ih =>
    refine ih.imp_left ?_
    rintro ⟨inner, h⟩
    exact ⟨Byte.backslash :: a :: inner, by simp [h]⟩
  | @escapeBreak a b _ _ _ _ ih =>
    refine ih.imp_left ?_
    rintro ⟨inner, h⟩
    exact ⟨Byte.backslash :: a :: b :: inner, by simp [h]⟩
  | @plain c _ _ _ _ _ _ ih =>
    refine ih.imp_left ?_
    rintro ⟨inner, h⟩
    exact ⟨c :: inner, by simp [h]⟩

end Token

theorem Bracket.Spans.meets {body : Body} {rest : Bytes} (spans : Spans body rest) :
    Meets body.bytes rest := by
  cases spans with
  | @closed level text =>
    have last : Body.bytes ⟨level, text, true⟩ =
        opener level ++ text ++ Byte.closeBracket :: List.replicate level Byte.equals ++
          [Byte.closeBracket] := by simp [Body.bytes, closer]
    rw [last]
    exact meets_concat (by decide) _ _
  | unclosed => exact .inr (by simp)

namespace Token

/-- A comment or a literal starts with a character of one byte, and ends with one or before one. -/
theorem Starts.meets {first : Bool} {tok : Token} {rest : Bytes} (starts : Starts first tok rest)
    (solid : ∀ b, tok ≠ Token.code b) :
    (∀ b ∈ tok.bytes.head?, IsAscii b) ∧ Meets tok.bytes rest := by
  cases starts with
  | shebang _ mark _ ends =>
    obtain ⟨line, rfl⟩ := mark
    refine ⟨?_, .inr ends.isAscii⟩
    rw [bytes, List.head?_append_of_ne_nil _ (by decide)]
    exact isAscii_head (by decide) _
  | @blockComment body _ spans =>
    obtain ⟨tail, hb⟩ := body.exists_bytes_eq_cons
    exact ⟨isAscii_head (b := Byte.dash) (by decide) _,
      spans.meets.append_left (by simp [hb]) commentMark⟩
  | lineComment _ _ ends => exact ⟨isAscii_head (b := Byte.dash) (by decide) _, .inr ends.isAscii⟩
  | @shortString quote text _ hq units =>
    refine ⟨isAscii_head (isAscii_of_isQuote hq) text, ?_⟩
    rcases units.exists_concat_or_endsLine with ⟨inner, rfl⟩ | ends
    · exact meets_concat (isAscii_of_isQuote hq) (quote :: inner) _
    · exact .inr ends.isAscii
  | @longString body _ spans =>
    obtain ⟨tail, hb⟩ := body.exists_bytes_eq_cons
    refine ⟨?_, spans.meets⟩
    rw [bytes, hb]
    exact isAscii_head (by decide) tail
  | code => exact absurd rfl (solid _)

/-- A comment or a literal is cut out of a text without dividing a character. -/
theorem Starts.isValid_append {first : Bool} {tok : Token} {rest : Bytes}
    (starts : Starts first tok rest) (solid : ∀ b, tok ≠ Token.code b) {before : Bytes}
    (valid : isValid (before ++ (tok.bytes ++ rest))) :
    isValid before ∧ isValid tok.bytes ∧ isValid rest := by
  obtain ⟨head, meet⟩ := starts.meets solid
  have first := Meets.append_right (s := before) (.inr head) (bytes_ne_nil starts) rest
  obtain ⟨left, right⟩ := (isValid_append_iff first).mp valid
  exact ⟨left, (isValid_append_iff meet).mp right⟩

end Token

namespace Segment

theorem isValid_separator (body : Bracket.Body) : isValid (separator body) := by
  unfold separator
  split
  · split <;> exact isValid_of_isAscii (List.forall_mem_singleton.mpr (by decide))
  · exact isValid_nil

theorem isValid_consCode {t : Bytes} {segs : List Segment} (ht : isValid t)
    (valid : ∀ seg ∈ segs, isValid seg.text) : ∀ seg ∈ consCode t segs, isValid seg.text := by
  unfold consCode
  split
  next u segs =>
    obtain ⟨hu, later⟩ := List.forall_mem_cons.mp valid
    exact List.forall_mem_cons.mpr ⟨isValid_append ht hu, later⟩
  next =>
    split
    · exact valid
    · exact List.forall_mem_cons.mpr ⟨ht, valid⟩

/-- Bytes of code become a segment one by one, so that a character is whole only together with the
code `before` that has been read. -/
theorem isValid_ofTokens {first : Bool} {s : Bytes} {ts : List Token}
    (factors : Token.Factors first s ts) {before : Bytes} (valid : isValid (before ++ s)) :
    ∀ seg ∈ consCode before (ofTokens ts), isValid seg.text := by
  induction factors generalizing before with
  | nil => exact isValid_consCode (by simpa using valid) (by simp [ofTokens])
  | @cons first tok rest ts starts tail ih =>
    have literal {t : Bytes} (whole : isValid before ∧ isValid t ∧ isValid rest) :
        ∀ seg ∈ consCode before (Segment.literal t :: ofTokens ts), isValid seg.text := by
      have later := @ih [] (by simpa using whole.2.2)
      rw [consCode_nil] at later
      exact isValid_consCode whole.1 (List.forall_mem_cons.mpr ⟨whole.2.1, later⟩)
    cases tok with
    | shebang | shortString | longString => exact literal (starts.isValid_append (by simp) valid)
    | blockComment body =>
      obtain ⟨hb, -, hr⟩ := starts.isValid_append (by simp) valid
      rw [ofTokens, consCode_consCode]
      exact ih (isValid_append (isValid_append hb (isValid_separator body)) hr)
    | lineComment =>
      obtain ⟨hb, -, hr⟩ := starts.isValid_append (by simp) valid
      exact ih (isValid_append hb hr)
    | code b =>
      rw [ofTokens, consCode_consCode]
      exact ih (by simpa [Token.bytes] using valid)

theorem keepPieces_sublist (ownsStart ownsEnd : Bool) (ps : List Bytes) :
    (keepPieces ownsStart ownsEnd ps).Sublist ps := by
  fun_induction keepPieces ownsStart ownsEnd ps with
  | case1 => exact List.Sublist.refl _
  | case2 => exact List.nil_sublist _
  | case3 => exact List.Sublist.refl _
  | case4 _ _ _ _ _ ih => exact ih.cons _
  | case5 _ _ _ _ _ ih => exact ih.cons_cons _

theorem isValid_lines {t : Bytes} (valid : isValid t) : ∀ line ∈ Bytes.lines t, isValid line := by
  rwa [← isValid_joinLines_iff, Atom.joinLines_lines]

theorem isValid_ofCode {t : Bytes} (valid : isValid t) : ∀ seg ∈ ofCode t, isValid seg.text := by
  unfold ofCode
  split
  · simp
  · simpa [text] using valid

theorem isValid_dropBlankFrom (first : Bool) {segs : List Segment}
    (valid : ∀ seg ∈ segs, isValid seg.text) :
    ∀ seg ∈ dropBlankFrom first segs, isValid seg.text := by
  induction segs generalizing first with
  | nil => simp [dropBlankFrom]
  | cons seg segs ih =>
    obtain ⟨here, later⟩ := List.forall_mem_cons.mp valid
    cases seg with
    | literal t => exact List.forall_mem_cons.mpr ⟨here, ih false later⟩
    | code t =>
      have kept : isValid (dropBlankPieces first segs.isEmpty t) := by
        refine (isValid_joinLines_iff _).mpr fun piece mem => ?_
        exact isValid_lines here piece ((keepPieces_sublist _ _ _).subset mem)
      exact List.forall_mem_append.mpr ⟨isValid_ofCode kept, ih false later⟩

end Segment

namespace LineStrip

/-- The markers of comments. -/
def IsMark (mark : Bytes) : Prop :=
  mark = blockOpener ∨ mark = blockCloser ∨ mark = Token.commentMark

theorem IsMark.ne_nil {mark : Bytes} (known : IsMark mark) : mark ≠ [] := by
  rcases known with rfl | rfl | rfl
  · simp [blockOpener_eq]
  · simp [blockCloser_eq]
  · simp [Token.commentMark]

theorem IsMark.isAscii {mark : Bytes} (known : IsMark mark) : ∀ b ∈ mark, IsAscii b := by
  have ascii : mark.all fun b => decide (IsAscii b) := by
    rcases known with rfl | rfl | rfl
    · rw [blockOpener_eq]
      decide
    · rw [blockCloser_eq]
      decide
    · decide
  simpa using ascii

/-- A marker is cut out of a line without dividing a character. -/
theorem isValid_of_cut {mark line before after : Bytes} (known : IsMark mark)
    (valid : isValid line) (found : Bytes.cut mark line = some (before, after)) :
    isValid before ∧ isValid after := by
  obtain ⟨rfl, -⟩ := Bytes.upToFirst_of_cut found
  rw [List.append_assoc] at valid
  have head : Meets before mark := .inr fun b hb => known.isAscii b (List.mem_of_head? hb)
  obtain ⟨left, right⟩ := (isValid_append_iff (head.append_right known.ne_nil after)).mp valid
  exact ⟨left, (isValid_append_iff_right (isValid_of_isAscii known.isAscii) after).mp right⟩

theorem isValid_line_step (inside : Bool) {line : Bytes} (valid : isValid line) :
    isValid (step inside line).line := by
  have cutCloser {s before after : Bytes} (hs : isValid s)
      (found : Bytes.cut blockCloser s = some (before, after)) : isValid after :=
    (isValid_of_cut (.inr (.inl rfl)) hs found).2
  have left {rest : Bytes} (h : leaveBlock inside line = some rest) : isValid rest := by
    unfold leaveBlock at h
    split at h
    · obtain ⟨⟨before, after⟩, found, rfl⟩ := Option.map_eq_some_iff.mp h
      exact cutCloser valid found
    · exact Option.some.inj h ▸ valid
  have dropped {rest : Bytes} (hr : isValid rest) : isValid (dropBlock rest).1 := by
    unfold dropBlock
    split
    next => exact hr
    next before after opened =>
      have parts := isValid_of_cut (.inl rfl) hr opened
      split
      next closed => exact isValid_append parts.1 (cutCloser parts.2 closed)
      next => exact parts.1
  have uncommented {rest : Bytes} (hr : isValid rest) : isValid (dropLineComment rest) := by
    unfold dropLineComment
    split
    next found => exact (isValid_of_cut (.inr (.inr rfl)) hr found).1
    next => exact hr
  unfold step
  split
  next => exact isValid_nil
  next rest h =>
    simp only
    split
    · exact dropped (left h)
    · exact uncommented (dropped (left h))

theorem isValid_steps (inside : Bool) {ls : List Bytes} (valid : ∀ line ∈ ls, isValid line) :
    ∀ step ∈ steps inside ls, isValid step.line := by
  induction ls generalizing inside with
  | nil => simp [steps]
  | cons line ls ih =>
    obtain ⟨here, later⟩ := List.forall_mem_cons.mp valid
    exact List.forall_mem_cons.mpr ⟨isValid_line_step inside here, ih _ later⟩

end LineStrip

theorem isValid_strip (policy : Policy) {s : Bytes} (valid : isValid s) :
    ∀ seg ∈ strip policy s, isValid seg.text := by
  have aware : ∀ seg ∈ stripLiteralAware s, isValid seg.text := by
    have cut : ∀ seg ∈ Segment.consCode [] (Segment.ofTokens (Token.lex s)), isValid seg.text :=
      Segment.isValid_ofTokens (Token.factors_lex s) valid
    rw [Segment.consCode_nil] at cut
    exact Segment.isValid_dropBlankFrom true cut
  cases policy with
  | literal | unnamed => exact aware
  | faithful =>
    refine Segment.isValid_ofCode ((isValid_joinLines_iff _).mpr ?_)
    intro line mem
    obtain ⟨step, kept, rfl⟩ := List.mem_map.mp mem
    have lines := Segment.isValid_lines valid
    exact LineStrip.isValid_steps false lines step (List.mem_of_mem_filter kept)

namespace Gap

/-- What stands for a run of white space divides no character, as the run did not, or as a semicolon
stands before it. -/
theorem isValid_append_separator {before run s : Bytes} (gaps : ∀ b ∈ run, isGap b)
    (next : Option UInt8) (valid : isValid (before ++ (run ++ s))) :
    isValid (before ++ (separator before.getLast? run next ++ s)) := by
  have fill : isValid (separator before.getLast? run next) :=
    isValid_of_isAscii fun b hb => isAscii_of_isGap (isGap_of_mem_separator _ _ _ b hb)
  have apart (hb : isValid before) :
      isValid (before ++ (separator before.getLast? run next ++ s)) := by
    have blank : isValid run := isValid_of_isAscii fun b hb => isAscii_of_isGap (gaps b hb)
    have hs := (isValid_append_iff_right blank s).mp ((isValid_append_iff_right hb _).mp valid)
    exact isValid_append hb (isValid_append fill hs)
  by_cases semicolon : before.getLast? = some Byte.semicolon
  · have ends : Meets before (run ++ s) := by
      left
      rw [semicolon]
      exact isAscii_head (by decide) []
    exact apart ((isValid_append_iff ends).mp valid).1
  · cases run with
    | nil => simpa [separator, semicolon] using valid
    | cons b run => exact apart (isValid_of_append_cons (isAscii_of_isGap (gaps b (by simp))) valid)

theorem isValid_append_respace {before run s : Bytes} (gaps : ∀ b ∈ run, isGap b)
    (valid : isValid (before ++ (run ++ s))) :
    isValid (before ++ respace separator before.getLast? run s) := by
  induction s generalizing before run with
  | nil => simpa [respace] using isValid_append_separator gaps none valid
  | cons c s ih =>
    rw [respace]
    split
    next gap =>
      refine ih ?_ (by simpa using valid)
      simpa [or_imp, forall_and, gap] using gaps
    next =>
      have filled := isValid_append_separator gaps (some c) valid
      have later := @ih (before ++ separator before.getLast? run (some c) ++ [c]) [] (by simp)
        (by simpa using filled)
      simpa using later

theorem isValid_tighten {s : Bytes} (valid : isValid s) : isValid (tighten s) := by
  rw [tighten_eq_respace]
  exact @isValid_append_respace [] [] s (by simp) valid

theorem isValid_trimStart {s : Bytes} (valid : isValid s) : isValid (trimStart s) := by
  have edges : isValid (s.takeWhile isEdge) :=
    isValid_of_isAscii fun b hb => isAscii_of_isEdge (List.mem_takeWhile_imp hb)
  rw [← List.takeWhile_append_dropWhile (p := isEdge) (l := s)] at valid
  exact (isValid_append_iff_right edges _).mp valid

theorem isValid_trimEnd {s : Bytes} (valid : isValid s) : isValid (trimEnd s) := by
  have whole : s = trimEnd s ++ (s.reverse.takeWhile isEdge).reverse := by
    rw [trimEnd, ← List.reverse_append, List.takeWhile_append_dropWhile, List.reverse_reverse]
  have meet : Meets (trimEnd s) (s.reverse.takeWhile isEdge).reverse := by
    refine .inr fun b hb => isAscii_of_isEdge (List.mem_takeWhile_imp (l := s.reverse) ?_)
    exact List.mem_reverse.mp (List.mem_of_head? hb)
  rw [whole] at valid
  exact ((isValid_append_iff meet).mp valid).1

theorem isValid_normalizeFrom (first : Bool) {segs : List Segment}
    (valid : ∀ seg ∈ segs, isValid seg.text) : isValid (normalizeFrom first segs) := by
  induction segs generalizing first with
  | nil => exact isValid_nil
  | cons seg segs ih =>
    obtain ⟨here, later⟩ := List.forall_mem_cons.mp valid
    cases seg with
    | literal t => exact isValid_append here (ih false later)
    | code t =>
      have tightened := isValid_tighten here
      have started : isValid (if first then trimStart (tighten t) else tighten t) := by
        split
        · exact isValid_trimStart tightened
        · exact tightened
      refine isValid_append ?_ (ih false later)
      split
      · exact isValid_trimEnd started
      · exact started

end Gap

theorem isValid_minify (policy : Policy) {s : Bytes} (valid : isValid s) :
    isValid (minify policy s) :=
  Gap.isValid_normalizeFrom true (isValid_strip policy valid)

end LuaCompact
