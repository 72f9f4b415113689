import LuaCompact.Token
import LuaCompact.Proofs.LongBracket

namespace LuaCompact

namespace Token

/-- Two bytes that are one line break together. -/
def IsBreakPair (a b : UInt8) : Prop :=
  (a = Byte.cr ∧ b = Byte.lf) ∨ (a = Byte.lf ∧ b = Byte.cr)

/-- What a line can end before: a line feed, or the end of the text. -/
def EndsLine (rest : Bytes) : Prop := ∀ c ∈ rest.head?, c = Byte.lf

/-- The units of a short string behind its opening quote, up to the text `rest`. A backslash goes
with the next byte, with both bytes of a line break of two, or alone if the text ends there. -/
inductive Quoted (quote : UInt8) : Bytes → Bytes → Prop
  | close (rest) : Quoted quote [quote] rest
  | lineEnd (rest) : Quoted quote [] (Byte.lf :: rest)
  | textEnd : Quoted quote [] []
  | dangling : Quoted quote [Byte.backslash] []
  | escape {a text rest} : (∀ b ∈ (text ++ rest).head?, ¬ IsBreakPair a b) →
    Quoted quote text rest → Quoted quote (Byte.backslash :: a :: text) rest
  | escapeBreak {a b text rest} : IsBreakPair a b →
    Quoted quote text rest → Quoted quote (Byte.backslash :: a :: b :: text) rest
  | plain {c text rest} : c ≠ Byte.backslash → c ≠ quote → c ≠ Byte.lf →
    Quoted quote text rest → Quoted quote (c :: text) rest

/-- The token that a text starts with when `rest` follows it, `first` where the text is the whole
source. A byte is code only if nothing else starts there. -/
inductive Starts (first : Bool) : Token → Bytes → Prop
  | shebang {line rest} : first = true → shebangMark <+: line → Byte.lf ∉ line → EndsLine rest →
    Starts first (shebang line) rest
  | blockComment {body rest} : Bracket.Spans body rest → Starts first (blockComment body) rest
  | lineComment {text rest} : (∀ level, ¬ Bracket.opener level <+: text ++ rest) →
    Byte.lf ∉ text → EndsLine rest → Starts first (lineComment text) rest
  | shortString {quote text rest} : isQuote quote → Quoted quote text rest →
    Starts first (shortString (quote :: text)) rest
  | longString {body rest} : Bracket.Spans body rest → Starts first (longString body) rest
  | code {c rest} : ¬ (first = true ∧ shebangMark <+: c :: rest) → ¬ commentMark <+: c :: rest →
    ¬ isQuote c → (∀ level, ¬ Bracket.opener level <+: c :: rest) → Starts first (code c) rest

/-- A text as one token after the other. -/
inductive Factors : Bool → Bytes → List Token → Prop
  | nil {first} : Factors first [] []
  | cons {first tok rest ts} : Starts first tok rest → Factors false rest ts →
    Factors first (tok.bytes ++ rest) (tok :: ts)

theorem escapedLength_eq_two_iff (a b : UInt8) (r : Bytes) :
    escapedLength (a :: b :: r) = 2 ↔ IsBreakPair a b := by
  have known : escapedLength (a :: b :: r) = 2 ↔
      (a = Byte.lf ∨ a = Byte.cr) ∧ (b = Byte.lf ∨ b = Byte.cr) ∧ a ≠ b := by
    simp [escapedLength, isBreak, and_assoc]
  rw [known]
  constructor
  · rintro ⟨rfl | rfl, rfl | rfl, distinct⟩
    · exact absurd rfl distinct
    · exact .inr ⟨rfl, rfl⟩
    · exact .inl ⟨rfl, rfl⟩
    · exact absurd rfl distinct
  · rintro (⟨rfl, rfl⟩ | ⟨rfl, rfl⟩) <;> decide

theorem ne_of_isQuote {quote c : UInt8} (h : isQuote quote) (hc : isQuote c = false) :
    quote ≠ c := by
  rintro rfl
  simp [h] at hc

theorem quoted_of_quoted {quote : UInt8} {text rest : Bytes} (hq : isQuote quote)
    (h : Quoted quote text rest) : quoted quote (text ++ rest) = (text, rest) := by
  have hback : quote ≠ Byte.backslash := ne_of_isQuote hq (by decide)
  have hline : quote ≠ Byte.lf := ne_of_isQuote hq (by decide)
  induction h with
  | close => rw [quoted.eq_def]; simp [hback]
  | lineEnd => rw [quoted.eq_def]; simp [hline.symm, show Byte.lf ≠ Byte.backslash by decide]
  | textEnd => rfl
  | dangling => rfl
  | @escape a text rest alone tail ih =>
    rw [quoted.eq_def]
    cases hs : text ++ rest with
    | nil => simp_all
    | cons b r =>
      have single : ¬ escapedLength (a :: b :: r) = 2 := by
        rw [escapedLength_eq_two_iff]
        exact alone b (by simp [hs])
      rw [hs] at ih
      simp [hs, single, ih]
  | @escapeBreak a b text rest pair tail ih =>
    have double := (escapedLength_eq_two_iff a b (text ++ rest)).mpr pair
    rw [quoted.eq_def]
    simp [double, ih]
  | plain hb hq hl tail ih => rw [quoted.eq_def]; simp [hb, hq, hl, ih]

theorem quoted_quoted (quote : UInt8) (s : Bytes) :
    Quoted quote (quoted quote s).1 (quoted quote s).2 ∧
      s = (quoted quote s).1 ++ (quoted quote s).2 := by
  fun_induction quoted quote s with
  | case1 => exact ⟨.textEnd, rfl⟩
  | case2 => exact ⟨.dangling, rfl⟩
  | case3 a => exact ⟨.escape (by simp) .textEnd, rfl⟩
  | case4 a b r double text rest hr ih =>
    obtain ⟨tail, hs⟩ := hr ▸ ih
    exact ⟨.escapeBreak ((escapedLength_eq_two_iff a b r).mp double) tail, by simp [hs]⟩
  | case5 a b r single text rest hr ih =>
    obtain ⟨tail, hs⟩ := hr ▸ ih
    refine ⟨.escape ?_ tail, by simp [hs]⟩
    intro c hc pair
    simp only [← hs, List.head?_cons, Option.mem_some_iff] at hc
    exact single ((escapedLength_eq_two_iff a b r).mpr (hc ▸ pair))
  | case6 s => exact ⟨.close s, rfl⟩
  | case7 s => exact ⟨.lineEnd s, rfl⟩
  | case8 c s hb hq hl text rest hr ih =>
    obtain ⟨tail, hs⟩ := hr ▸ ih
    exact ⟨.plain hb hq hl tail, by simp [hs]⟩

/-- A line is the longest run before a line feed. -/
theorem takeWhile_append_of_endsLine {line rest : Bytes} (h : Byte.lf ∉ line)
    (ends : EndsLine rest) :
    (line ++ rest).takeWhile (· != Byte.lf) = line ∧
      (line ++ rest).dropWhile (· != Byte.lf) = rest := by
  have run : ∀ b ∈ line, (b != Byte.lf) = true := by
    intro b hb
    simpa using fun he : b = Byte.lf => h (he ▸ hb)
  rw [List.takeWhile_append_of_pos run, List.dropWhile_append_of_pos run]
  cases rest with
  | nil => simp
  | cons c rest => simp [ends c (by simp)]

theorem endsLine_dropWhile (s : Bytes) : EndsLine (s.dropWhile (· != Byte.lf)) := by
  intro c hc
  have := List.head?_dropWhile_not (· != Byte.lf) s
  simp_all

theorem lf_notMem_takeWhile (s : Bytes) : Byte.lf ∉ s.takeWhile (· != Byte.lf) := by
  intro mem
  simpa using List.mem_takeWhile_imp mem

theorem starts_comment (s : Bytes) :
    Starts false (comment s).1 (comment s).2 ∧
      commentMark ++ s = (comment s).1.bytes ++ (comment s).2 := by
  unfold comment
  split
  next body rest read =>
    obtain ⟨spans, rfl⟩ := Bracket.read?_eq_some_iff.mp read
    exact ⟨.blockComment spans, by simp [bytes]⟩
  next missing =>
    refine ⟨.lineComment ?_ (lf_notMem_takeWhile s) (endsLine_dropWhile s), ?_⟩
    · rw [List.takeWhile_append_dropWhile]
      exact Bracket.read?_eq_none_iff.mp missing
    · simp [bytes, List.takeWhile_append_dropWhile]

theorem commentMark_prefix_cons_iff {c : UInt8} {s : Bytes} :
    commentMark <+: c :: s ↔ c = Byte.dash ∧ s.head? = some Byte.dash := by
  cases s <;> simp [commentMark, List.cons_prefix_cons, eq_comm]

theorem starts_next (c : UInt8) (s : Bytes) :
    Starts false (next c s).1 (next c s).2 ∧ c :: s = (next c s).1.bytes ++ (next c s).2 := by
  unfold next
  split
  next dashes =>
    obtain ⟨starts, same⟩ := starts_comment s.tail
    refine ⟨starts, ?_⟩
    obtain ⟨tail, rfl⟩ := List.head?_eq_some_iff.mp dashes.2
    rw [← same, dashes.1]
    rfl
  next plain =>
    split
    next quote =>
      obtain ⟨units, same⟩ := quoted_quoted c s
      exact ⟨.shortString quote units, by simp [bytes, ← same]⟩
    next unquoted =>
      split
      next body rest read =>
        obtain ⟨spans, same⟩ := Bracket.read?_eq_some_iff.mp read
        exact ⟨.longString spans, by simp [bytes, same]⟩
      next missing =>
        refine ⟨.code (by simp) ?_ unquoted (Bracket.read?_eq_none_iff.mp missing), rfl⟩
        rwa [commentMark_prefix_cons_iff]

theorem comment_of_starts {tok : Token} {s rest : Bytes} (starts : Starts false tok rest)
    (same : commentMark ++ s = tok.bytes ++ rest) : comment s = (tok, rest) := by
  cases starts with
  | shebang first => simp at first
  | blockComment spans =>
    have read := Bracket.read?_eq_some_iff.mpr ⟨spans, rfl⟩
    simp only [bytes, List.append_assoc, List.append_cancel_left_eq] at same
    simp [comment, same, read]
  | @lineComment text rest absent hline ends =>
    have missing := Bracket.read?_eq_none_iff.mpr absent
    simp only [bytes, List.append_assoc, List.append_cancel_left_eq] at same
    obtain ⟨htake, hdrop⟩ := takeWhile_append_of_endsLine hline ends
    simp [comment, same, missing, htake, hdrop]
  | shortString quote =>
    simp only [bytes, List.cons_append, commentMark, List.cons.injEq] at same
    exact absurd same.1.symm (ne_of_isQuote quote (by decide))
  | @longString body =>
    obtain ⟨tail, hb⟩ := body.exists_bytes_eq_cons
    simp only [bytes, hb, commentMark, List.cons_append, List.cons.injEq] at same
    exact absurd same.1 (by decide)
  | code _ plain =>
    exact absurd ⟨s, same⟩ plain

theorem next_of_starts {tok : Token} {c : UInt8} {s rest : Bytes} (starts : Starts false tok rest)
    (same : c :: s = tok.bytes ++ rest) : next c s = (tok, rest) := by
  by_cases dashes : c = Byte.dash ∧ s.head? = some Byte.dash
  · rw [next, if_pos dashes]
    apply comment_of_starts starts
    obtain ⟨tail, rfl⟩ := List.head?_eq_some_iff.mp dashes.2
    rw [← same, dashes.1]
    rfl
  · rw [next, if_neg dashes]
    rw [← commentMark_prefix_cons_iff, same] at dashes
    cases starts with
    | shebang first => simp at first
    | blockComment => exact absurd (by simp [bytes]) dashes
    | lineComment => exact absurd (by simp [bytes]) dashes
    | shortString quote units =>
      simp only [bytes, List.cons_append, List.cons.injEq] at same
      obtain ⟨rfl, rfl⟩ := same
      simp [quote, quoted_of_quoted quote units]
    | @longString body _ spans =>
      have read := Bracket.read?_eq_some_iff.mpr ⟨spans, same⟩
      obtain ⟨tail, hb⟩ := body.exists_bytes_eq_cons
      simp only [bytes, hb, List.cons_append, List.cons.injEq] at same
      have unquoted : isQuote c = false := by rw [same.1]; decide
      simp [unquoted, read]
    | code _ _ unquoted absent =>
      simp only [bytes, List.cons_append, List.nil_append, List.cons.injEq] at same
      obtain ⟨rfl, rfl⟩ := same
      simp [unquoted, Bracket.read?_eq_none_iff.mpr absent]

end Token

end LuaCompact
