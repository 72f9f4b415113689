import LuaCompact.Proofs.LineEndingInvariance

namespace LuaCompact

theorem Bytes.UpToFirst.not_isInfix {mark text : Bytes} (first : UpToFirst mark text)
    (nonempty : mark ≠ []) : ¬ mark <:+: text := by
  rintro ⟨before, after, rfl⟩
  have none := first before (after ++ mark) (by simp)
  exact nonempty (List.append_eq_nil_iff.mp none).2

/-- A blank text has no ASCII bytes but those of white space. -/
theorem isWhiteSpace_of_isBlank {s : Bytes} (blank : isBlank s) {b : UInt8} (ascii : Utf8.IsAscii b)
    (mem : b ∈ s) : isWhiteSpace (Char.ofNat b.toNat) := by
  rw [← Utf8.join_pieces s] at mem
  obtain ⟨piece, hpiece, hbytes⟩ := List.mem_flatMap.mp mem
  have white := List.all_eq_true.mp blank piece hpiece
  cases piece with
  | stray => simp [Utf8.Piece.isWhiteSpace] at white
  | char c =>
    obtain ⟨a, tail, written⟩ := List.exists_cons_of_ne_nil (Utf8.encode_ne_nil c)
    rw [Utf8.Piece.bytes, written] at hbytes
    rcases List.mem_cons.mp hbytes with rfl | hbytes
    · have itself := Utf8.decode?_encode c []
      rw [written, List.append_nil, Utf8.decode?_one ascii] at itself
      rw [(Prod.mk.inj (Option.some.inj itself)).1]
      exact white
    · exact absurd (Utf8.isTail_of_encode_eq_cons written b hbytes)
        (Utf8.not_isTail_of_isAscii ascii)

namespace LineStrip

/-- A line that is read from the state `inside` opens a block comment behind `before`, its first, and
does not close it. -/
def LeavesOpen (inside : Bool) (line before : Bytes) : Prop :=
  ∃ after, leaveBlock inside line = some (before ++ blockOpener ++ after) ∧
    Bytes.UpToFirst blockOpener before ∧ ¬ blockCloser <:+: after

theorem step_of_leavesOpen {inside : Bool} {line before : Bytes}
    (opens : LeavesOpen inside line before) :
    step inside line = ⟨before, true, !isBlank before⟩ := by
  obtain ⟨after, left, first, unclosed⟩ := opens
  have opened := Bytes.cut_of_upToFirst (by simp [blockOpener_eq]) first after
  have none := (Bytes.cut_eq_none_iff (by simp [blockCloser_eq])).mpr unclosed
  simp only [step, left, dropBlock, opened, none, if_true]

theorem not_infix_dropLineComment (line : Bytes) :
    ¬ Token.commentMark <:+: dropLineComment line := by
  have nonempty : Token.commentMark ≠ [] := by simp [Token.commentMark]
  unfold dropLineComment
  split
  next found => exact (Bytes.upToFirst_of_cut found).2.not_isInfix nonempty
  next none => exact (Bytes.cut_eq_none_iff nonempty).mp none

/-- Only of a line that leaves a block comment open a comment mark can stay: from all other lines the
line comment is taken off. -/
theorem leavesOpen_of_mark {inside : Bool} {line : Bytes}
    (mark : Token.commentMark <:+: (step inside line).line) :
    LeavesOpen inside line (step inside line).line := by
  cases left : leaveBlock inside line with
  | none => simp [step, left, Token.commentMark] at mark
  | some rest =>
    cases opened : Bytes.cut blockOpener rest with
    | none =>
      simp only [step, left, dropBlock, opened, Bool.false_eq_true, if_false] at mark
      exact absurd mark (not_infix_dropLineComment rest)
    | some parts =>
      obtain ⟨before, after⟩ := parts
      cases closed : Bytes.cut blockCloser after with
      | some body =>
        simp only [step, left, dropBlock, opened, closed, Bool.false_eq_true, if_false] at mark
        exact absurd mark (not_infix_dropLineComment _)
      | none =>
        obtain ⟨rfl, first⟩ := Bytes.upToFirst_of_cut opened
        have unclosed := (Bytes.cut_eq_none_iff (by simp [blockCloser_eq])).mp closed
        have opens : LeavesOpen inside line before := ⟨after, left, first, unclosed⟩
        rwa [step_of_leavesOpen opens]

theorem mark_infix_step_iff (inside : Bool) (line : Bytes) :
    Token.commentMark <:+: (step inside line).line ↔
      ∃ before, LeavesOpen inside line before ∧ Token.commentMark <:+: before := by
  constructor
  · exact fun mark => ⟨_, leavesOpen_of_mark mark, mark⟩
  · rintro ⟨before, opens, mark⟩
    rwa [step_of_leavesOpen opens]

/-- The state behind some lines. -/
def insideAfter (inside : Bool) : List Bytes → Bool
  | [] => inside
  | line :: ls => insideAfter (step inside line).inside ls

/-- Each line is stripped from the state that the lines before it leave. -/
theorem mem_steps_iff {inside : Bool} {ls : List Bytes} {st : Step} :
    st ∈ steps inside ls ↔
      ∃ above line below, ls = above ++ line :: below ∧ st = step (insideAfter inside above) line := by
  induction ls generalizing inside with
  | nil => simp [steps]
  | cons line ls ih =>
    rw [steps, List.mem_cons, ih]
    constructor
    · rintro (rfl | ⟨above, next, below, rfl, rfl⟩)
      · exact ⟨[], line, ls, rfl, rfl⟩
      · exact ⟨line :: above, next, below, rfl, rfl⟩
    · rintro ⟨above, next, below, whole, rfl⟩
      cases above with
      | nil =>
        obtain ⟨rfl, rfl⟩ := List.cons.inj whole
        exact .inl rfl
      | cons first above =>
        obtain ⟨rfl, rfl⟩ := List.cons.inj whole
        exact .inr ⟨above, next, below, rfl, rfl⟩

/-- The lines that are kept. -/
def keptLines (s : Bytes) : List Bytes :=
  ((steps false (Bytes.lines s)).filter Step.keep).map Step.line

theorem mem_keptLines_iff {s line : Bytes} :
    line ∈ keptLines s ↔ ∃ st ∈ steps false (Bytes.lines s), st.keep ∧ st.line = line := by
  simp [keptLines, and_assoc]

theorem keep_step (inside : Bool) (line : Bytes) (kept : (step inside line).keep) :
    isBlank (step inside line).line = false := by
  unfold step at kept ⊢
  split at kept
  next => contradiction
  next => simpa using kept

theorem lf_notMem_of_mem_keptLines {s line : Bytes} (mem : line ∈ keptLines s) : Byte.lf ∉ line := by
  obtain ⟨st, hst, _, rfl⟩ := mem_keptLines_iff.mp mem
  obtain ⟨above, source, below, whole, rfl⟩ := mem_steps_iff.mp hst
  have inLine : source ∈ Bytes.lines s := by simp [whole]
  exact fun feed => notMem_of_mem_splitOn inLine ((line_step_sublist _ source).subset feed)

theorem isBlank_of_mem_keptLines {s line : Bytes} (mem : line ∈ keptLines s) :
    isBlank line = false := by
  obtain ⟨st, hst, kept, rfl⟩ := mem_keptLines_iff.mp mem
  obtain ⟨above, source, below, whole, rfl⟩ := mem_steps_iff.mp hst
  exact keep_step _ source kept

/-- The lines of the result are those that are kept. -/
theorem lines_strip (s : Bytes) : Segment.lines (strip s) = keptLines s := by
  have joined : Segment.join (strip s) = Bytes.joinLines (keptLines s) := join_strip s
  rw [Segment.lines, joined]
  cases hkept : keptLines s with
  | nil => rfl
  | cons line ls =>
    have kept : keptLines s ≠ [] := by simp [hkept]
    have back : Bytes.lines (Bytes.joinLines (keptLines s)) = keptLines s :=
      List.splitOn_intercalate Byte.lf (fun l mem => lf_notMem_of_mem_keptLines mem) kept
    rw [← hkept, back, if_neg]
    intro empty
    have mem : line ∈ keptLines s := by simp [hkept]
    have first := isBlank_of_mem_keptLines mem
    rw [hkept, Bytes.joinLines, intercalate_cons_eq] at empty
    rw [(List.append_eq_nil_iff.mp empty).1] at first
    simp [isBlank, Utf8.pieces] at first

end LineStrip

/-- In whatever state a line is read, a comment mark stays in it only in front of a block comment
that the line opens and does not close. So the lines with a mark that are left of a source are the
texts with a mark in front of such a block comment, and no others. -/
theorem line_with_mark_iff :
    (∀ (inside : Bool) (line : Bytes),
      Token.commentMark <:+: (LineStrip.step inside line).line ↔
        ∃ before, LineStrip.LeavesOpen inside line before ∧ Token.commentMark <:+: before) ∧
    ∀ s line : Bytes,
      line ∈ Segment.lines (strip .faithful s) ∧ Token.commentMark <:+: line ↔
        (∃ above source below, Bytes.lines s = above ++ source :: below ∧
          LineStrip.LeavesOpen (LineStrip.insideAfter false above) source line) ∧
        Token.commentMark <:+: line := by
  refine ⟨LineStrip.mark_infix_step_iff, fun s line => and_congr_left fun mark => ?_⟩
  rw [strip, LineStrip.lines_strip, LineStrip.mem_keptLines_iff]
  constructor
  · rintro ⟨st, hst, _, rfl⟩
    obtain ⟨above, source, below, whole, rfl⟩ := LineStrip.mem_steps_iff.mp hst
    exact ⟨above, source, below, whole, LineStrip.leavesOpen_of_mark mark⟩
  · rintro ⟨above, source, below, whole, opens⟩
    have stepped := LineStrip.step_of_leavesOpen opens
    have dash : Byte.dash ∈ line := mark.subset (by simp [Token.commentMark])
    have content : isBlank line = false := by
      apply Bool.eq_false_iff.mpr
      intro blank
      exact absurd (isWhiteSpace_of_isBlank blank (by decide) dash) (by decide)
    refine ⟨_, LineStrip.mem_steps_iff.mpr ⟨above, source, below, whole, rfl⟩, ?_, ?_⟩
    · simp [stepped, content]
    · rw [stepped]

/-- A line comment stays where a block comment opens in it. -/
theorem line_with_mark_kept :
    ¬ ∀ line ∈ Segment.lines (strip .faithful (utf8 "x = 1 -- a --[[ b")),
      ¬ Token.commentMark <:+: line := by
  have kept : Segment.lines (strip .faithful (utf8 "x = 1 -- a --[[ b")) = [utf8 "x = 1 -- a "] := by
    decide_cbv
  rw [kept]
  intro free
  exact free _ (List.mem_singleton_self _) ⟨utf8 "x = 1 ", utf8 " a ", by decide⟩

end LuaCompact
