import LuaCompact.Proofs.Atom

namespace LuaCompact

theorem mem_splitOn_of_mem {α : Type} [DecidableEq α] {x : α} {xs : List α} (mem : x ∈ xs)
    (sep : α) (hne : x ≠ sep) : ∃ line ∈ xs.splitOn sep, x ∈ line := by
  induction xs with
  | nil => simp at mem
  | cons y ys ih =>
    obtain ⟨head, tail, hsplit⟩ := List.exists_cons_of_ne_nil (List.splitOn_ne_nil sep ys)
    rw [List.splitOn_cons_eq_if_modifyHead]
    rcases List.mem_cons.mp mem with rfl | mem
    · rw [if_neg (by simpa using hne), hsplit]
      exact ⟨x :: head, by simp, by simp⟩
    · obtain ⟨line, hline, hx⟩ := ih mem
      split
      · exact ⟨line, by simp [hline], hx⟩
      · rw [hsplit] at hline ⊢
        rcases List.mem_cons.mp hline with rfl | hline
        · exact ⟨y :: line, by simp, by simp [hx]⟩
        · exact ⟨line, by simp [hline], hx⟩

theorem notMem_of_mem_splitOn {α : Type} [DecidableEq α] {sep : α} {xs line : List α}
    (h : line ∈ xs.splitOn sep) : sep ∉ line := by
  induction xs generalizing line with
  | nil => simp_all
  | cons y ys ih =>
    obtain ⟨head, tail, hsplit⟩ := List.exists_cons_of_ne_nil (List.splitOn_ne_nil sep ys)
    rw [List.splitOn_cons_eq_if_modifyHead] at h
    split at h
    · rcases List.mem_cons.mp h with rfl | h
      · simp
      · exact ih h
    next hne =>
      rw [hsplit] at h ih
      rcases List.mem_cons.mp h with rfl | h
      · have absent : sep ∉ head := ih (by simp)
        simpa [absent] using fun he : sep = y => hne (by simp [he])
      · exact ih (by simp [h])

theorem intercalate_cons_eq {α : Type} (sep : α) (line : List α) (ls : List (List α)) :
    [sep].intercalate (line :: ls) = line ++ ls.flatMap (sep :: ·) := by
  induction ls generalizing line with
  | nil => simp
  | cons next ls ih => simp [List.intercalate_cons_cons, ih]

theorem infix_of_mem_splitOn {α : Type} [DecidableEq α] {sep : α} {xs line : List α}
    (h : line ∈ xs.splitOn sep) : line <:+: xs := by
  obtain ⟨first, ls, hsplit⟩ := List.exists_cons_of_ne_nil (List.splitOn_ne_nil sep xs)
  have whole : [sep].intercalate (xs.splitOn sep) = xs := List.intercalate_splitOn sep
  rw [hsplit] at h whole
  rw [← whole, intercalate_cons_eq]
  rcases List.mem_cons.mp h with rfl | h
  · exact (List.prefix_append _ _).isInfix
  · obtain ⟨before, after, rfl⟩ := List.append_of_mem h
    refine ⟨first ++ before.flatMap (sep :: ·) ++ [sep], after.flatMap (sep :: ·), ?_⟩
    simp

namespace Atom

/-- Whether a line holds white space of code and nothing else. -/
def isBlankLine (line : List Atom) : Bool :=
  (line.all fun a => a.literal?.isNone) && isBlank (join line)

/-- The lines that the line feeds of the code divide. -/
def lines (as : List Atom) : List (List Atom) := as.splitOn lineFeed

theorem intercalate_lines (as : List Atom) : [lineFeed].intercalate (lines as) = as :=
  List.intercalate_splitOn lineFeed

theorem exists_lines_eq_cons (as : List Atom) :
    ∃ line ls, lines as = line :: ls ∧ line ++ ls.flatMap (lineFeed :: ·) = as := by
  obtain ⟨line, ls, hlines⟩ := List.exists_cons_of_ne_nil (List.splitOn_ne_nil lineFeed as)
  refine ⟨line, ls, hlines, ?_⟩
  rw [← intercalate_cons_eq, ← hlines]
  exact intercalate_lines as

/-- The lines that are not blank. -/
def keptLines (as : List Atom) : List (List Atom) := (lines as).filter fun line => !isBlankLine line

/-- The atoms without the blank lines. -/
def dropBlank (as : List Atom) : List Atom := [lineFeed].intercalate (keptLines as)

theorem isBlankLine_append_literal (pre as : List Atom) (t : Bytes) :
    isBlankLine (pre ++ literal t :: as) = false := by
  simp [isBlankLine, literal?]

theorem isBlankLine_literal_code (pre : List Atom) (l p : Bytes) :
    isBlankLine (pre ++ [literal l] ++ p.map code) = (false && isBlank p) := by
  rw [List.append_assoc, Bool.false_and]
  exact isBlankLine_append_literal pre (p.map code) l

@[simp] theorem isBlankLine_map_code (p : Bytes) : isBlankLine (p.map code) = isBlank p := by
  simp [isBlankLine, literal?]

theorem exists_map_code_of_isBlankLine {line : List Atom} (h : isBlankLine line) :
    ∃ t : Bytes, line = t.map code := by
  refine ⟨join line, ?_⟩
  have free := (Bool.and_eq_true_iff.mp h).1
  clear h
  induction line with
  | nil => rfl
  | cons a line ih =>
    rw [List.all_cons, Bool.and_eq_true_iff] at free
    cases a with
    | code b => simpa [bytes] using ih free.2
    | literal t => simp [literal?] at free

theorem keptLines_append_lineFeed {line : List Atom} (h : lineFeed ∉ line) (as : List Atom) :
    keptLines (line ++ lineFeed :: as) =
      if isBlankLine line then keptLines as else line :: keptLines as := by
  unfold keptLines lines
  rw [List.splitOn_append_cons_self_of_not_mem h, List.filter_cons]
  by_cases hb : isBlankLine line <;> simp [hb]

theorem keptLines_of_notMem {line : List Atom} (h : lineFeed ∉ line) :
    keptLines line = if isBlankLine line then [] else [line] := by
  unfold keptLines lines
  rw [List.splitOn_eq_singleton h, List.filter_cons]
  by_cases hb : isBlankLine line <;> simp [hb]

theorem dropBlank_of_notMem {line : List Atom} (h : lineFeed ∉ line) :
    dropBlank line = if isBlankLine line then [] else line := by
  unfold dropBlank
  rw [keptLines_of_notMem h]
  by_cases hb : isBlankLine line <;> simp [hb]

theorem dropBlank_append_lineFeed {line : List Atom} (h : lineFeed ∉ line) (as : List Atom) :
    dropBlank (line ++ lineFeed :: as) =
      if isBlankLine line then dropBlank as
      else if keptLines as = [] then line else line ++ lineFeed :: dropBlank as := by
  unfold dropBlank
  rw [keptLines_append_lineFeed h]
  by_cases hb : isBlankLine line
  · simp [hb]
  · by_cases hk : keptLines as = []
    · simp [hb, hk]
    · simp [hb, hk, List.intercalate_cons_of_ne_nil hk]

theorem keptLines_ne_nil_of_literal {as : List Atom} {t : Bytes} (mem : literal t ∈ as) :
    keptLines as ≠ [] := by
  obtain ⟨line, hline, ht⟩ := mem_splitOn_of_mem mem lineFeed (by simp)
  obtain ⟨before, after, rfl⟩ := List.append_of_mem ht
  have kept : before ++ literal t :: after ∈ keptLines as := by
    apply List.mem_filter.mpr
    exact ⟨hline, by simp [isBlankLine_append_literal]⟩
  exact List.ne_nil_of_mem kept

theorem mem_of_mem_dropBlank {as : List Atom} {a : Atom} (h : a ∈ dropBlank as) :
    a = lineFeed ∨ a ∈ as := by
  have whole (line : List Atom) (kept : line ∈ keptLines as) (mem : a ∈ line) : a ∈ as :=
    (infix_of_mem_splitOn (List.mem_of_mem_filter kept)).subset mem
  rw [dropBlank] at h
  cases hkept : keptLines as with
  | nil => simp [hkept] at h
  | cons line ls =>
    rw [hkept] at whole h
    rw [intercalate_cons_eq] at h
    rcases List.mem_append.mp h with h | h
    · exact .inr (whole line (by simp) h)
    · obtain ⟨line, hline, h⟩ := List.mem_flatMap.mp h
      rcases List.mem_cons.mp h with rfl | h
      · exact .inl rfl
      · exact .inr (whole line (by simp [hline]) h)

theorem map_code_joinLines_cons_cons (p q : Bytes) (ps : List Bytes) :
    (Bytes.joinLines (p :: q :: ps)).map code =
      p.map code ++ lineFeed :: (Bytes.joinLines (q :: ps)).map code := by
  simp [Bytes.joinLines, List.intercalate_cons_cons]

/-- What the pieces of a code segment come to, read as lines of the whole text. `pre` stands before
the segment on its first line, and `tail` follows the segment. -/
theorem dropBlank_pieces (tail rest : List Atom) (ownsEnd : Bool)
    (kept : ∀ pre, lineFeed ∉ pre →
      (keptLines (pre ++ tail) = [] ↔ (ownsEnd && isBlankLine pre) = true))
    (dropped : ∀ pre, lineFeed ∉ pre →
      dropBlank (pre ++ tail) = (if ownsEnd && isBlankLine pre then [] else pre) ++ rest)
    (ps : List Bytes) (nonempty : ps ≠ []) (free : ∀ p ∈ ps, Byte.lf ∉ p) (owns : Bool)
    (pre : List Atom) (hpre : lineFeed ∉ pre) (start : owns = true → pre = [])
    (blank : ∀ p : Bytes, isBlankLine (pre ++ p.map code) = (owns && isBlank p)) :
    (keptLines (pre ++ (Bytes.joinLines ps).map code ++ tail) = [] ↔
        Segment.keepPieces owns ownsEnd ps = []) ∧
      dropBlank (pre ++ (Bytes.joinLines ps).map code ++ tail) =
        pre ++ (Bytes.joinLines (Segment.keepPieces owns ownsEnd ps)).map code ++ rest := by
  induction ps generalizing owns pre with
  | nil => exact absurd rfl nonempty
  | cons p ps ih =>
    have hp : lineFeed ∉ pre ++ p.map code := by
      simpa [hpre] using free p (by simp)
    cases ps with
    | nil =>
      have hkept := kept _ hp
      have hdropped := dropped _ hp
      rw [blank, ← Bool.and_assoc, Bool.and_comm ownsEnd owns] at hkept hdropped
      rw [Segment.keepPieces, Bytes.joinLines, List.intercalate_singleton, hkept, hdropped]
      by_cases goes : owns && ownsEnd && isBlank p
      · have owned : owns = true := by simp_all
        rw [if_pos goes, if_pos goes, start owned]
        simp [goes, Bytes.joinLines]
      · rw [if_neg goes, if_neg goes]
        simp [goes, Bytes.joinLines]
    | cons q ps =>
      obtain ⟨hkept, hdropped⟩ := ih (by simp)
        (fun r hr => free r (List.mem_cons_of_mem p hr)) true [] (by simp) (by simp) (by simp)
      rw [List.nil_append] at hkept hdropped
      rw [map_code_joinLines_cons_cons, ← List.append_assoc, List.append_assoc _ _ tail,
        List.cons_append, keptLines_append_lineFeed hp, dropBlank_append_lineFeed hp, blank,
        Segment.keepPieces]
      by_cases goes : owns && isBlank p
      · have owned : owns = true := by simp_all
        rw [if_pos goes, if_pos goes, if_pos goes, start owned]
        exact ⟨hkept, hdropped⟩
      · rw [if_neg goes, if_neg goes, if_neg goes]
        refine ⟨by simp, ?_⟩
        cases hk : Segment.keepPieces true ownsEnd (q :: ps) with
        | nil =>
          have none := hkept.mpr hk
          have empty : rest = [] := by
            rw [dropBlank, none, hk] at hdropped
            simpa [Bytes.joinLines] using hdropped.symm
          rw [if_pos none, empty]
          simp [Bytes.joinLines]
        | cons k ks =>
          rw [if_neg (by rw [hkept, hk]; simp), hdropped, hk, map_code_joinLines_cons_cons]
          simp

theorem joinLines_lines (t : Bytes) : Bytes.joinLines (Bytes.lines t) = t :=
  List.intercalate_splitOn Byte.lf

/-- A code segment with the end of the text behind it. -/
theorem dropBlank_map_code (owns : Bool) (t : Bytes) (pre : List Atom) (hpre : lineFeed ∉ pre)
    (start : owns = true → pre = [])
    (blank : ∀ p : Bytes, isBlankLine (pre ++ p.map code) = (owns && isBlank p)) :
    dropBlank (pre ++ t.map code) =
      pre ++ (Segment.dropBlankPieces owns true t).map code := by
  have pieces := dropBlank_pieces [] [] true
    (fun pre hpre => by simp [keptLines_of_notMem hpre])
    (fun pre hpre => by simp [dropBlank_of_notMem hpre])
    (Bytes.lines t) (List.splitOn_ne_nil Byte.lf t) (fun p hp => notMem_of_mem_splitOn hp)
    owns pre hpre start blank
  simpa [Segment.dropBlankPieces, joinLines_lines] using pieces.2

/-- A code segment with a literal behind it. -/
theorem dropBlank_map_code_literal (owns : Bool) (t : Bytes) {as rest : List Atom} {l : Bytes}
    (dropped : ∀ pre, lineFeed ∉ pre → dropBlank (pre ++ literal l :: as) = pre ++ rest)
    (pre : List Atom) (hpre : lineFeed ∉ pre) (start : owns = true → pre = [])
    (blank : ∀ p : Bytes, isBlankLine (pre ++ p.map code) = (owns && isBlank p)) :
    dropBlank (pre ++ t.map code ++ literal l :: as) =
      pre ++ (Segment.dropBlankPieces owns false t).map code ++ rest := by
  have pieces := dropBlank_pieces (literal l :: as) rest false
    (fun pre _ => by
      have some : keptLines (pre ++ literal l :: as) ≠ [] :=
        keptLines_ne_nil_of_literal (List.mem_append_right pre List.mem_cons_self)
      simp [some])
    (fun pre hpre => by simp [dropped pre hpre])
    (Bytes.lines t) (List.splitOn_ne_nil Byte.lf t) (fun p hp => notMem_of_mem_splitOn hp)
    owns pre hpre start blank
  simpa [Segment.dropBlankPieces, joinLines_lines] using pieces.2

end Atom

namespace Segment

theorem ofSegments_append (segs segs' : List Segment) :
    Atom.ofSegments (segs ++ segs') = Atom.ofSegments segs ++ Atom.ofSegments segs' :=
  List.flatMap_append

theorem ofSegments_ofCode (t : Bytes) : Atom.ofSegments (ofCode t) = t.map .code := by
  unfold ofCode
  split
  next empty => simp [empty]
  next => simp

/-- Behind a literal, segments give up the blank lines of the text. -/
theorem dropBlank_literal_ofSegments {segs : List Segment} (separated : Separated segs)
    (l : Bytes) (pre : List Atom) (hpre : Atom.lineFeed ∉ pre) :
    Atom.dropBlank (pre ++ .literal l :: Atom.ofSegments segs) =
      pre ++ .literal l :: Atom.ofSegments (dropBlankFrom false segs) := by
  induction separated generalizing l pre with
  | nil =>
    have hline : Atom.lineFeed ∉ pre ++ [.literal l] := by simp [hpre]
    have content := Atom.isBlankLine_append_literal pre [] l
    simp [dropBlankFrom, Atom.dropBlank_of_notMem hline, content]
  | @literal t segs _ ih =>
    have := ih t (pre ++ [.literal l]) (by simp [hpre])
    simpa [dropBlankFrom] using this
  | @last t _ =>
    have := Atom.dropBlank_map_code false t (pre ++ [.literal l]) (by simp [hpre])
      (by simp) (Atom.isBlankLine_literal_code pre l)
    simpa [dropBlankFrom, ofSegments_ofCode] using this
  | @code t u segs _ _ ih =>
    have := Atom.dropBlank_map_code_literal false t (fun pre hpre => ih u pre hpre)
      (pre ++ [.literal l]) (by simp [hpre]) (by simp) (Atom.isBlankLine_literal_code pre l)
    simpa [dropBlankFrom, ofSegments_append, ofSegments_ofCode] using this

/-- The blank lines that segments give up are those of the text they hold. -/
theorem ofSegments_dropBlankLines {segs : List Segment} (separated : Separated segs) :
    Atom.ofSegments (dropBlankLines segs) = Atom.dropBlank (Atom.ofSegments segs) := by
  cases separated with
  | nil =>
    have empty : Atom.isBlankLine [] = true := by simp [Atom.isBlankLine, isBlank, Utf8.pieces]
    simp [dropBlankLines, dropBlankFrom, Atom.dropBlank_of_notMem, empty]
  | @literal t segs tail =>
    have := dropBlank_literal_ofSegments tail t [] (by simp)
    simpa [dropBlankLines, dropBlankFrom] using this.symm
  | @last t _ =>
    have := Atom.dropBlank_map_code true t [] (by simp) (by simp) (by simp)
    simpa [dropBlankLines, dropBlankFrom, ofSegments_ofCode] using this.symm
  | @code t l segs _ tail =>
    have := Atom.dropBlank_map_code_literal true t
      (fun pre hpre => dropBlank_literal_ofSegments tail l pre hpre) [] (by simp) (by simp)
      (by simp)
    simpa [dropBlankLines, dropBlankFrom, ofSegments_append, ofSegments_ofCode] using this.symm

theorem separated_ofCode_literal (t l : Bytes) {segs : List Segment} (separated : Separated segs) :
    Separated (ofCode t ++ literal l :: segs) := by
  unfold ofCode
  split
  next => exact .literal separated
  next nonempty => exact .code nonempty separated

theorem separated_dropBlankFrom {segs : List Segment} (first : Bool) (separated : Separated segs) :
    Separated (dropBlankFrom first segs) := by
  induction separated generalizing first with
  | nil => exact .nil
  | literal _ ih => exact .literal (ih false)
  | @last t _ =>
    simp only [dropBlankFrom, List.append_nil, ofCode]
    split
    next => exact .nil
    next nonempty => exact .last nonempty
  | code _ _ ih => exact separated_ofCode_literal _ _ (ih false)

end Segment

end LuaCompact
