import LuaCompact.Proofs.Relex

namespace LuaCompact

namespace Atom

/-- Whether a line holds a literal, or anything that is not white space. -/
def hasContent (line : List Atom) : Bool :=
  (line.any fun a => a.literal?.isSome) || (Utf8.pieces (join line)).any fun p => !p.isWhiteSpace

/-- The lines that hold something. -/
def contentLines (as : List Atom) : List (List Atom) := (lines as).filter hasContent

theorem hasContent_eq_not_isBlankLine (line : List Atom) : hasContent line = !isBlankLine line := by
  simp [hasContent, isBlankLine, isBlank, Bool.not_and, List.not_all_eq_any_not]

theorem contentLines_eq_keptLines (as : List Atom) : contentLines as = keptLines as := by
  simp only [contentLines, keptLines, funext hasContent_eq_not_isBlankLine]

/-- Lines with content, once joined, are read back. -/
theorem lines_intercalate_contentLines {as : List Atom} (some : contentLines as ≠ []) :
    lines ([lineFeed].intercalate (contentLines as)) = contentLines as := by
  refine List.splitOn_intercalate lineFeed (fun line mem => ?_) some
  exact notMem_of_mem_splitOn (List.mem_of_mem_filter mem)

theorem intercalate_contentLines_eq_nil_iff {as : List Atom} :
    [lineFeed].intercalate (contentLines as) = [] ↔ contentLines as = [] := by
  refine ⟨fun empty => ?_, fun none => by rw [none]; rfl⟩
  by_contra some
  have whole := lines_intercalate_contentLines some
  have content : hasContent [] := by
    refine (List.mem_filter.mp (whole ▸ ?_ : [] ∈ contentLines as)).2
    simp [empty, lines]
  simp [hasContent, Utf8.pieces] at content

end Atom

namespace Segment

def isCode : Segment → Bool
  | code _ => true
  | literal _ => false

/-- Segments as a scan of a text leaves them: none of them is empty, and no two of code meet. -/
structure Apart (segs : List Segment) : Prop where
  nonempty : ∀ seg ∈ segs, seg.text ≠ []
  chain : segs.IsChain fun a b => ¬ (a.isCode ∧ b.isCode)

theorem Apart.tail {seg : Segment} {segs : List Segment} (apart : Apart (seg :: segs)) :
    Apart segs :=
  ⟨fun s mem => apart.nonempty s (List.mem_cons_of_mem _ mem), apart.chain.tail⟩

theorem Apart.separated : ∀ {segs : List Segment}, Apart segs → Separated segs
  | [], _ => .nil
  | literal _ :: _, apart => .literal apart.tail.separated
  | [code t], apart => .last (apart.nonempty (code t) List.mem_cons_self)
  | code t :: literal _ :: _, apart =>
    .code (apart.nonempty (code t) List.mem_cons_self) apart.tail.tail.separated
  | code _ :: code _ :: _, apart => by
    have meet := (List.isChain_cons_cons.mp apart.chain).1
    exact absurd ⟨rfl, rfl⟩ meet

theorem apart_of_separated {segs : List Segment} (separated : Separated segs)
    (nonempty : ∀ t, literal t ∈ segs → t ≠ []) : Apart segs := by
  induction separated with
  | nil => exact ⟨by simp, .nil⟩
  | @literal t segs _ ih =>
    obtain ⟨whole, chain⟩ := ih fun t mem => nonempty t (List.mem_cons_of_mem _ mem)
    refine ⟨List.forall_mem_cons.mpr ⟨nonempty t List.mem_cons_self, whole⟩, ?_⟩
    exact chain.cons fun _ _ => by simp [isCode]
  | last some => exact ⟨by simpa [text] using some, .singleton _⟩
  | @code t l segs some _ ih =>
    obtain ⟨whole, chain⟩ := ih fun t mem =>
      nonempty t (List.mem_cons_of_mem _ (List.mem_cons_of_mem _ mem))
    have literal : l ≠ [] := nonempty l (List.mem_cons_of_mem _ List.mem_cons_self)
    refine ⟨List.forall_mem_cons.mpr ⟨some, List.forall_mem_cons.mpr ⟨literal, whole⟩⟩, ?_⟩
    exact .cons_cons (by simp [isCode]) (chain.cons fun _ _ => by simp [isCode])

theorem mem_literals_iff {segs : List Segment} {t : Bytes} :
    t ∈ segs.filterMap literal? ↔ literal t ∈ segs := by
  rw [List.mem_filterMap]
  constructor
  · rintro ⟨seg, mem, same⟩
    cases seg with
    | code _ => cases same
    | literal l => cases Option.some.inj same; exact mem
  · exact fun mem => ⟨literal t, mem, rfl⟩

/-- A scan of a text leaves segments apart: a literal has its opening at least. -/
theorem apart_ofTokens_lex (s : Bytes) : Apart (ofTokens (Token.lex s)) := by
  refine apart_of_separated (separated_ofTokens _) fun t mem => ?_
  have atom : Atom.literal t ∈ Atom.ofTokens (Token.lex s) := by
    rw [← ofSegments_ofTokens]
    exact List.mem_flatMap.mpr ⟨literal t, mem, List.mem_cons_self⟩
  have sits := (Atom.isChain_ofTokens (Token.factors_lex s)).2 _ atom
  obtain ⟨c, u, rfl, -⟩ := sits.literal_head
  exact List.cons_ne_nil c u

theorem eq_nil_iff_of_separated {segs : List Segment} (separated : Separated segs) :
    segs = [] ↔ Atom.ofSegments segs = [] := by
  refine ⟨fun none => by rw [none]; rfl, fun empty => ?_⟩
  rw [← ofAtoms_ofSegments separated, empty]
  rfl

/-- Removing blank lines leaves the lines that hold a literal or anything but white space, in their
order and with one line feed between any two; none of them if there are no such lines. Every literal
stays as it is, and the segments that are left are as a scan leaves them. -/
theorem dropBlankLines_keeps_content {segs : List Segment} (apart : Apart segs) :
    Atom.ofSegments (dropBlankLines segs) =
        [Atom.lineFeed].intercalate (Atom.contentLines (Atom.ofSegments segs)) ∧
      (Atom.contentLines (Atom.ofSegments segs) ≠ [] →
        Atom.lines (Atom.ofSegments (dropBlankLines segs)) =
          Atom.contentLines (Atom.ofSegments segs)) ∧
      (dropBlankLines segs = [] ↔ Atom.contentLines (Atom.ofSegments segs) = []) ∧
      (dropBlankLines segs).filterMap literal? = segs.filterMap literal? ∧
      Apart (dropBlankLines segs) := by
  have separated : Separated (dropBlankLines segs) :=
    separated_dropBlankFrom true apart.separated
  have literals : (dropBlankLines segs).filterMap literal? = segs.filterMap literal? :=
    filterMap_literal?_dropBlankFrom true segs
  have text : Atom.ofSegments (dropBlankLines segs) =
      [Atom.lineFeed].intercalate (Atom.contentLines (Atom.ofSegments segs)) := by
    rw [ofSegments_dropBlankLines apart.separated, Atom.contentLines_eq_keptLines, Atom.dropBlank]
  refine ⟨text, fun some => ?_, ?_, literals, ?_⟩
  · rw [text, Atom.lines_intercalate_contentLines some]
  · rw [eq_nil_iff_of_separated separated, text, Atom.intercalate_contentLines_eq_nil_iff]
  · refine apart_of_separated separated fun t mem => ?_
    have kept : t ∈ segs.filterMap literal? := literals ▸ mem_literals_iff.mpr mem
    exact apart.nonempty (literal t) (mem_literals_iff.mp kept)

theorem dropBlankLines_around_literal :
    Apart [code (utf8 "a\n \t\n  "), literal (utf8 "'x'"), code (utf8 "\n\n")] ∧
      Atom.ofSegments
          (dropBlankLines [code (utf8 "a\n \t\n  "), literal (utf8 "'x'"), code (utf8 "\n\n")]) =
        [Atom.lineFeed].intercalate
          [(utf8 "a").map .code, (utf8 "  ").map .code ++ [.literal (utf8 "'x'")]] := by
  have lexed : [code (utf8 "a\n \t\n  "), literal (utf8 "'x'"), code (utf8 "\n\n")] =
      ofTokens (Token.lex (utf8 "a\n \t\n  'x'\n-- b\n")) := by decide +kernel
  have lines : Atom.contentLines (Atom.ofSegments
      [code (utf8 "a\n \t\n  "), literal (utf8 "'x'"), code (utf8 "\n\n")]) =
      [(utf8 "a").map .code, (utf8 "  ").map .code ++ [.literal (utf8 "'x'")]] := by decide +kernel
  have apart : Apart [code (utf8 "a\n \t\n  "), literal (utf8 "'x'"), code (utf8 "\n\n")] :=
    lexed ▸ apart_ofTokens_lex _
  exact ⟨apart, lines ▸ (dropBlankLines_keeps_content apart).1⟩

end Segment

end LuaCompact
