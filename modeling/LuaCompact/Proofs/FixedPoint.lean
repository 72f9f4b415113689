import LuaCompact.Proofs.WideSpace

namespace LuaCompact

theorem rdropWhile_append {α : Type} {p : α → Bool} {ys : List α} (h : ys.rdropWhile p ≠ [])
    (xs : List α) : (xs ++ ys).rdropWhile p = xs ++ ys.rdropWhile p := by
  have stays : ((ys.reverse.dropWhile p).isEmpty) = false := by
    simpa [List.rdropWhile] using h
  rw [List.rdropWhile, List.reverse_append, List.dropWhile_append, stays]
  simp [List.rdropWhile]

namespace Atom

/-- Where the white space is settled behind an atom, weaving puts back what was there. -/
theorem rdropWhile_weave_of_spaced {a : Atom} {run : Bytes} {as : List Atom} (solid : ¬ a.isSpace)
    (gaps : ∀ c ∈ run, isGap c) (spaced : Spaced (a :: (run.map code ++ as)))
    (last : ∀ x ∈ (a :: (run.map code ++ as)).getLast?, ¬ x.isTrimmed) :
    (weave a.byte? run as).rdropWhile isTrimmed = run.map code ++ as := by
  induction as generalizing a run with
  | nil =>
    have filled := isTrimmed_of_isGap (Gap.isGap_of_mem_separator a.byte? run none)
    rw [weave, List.rdropWhile_eq_nil_iff.mpr filled]
    rcases List.eq_nil_or_concat' run with rfl | ⟨front, c, rfl⟩
    · rfl
    · have space : (code c).isSpace := gaps c (by simp)
      exact absurd (isTrimmed_of_isSpace space) (last (code c) (by simp [List.getLast?_cons]))
  | cons b as ih =>
    by_cases space : b.isSpace
    · obtain ⟨c, rfl, gap⟩ := exists_code_of_isSpace space
      have shift : run.map code ++ code c :: as = (run ++ [c]).map code ++ as := by simp
      rw [shift] at spaced last ⊢
      rw [weave_cons_of_isSpace space]
      exact ih solid (isGap_of_mem_concat gaps gap) spaced last
    · have sep := spaced a b run ⟨[], as, by simp⟩ solid space gaps
      have none : ∀ c ∈ ([] : Bytes), isGap c := by simp
      have inside : b :: as <:+: a :: (run.map code ++ b :: as) := ⟨a :: run.map code, [], by simp⟩
      have end_eq : (a :: (run.map code ++ b :: as)).getLast? = (b :: as).getLast? := by
        rw [← List.cons_append, List.getLast?_append_of_ne_nil _ (by simp)]
      rw [end_eq] at last
      have tail := ih space none (spaced.of_part inside) last
      rw [List.map_nil, List.nil_append] at tail
      rw [weave_cons_of_not_isSpace space, ← sep]
      by_cases empty : as = []
      · have kept : ¬ isTrimmed b := last b (by simp [empty])
        rw [rdropWhile_append_cons kept, tail]
      · have stays : (weave b.byte? [] as).rdropWhile isTrimmed ≠ [] := by rwa [tail]
        rw [List.append_cons, rdropWhile_append stays, tail]
        simp

theorem trim_weave_of_settled {as : List Atom} (settled : Settled as) :
    trim (weave none [] as) = as := by
  cases as with
  | nil => rfl
  | cons b as =>
    have kept : ¬ isTrimmed b := settled.first b rfl
    have solid : ¬ b.isSpace := fun space => kept (isTrimmed_of_isSpace space)
    have none : ∀ c ∈ ([] : Bytes), isGap c := by simp
    have tail := rdropWhile_weave_of_spaced solid none settled.spaced settled.last
    have start : weave Option.none [] (b :: as) = b :: weave b.byte? [] as := by
      rw [weave_cons_of_not_isSpace solid]
      rfl
    have whole := rdropWhile_append_cons kept [] (weave b.byte? [] as)
    rw [start, trim, List.dropWhile_cons_of_neg kept, ← List.nil_append (b :: _), whole, tail]
    rfl

theorem dropBlank_of_unblank {as : List Atom} (unblank : Unblank as) : dropBlank as = as := by
  rcases unblank with rfl | unblank
  · have blank : isBlankLine [] = true := by simp [isBlankLine, isBlank, Utf8.pieces]
    simp [dropBlank_of_notMem, blank]
  · have all : keptLines as = lines as := by
      apply List.filter_eq_self.mpr
      intro line mem
      simpa using unblank line mem
    rw [dropBlank, all]
    exact intercalate_lines as

end Atom

/-- A text that has nothing to be taken out or put in: no comments, and white space as minifying leaves
it. -/
def Settled (s : Bytes) : Prop :=
  (∀ tok ∈ Token.lex s, ¬ tok.isComment) ∧ Atom.Settled (Atom.ofTokens (Token.lex s))

/-- The settled texts are those that minifying does not change. -/
theorem minify_eq_self_iff (s : Bytes) : minify .literal s = s ↔ Settled s := by
  constructor
  · intro fixed
    obtain ⟨uncommented, same, kept⟩ := Atom.eq_minified_of_minify_eq fixed
    refine ⟨uncommented, ?_⟩
    rw [same, Atom.settled_minified_iff]
    by_cases empty : Atom.minified s = []
    · exact .inl empty
    · refine .inr fun line mem blank => empty ?_
      rw [← same] at mem
      have spaces := Atom.isSpace_of_solids_dropBlank kept mem blank
      rw [same] at mem
      exact Atom.eq_nil_of_line_minified mem spaces
  · rintro ⟨uncommented, settled⟩
    have text : (Token.lex s).flatMap Token.bytes = s := (Token.factors_lex s).flatMap_bytes
    rw [minify_literal_eq, Atom.dropBlank_of_unblank settled.unblank,
      Atom.trim_weave_of_settled settled, Atom.join_ofTokens uncommented, text]

theorem settled_minify_iff {s : Bytes} (brackets : BracketsApart s) (shebang : ShebangKept s) :
    Settled (minify .literal s) ↔ Atom.Unblank (Atom.ofTokens (Token.lex (minify .literal s))) := by
  obtain ⟨same, uncommented⟩ := ofTokens_lex_minify brackets shebang
  rw [Settled, same, Atom.settled_minified_iff]
  exact ⟨fun h => h.2, fun h => ⟨uncommented, h⟩⟩

/-- When a second pass changes nothing: exactly when the result of the first is settled. Where the
result reads as its source, all it takes is that no line of it is blank; and that is so for every
source whose white space is plain. -/
theorem minify_minify_eq_iff (s : Bytes) :
    (minify .literal (minify .literal s) = minify .literal s ↔ Settled (minify .literal s)) ∧
      (BracketsApart s → ShebangKept s →
        (minify .literal (minify .literal s) = minify .literal s ↔
          Atom.Unblank (Atom.ofTokens (Token.lex (minify .literal s)))) ∧
        ((∀ t, Segment.code t ∈ Segment.ofTokens (Token.lex s) → PlainSpace t) →
          minify .literal (minify .literal s) = minify .literal s)) := by
  have exactly := minify_eq_self_iff (minify .literal s)
  refine ⟨exactly, fun brackets shebang => ?_⟩
  have unblank := exactly.trans (settled_minify_iff brackets shebang)
  refine ⟨unblank, fun plain => unblank.mpr ?_⟩
  rw [(ofTokens_lex_minify brackets shebang).1]
  exact Atom.unblank_minified plain

/-- A source with plain white space, brackets, a comment and a literal. -/
theorem minify_minify_eq_sample :
    BracketsApart (utf8 "t [ 1 ] = a - -b ; --c\n\n 's  ' .. x") ∧
      ShebangKept (utf8 "t [ 1 ] = a - -b ; --c\n\n 's  ' .. x") ∧
      minify .literal (minify .literal (utf8 "t [ 1 ] = a - -b ; --c\n\n 's  ' .. x")) =
        minify .literal (utf8 "t [ 1 ] = a - -b ; --c\n\n 's  ' .. x") := by
  have brackets : BracketsApart (utf8 "t [ 1 ] = a - -b ; --c\n\n 's  ' .. x") := by
    have codes : ∀ seg ∈ strip .literal (utf8 "t [ 1 ] = a - -b ; --c\n\n 's  ' .. x"),
        ∀ rest ∈ seg.text.tails, rest.head? = some Byte.openBracket →
          (rest.tail.dropWhile isGap).head? ≠ some Byte.equals := by decide +kernel
    intro t mem run gaps inside
    obtain ⟨before, after, rfl⟩ := inside
    refine codes _ mem (Byte.openBracket :: run ++ [Byte.equals] ++ after) ?_ rfl ?_
    · exact (List.mem_tails _ _).mpr ⟨before, by simp [Segment.text]⟩
    · have stop : ([Byte.equals] ++ after).dropWhile isGap = [Byte.equals] ++ after := by
        simp [show isGap Byte.equals = false by decide]
      rw [List.append_assoc, List.cons_append, List.tail_cons, List.dropWhile_append_of_pos gaps, stop]
      rfl
  have shebang : ShebangKept (utf8 "t [ 1 ] = a - -b ; --c\n\n 's  ' .. x") :=
    fun mark => absurd mark (by decide +kernel)
  have ascii : ∀ seg ∈ Segment.ofTokens (Token.lex (utf8 "t [ 1 ] = a - -b ; --c\n\n 's  ' .. x")),
      (∀ b ∈ seg.text, b.toNat < 0x80) ∧ Byte.vt ∉ seg.text := by decide +kernel
  refine ⟨brackets, shebang, ((minify_minify_eq_iff _).2 brackets shebang).2 ?_⟩
  exact fun t mem => plainSpace_of_ascii (ascii _ mem).1 (ascii _ mem).2

/-- The line break behind a semicolon can leave a vertical tab on a line of its own, which the next
pass takes for a blank line. -/
theorem minify_minify_ne :
    minify .literal (minify .literal (utf8 "x=1;\x0b\ny=2")) ≠ minify .literal (utf8 "x=1;\x0b\ny=2") := by
  decide +kernel

end LuaCompact
