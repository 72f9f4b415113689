import LuaCompact.Proofs.Relex
import Mathlib.Data.List.Flatten

namespace LuaCompact

/-- How many bytes of a text are no white space. -/
def Bytes.weight (s : Bytes) : Nat := s.countP fun b => !isGap b

theorem Bytes.weight_append (s t : Bytes) : weight (s ++ t) = weight s + weight t :=
  List.countP_append

theorem Bytes.weight_cons_pos {c : UInt8} (h : ¬ isGap c) (s : Bytes) : 0 < weight (c :: s) := by
  have : weight (c :: s) = weight s + 1 := List.countP_cons_of_pos (by simpa using h)
  omega

namespace Atom

/-- The atoms that are no white space. -/
def solids (as : List Atom) : List Atom := as.filter fun a => !a.isSpace

theorem solids_append (as bs : List Atom) : solids (as ++ bs) = solids as ++ solids bs :=
  List.filter_append _ _

theorem solids_cons_of_isSpace {a : Atom} (h : a.isSpace) (as : List Atom) :
    solids (a :: as) = solids as := List.filter_cons_of_neg (by simp [h])

theorem solids_cons_of_not_isSpace {a : Atom} (h : ¬ a.isSpace) (as : List Atom) :
    solids (a :: as) = a :: solids as := List.filter_cons_of_pos (by simp [h])

theorem mem_solids {a : Atom} {as : List Atom} : a ∈ solids as ↔ a ∈ as ∧ ¬ a.isSpace := by
  simp [solids]

theorem solids_map_code {run : Bytes} (gaps : ∀ c ∈ run, isGap c) : solids (run.map code) = [] := by
  apply List.filter_eq_nil_iff.mpr
  intro a ha
  obtain ⟨c, hc, rfl⟩ := List.mem_map.mp ha
  simp [isSpace, gaps c hc]

theorem weight_of_isSpace {a : Atom} (h : a.isSpace) : Bytes.weight a.bytes = 0 := by
  obtain ⟨c, rfl, gap⟩ := exists_code_of_isSpace h
  simp [bytes, Bytes.weight, gap]

theorem weight_solids (as : List Atom) :
    Bytes.weight (join (solids as)) = Bytes.weight (join as) := by
  induction as with
  | nil => rfl
  | cons a as ih =>
    by_cases space : a.isSpace
    · rw [solids_cons_of_isSpace space, ih, join_cons, Bytes.weight_append,
        weight_of_isSpace space, Nat.zero_add]
    · rw [solids_cons_of_not_isSpace space, join_cons, join_cons, Bytes.weight_append,
        Bytes.weight_append, ih]

theorem weight_join_le {as bs : List Atom} (sub : as.Sublist bs) :
    Bytes.weight (join as) ≤ Bytes.weight (join bs) :=
  (sub.flatMap bytes).countP_le

/-- A part that weighs as much as the whole is the whole, if nothing in it is without weight. -/
theorem eq_of_sublist_of_weight {as bs : List Atom} (sub : as.Sublist bs)
    (heavy : ∀ b ∈ bs, 0 < Bytes.weight b.bytes)
    (h : Bytes.weight (join bs) ≤ Bytes.weight (join as)) : as = bs := by
  induction sub with
  | slnil => rfl
  | @cons as bs b sub ih =>
    have lighter := weight_join_le sub
    have positive := heavy b (by simp)
    rw [join_cons, Bytes.weight_append] at h
    omega
  | @cons_cons as bs a sub ih =>
    rw [join_cons, join_cons, Bytes.weight_append, Bytes.weight_append] at h
    rw [ih (fun b hb => heavy b (by simp [hb])) (by omega)]

/-- The first byte of an atom that is no white space is none either. -/
theorem Sits.solid_head {a : Atom} {rest : Bytes} (sits : a.Sits rest) (solid : ¬ a.isSpace) :
    ∃ c u, a.bytes = c :: u ∧ ¬ isGap c := by
  cases a with
  | code c => exact ⟨c, [], rfl, solid⟩
  | literal t =>
    obtain ⟨c, u, rfl, hc⟩ := sits.literal_head
    refine ⟨c, u, rfl, fun gap => ?_⟩
    rcases hc with quote | rfl | rfl
    · exact not_isQuote_of_isGap gap quote
    · exact absurd gap (by decide)
    · exact absurd gap (by decide)

/-- Two lists of atoms with the same text that differ in white space at most are equal. -/
theorem eq_of_join_eq {as bs : List Atom}
    (headed : ∀ a ∈ solids as, ∃ c u, a.bytes = c :: u ∧ ¬ isGap c)
    (text : join as = join bs) (same : solids as = solids bs) : as = bs := by
  induction as generalizing bs with
  | nil =>
    cases bs with
    | nil => rfl
    | cons b bs =>
      by_cases space : b.isSpace
      · obtain ⟨c, rfl, _⟩ := exists_code_of_isSpace space
        simp [bytes] at text
      · rw [solids_cons_of_not_isSpace space] at same
        simp [solids] at same
  | cons a as ih =>
    cases bs with
    | nil =>
      by_cases space : a.isSpace
      · obtain ⟨c, rfl, _⟩ := exists_code_of_isSpace space
        simp [bytes] at text
      · rw [solids_cons_of_not_isSpace space] at same
        simp [solids] at same
    | cons b bs =>
      rw [join_cons, join_cons] at text
      by_cases hspace : a.isSpace
      · obtain ⟨c, rfl, hc⟩ := exists_code_of_isSpace hspace
        rw [solids_cons_of_isSpace hspace] at same headed
        by_cases hb : b.isSpace
        · obtain ⟨d, rfl, _⟩ := exists_code_of_isSpace hb
          rw [solids_cons_of_isSpace hb] at same
          obtain ⟨rfl, rest⟩ := List.cons.inj text
          rw [ih headed rest same]
        · rw [solids_cons_of_not_isSpace hb] at same
          obtain ⟨d, u, hd, hgap⟩ := headed b (by simp [same])
          rw [hd] at text
          exact absurd ((List.cons.inj text).1 ▸ hc) hgap
      · obtain ⟨c, u, hc, hgap⟩ := headed a (by simp [solids_cons_of_not_isSpace hspace])
        rw [solids_cons_of_not_isSpace hspace] at same headed
        by_cases hb : b.isSpace
        · obtain ⟨d, rfl, hd⟩ := exists_code_of_isSpace hb
          rw [hc] at text
          exact absurd ((List.cons.inj text).1 ▸ hd) hgap
        · rw [solids_cons_of_not_isSpace hb] at same
          obtain ⟨rfl, rest⟩ := List.cons.inj same
          rw [ih (fun d hd => headed d (by simp [hd])) (List.append_cancel_left text) rest]

theorem join_atoms_of_not_isComment {tok : Token} (h : ¬ tok.isComment) :
    join tok.atoms = tok.bytes := by
  cases tok with
  | shebang | shortString | longString | code => simp [Token.atoms, Token.bytes, bytes]
  | blockComment | lineComment => simp [Token.isComment] at h

theorem join_ofTokens {ts : List Token} (h : ∀ tok ∈ ts, ¬ tok.isComment) :
    join (ofTokens ts) = ts.flatMap Token.bytes := by
  induction ts with
  | nil => rfl
  | cons tok ts ih =>
    rw [ofTokens_cons, join_append, join_atoms_of_not_isComment (h tok (by simp)),
      ih fun t ht => h t (by simp [ht]), List.flatMap_cons]

/-- A comment weighs something, and what it leaves behind does not. -/
theorem weight_atoms_lt_of_isComment {tok : Token} (h : tok.isComment) :
    Bytes.weight (join tok.atoms) < Bytes.weight tok.bytes := by
  have spaces : Bytes.weight (join tok.atoms) = 0 := by
    cases tok with
    | shebang | shortString | longString | code => simp [Token.isComment] at h
    | lineComment => rfl
    | blockComment body =>
      have none : solids (Token.blockComment body).atoms = [] := by
        apply List.filter_eq_nil_iff.mpr
        intro a ha
        simp [isSpace_of_mem_blockComment ha]
      rw [← weight_solids, none]
      rfl
  have mark : 0 < Bytes.weight tok.bytes := by
    cases tok with
    | shebang | shortString | longString | code => simp [Token.isComment] at h
    | lineComment | blockComment => exact Bytes.weight_cons_pos (by decide) _
  omega

theorem weight_ofTokens_le (ts : List Token) :
    Bytes.weight (join (ofTokens ts)) ≤ Bytes.weight (ts.flatMap Token.bytes) := by
  induction ts with
  | nil => exact Nat.le_refl _
  | cons tok ts ih =>
    rw [ofTokens_cons, join_append, List.flatMap_cons, Bytes.weight_append, Bytes.weight_append]
    by_cases comment : tok.isComment
    · have := weight_atoms_lt_of_isComment comment
      omega
    · rw [join_atoms_of_not_isComment comment]
      omega

theorem not_isComment_of_weight {ts : List Token}
    (h : Bytes.weight (ts.flatMap Token.bytes) ≤ Bytes.weight (join (ofTokens ts))) :
    ∀ tok ∈ ts, ¬ tok.isComment := by
  induction ts with
  | nil => simp
  | cons tok ts ih =>
    have rest := weight_ofTokens_le ts
    rw [ofTokens_cons, join_append, List.flatMap_cons, Bytes.weight_append, Bytes.weight_append] at h
    by_cases comment : tok.isComment
    · have := weight_atoms_lt_of_isComment comment
      omega
    · rw [join_atoms_of_not_isComment comment] at h
      exact List.forall_mem_cons.mpr ⟨comment, ih (by omega)⟩

theorem solids_intercalate (ls : List (List Atom)) :
    solids ([lineFeed].intercalate ls) = ls.flatMap solids := by
  have feed : lineFeed.isSpace := by decide
  have tail (ls : List (List Atom)) : solids (ls.flatMap (lineFeed :: ·)) = ls.flatMap solids := by
    induction ls with
    | nil => rfl
    | cons line ls ih =>
      rw [List.flatMap_cons, solids_append, solids_cons_of_isSpace feed, ih, List.flatMap_cons]
  cases ls with
  | nil => rfl
  | cons line ls => rw [intercalate_cons_eq, solids_append, tail, List.flatMap_cons]

theorem flatMap_solids_lines (as : List Atom) : (lines as).flatMap solids = solids as := by
  rw [← solids_intercalate, intercalate_lines]

theorem solids_dropBlank (as : List Atom) :
    solids (dropBlank as) = (keptLines as).flatMap solids :=
  solids_intercalate _

theorem solids_dropBlank_sublist (as : List Atom) : (solids (dropBlank as)).Sublist (solids as) := by
  rw [solids_dropBlank, ← flatMap_solids_lines as]
  exact List.filter_sublist.flatMap solids

theorem solids_weave (prev : Option UInt8) (run : Bytes) (as : List Atom) :
    solids (weave prev run as) = solids as := by
  induction as generalizing prev run with
  | nil => exact solids_map_code (Gap.isGap_of_mem_separator prev run none)
  | cons a as ih =>
    by_cases space : a.isSpace
    · rw [weave_cons_of_isSpace space, ih, solids_cons_of_isSpace space]
    · have filled := solids_map_code (Gap.isGap_of_mem_separator prev run a.byte?)
      rw [weave_cons_of_not_isSpace space, solids_append, filled, List.nil_append,
        solids_cons_of_not_isSpace space, solids_cons_of_not_isSpace space, ih]

theorem solids_minified_sublist (s : Bytes) :
    (solids (minified s)).Sublist (solids (dropBlank (ofTokens (Token.lex s)))) := by
  rw [← solids_weave none [] (dropBlank _)]
  exact (isInfix_trim _).sublist.filter _

theorem solid_head_of_mem_ofTokens {s : Bytes} {a : Atom}
    (mem : a ∈ solids (ofTokens (Token.lex s))) : ∃ c u, a.bytes = c :: u ∧ ¬ isGap c := by
  obtain ⟨ha, solid⟩ := mem_solids.mp mem
  exact ((isChain_ofTokens (Token.factors_lex s)).2 a ha).solid_head solid

/-- A text that minifying does not change has lost nothing: no comment, no atom, no white space. -/
theorem eq_minified_of_minify_eq {s : Bytes} (h : minify .literal s = s) :
    (∀ tok ∈ Token.lex s, ¬ tok.isComment) ∧ ofTokens (Token.lex s) = minified s ∧
      solids (dropBlank (ofTokens (Token.lex s))) = solids (ofTokens (Token.lex s)) := by
  have text : (Token.lex s).flatMap Token.bytes = s := (Token.factors_lex s).flatMap_bytes
  have result : join (minified s) = s := by rw [← minify_eq_join_minified, h]
  have trimmed := solids_minified_sublist s
  have dropped := solids_dropBlank_sublist (ofTokens (Token.lex s))
  have heavy : ∀ a ∈ solids (ofTokens (Token.lex s)), 0 < Bytes.weight a.bytes := by
    intro a ha
    obtain ⟨c, u, hc, solid⟩ := solid_head_of_mem_ofTokens ha
    rw [hc]
    exact Bytes.weight_cons_pos solid u
  have first := weight_join_le trimmed
  have second := weight_join_le dropped
  have third := weight_ofTokens_le (Token.lex s)
  rw [weight_solids, weight_solids, result] at first
  rw [weight_solids, weight_solids] at second
  rw [text] at third
  have uncommented : ∀ tok ∈ Token.lex s, ¬ tok.isComment := by
    apply not_isComment_of_weight
    rw [text]
    omega
  have whole : solids (minified s) = solids (ofTokens (Token.lex s)) := by
    apply eq_of_sublist_of_weight (trimmed.trans dropped) heavy
    rw [weight_solids, weight_solids, result]
    omega
  refine ⟨uncommented, ?_, ?_⟩
  · apply eq_of_join_eq (fun a => solid_head_of_mem_ofTokens) _ whole.symm
    rw [join_ofTokens uncommented, text, result]
  · apply eq_of_sublist_of_weight dropped heavy
    rw [weight_solids, weight_solids]
    omega

end Atom

end LuaCompact
