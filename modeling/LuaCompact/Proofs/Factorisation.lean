import LuaCompact.Proofs.Atom
import LuaCompact.Proofs.Grammar

namespace LuaCompact

namespace Token

theorem bytes_ne_nil {first : Bool} {tok : Token} {rest : Bytes} (starts : Starts first tok rest) :
    tok.bytes ≠ [] := by
  cases starts with
  | shebang _ mark =>
    rintro (rfl : _ = [])
    exact absurd mark (by decide)
  | blockComment | lineComment => simp [bytes, commentMark]
  | shortString | code => simp [bytes]
  | @longString body =>
    obtain ⟨tail, hb⟩ := body.exists_bytes_eq_cons
    simp [bytes, hb]

theorem factors_scan (s : Bytes) : Factors false s (scan s) := by
  fun_induction scan s with
  | case1 => exact .nil
  | case2 c t ih =>
    obtain ⟨starts, same⟩ := starts_next c t
    rw [same]
    exact .cons starts ih

theorem scan_of_factors {s : Bytes} {ts : List Token} (factors : Factors false s ts) :
    ts = scan s := by
  generalize hfirst : false = first at factors
  induction factors with
  | nil => rw [scan]
  | @cons first tok rest ts starts tail ih =>
    subst hfirst
    obtain ⟨c, s, hs⟩ : ∃ c s, tok.bytes ++ rest = c :: s :=
      List.exists_cons_of_ne_nil (by simp [bytes_ne_nil starts])
    rw [hs, scan, next_of_starts starts hs.symm, ← ih rfl]

/-- Only a shebang makes it matter whether the text is the whole source. -/
theorem Starts.of_not_shebang {first other : Bool} {tok : Token} {rest : Bytes}
    (starts : Starts first tok rest) (h : ¬ shebangMark <+: tok.bytes ++ rest) :
    Starts other tok rest := by
  cases starts with
  | shebang _ mark => exact absurd (mark.trans (List.prefix_append _ _)) h
  | blockComment spans => exact .blockComment spans
  | lineComment absent hline ends => exact .lineComment absent hline ends
  | shortString quote units => exact .shortString quote units
  | longString spans => exact .longString spans
  | code _ plain unquoted absent => exact .code (fun hs => h hs.2) plain unquoted absent

theorem Factors.of_not_shebang {first other : Bool} {s : Bytes} {ts : List Token}
    (factors : Factors first s ts) (h : ¬ shebangMark <+: s) : Factors other s ts := by
  cases factors with
  | nil => exact .nil
  | cons starts tail => exact .cons (starts.of_not_shebang h) tail

theorem factors_lex (s : Bytes) : Factors true s (lex s) := by
  unfold lex
  split
  next mark =>
    rw [List.isPrefixOf_iff_prefix] at mark
    have line : shebangMark <+: s.takeWhile (· != Byte.lf) := by
      obtain ⟨rest, rfl⟩ := mark
      rw [List.takeWhile_append_of_pos (List.all_eq_true.mp (by decide))]
      exact List.prefix_append _ _
    have starts : Starts true (shebang (s.takeWhile (· != Byte.lf))) (s.dropWhile (· != Byte.lf)) :=
      .shebang rfl line (lf_notMem_takeWhile s) (endsLine_dropWhile s)
    have factors := Factors.cons starts (factors_scan _)
    rwa [bytes, List.takeWhile_append_dropWhile] at factors
  next plain => exact (factors_scan s).of_not_shebang (by simpa using plain)

theorem Starts.exists_shebang {tok : Token} {rest : Bytes} (starts : Starts true tok rest)
    (mark : shebangMark <+: tok.bytes ++ rest) : ∃ line, tok = Token.shebang line := by
  have head : (tok.bytes ++ rest).head? = some 35 := by
    obtain ⟨after, h⟩ := mark
    rw [← h]
    rfl
  cases starts with
  | @shebang line => exact ⟨line, rfl⟩
  | blockComment | lineComment => exact absurd (Option.some.inj head) (by decide)
  | shortString quote => exact absurd (Option.some.inj head) (ne_of_isQuote quote (by decide))
  | @longString body =>
    obtain ⟨tail, hb⟩ := body.exists_bytes_eq_cons
    rw [bytes, hb] at head
    exact absurd (Option.some.inj head) (by decide)
  | code plain => exact absurd ⟨rfl, mark⟩ plain

theorem lex_of_factors {s : Bytes} {ts : List Token} (factors : Factors true s ts) :
    ts = lex s := by
  by_cases mark : shebangMark <+: s
  · cases factors with
    | nil => exact absurd mark (by decide)
    | cons starts tail =>
      obtain ⟨line, rfl⟩ := starts.exists_shebang mark
      cases starts with
      | shebang _ _ hline ends =>
        obtain ⟨htake, hdrop⟩ := takeWhile_append_of_endsLine hline ends
        rw [bytes] at mark ⊢
        rw [lex, if_pos (by simpa using mark), htake, hdrop, scan_of_factors tail]
  · rw [lex, if_neg (by simpa using mark)]
    exact scan_of_factors (factors.of_not_shebang mark)

/-- Only a line feed of code starts with a line feed. -/
theorem eq_code_lf_of_endsLine {tok : Token} {rest : Bytes} (starts : Starts false tok rest)
    (ends : EndsLine (tok.bytes ++ rest)) : tok = code Byte.lf := by
  cases starts with
  | shebang first => simp at first
  | blockComment | lineComment => exact absurd (ends Byte.dash rfl) (by decide)
  | shortString quote => exact absurd (ends _ rfl) (ne_of_isQuote quote (by decide))
  | @longString body =>
    obtain ⟨tail, hb⟩ := body.exists_bytes_eq_cons
    rw [bytes, hb] at ends
    exact absurd (ends Byte.openBracket rfl) (by decide)
  | @code c => rw [ends c rfl]

/-- A token that leaves nothing behind runs to the end of its line, or of the text. -/
theorem endsLine_of_atoms_eq_nil {first : Bool} {tok : Token} {rest : Bytes}
    (starts : Starts first tok rest) (gone : tok.atoms = []) : EndsLine rest := by
  cases starts with
  | shebang | shortString | longString | code => simp [atoms] at gone
  | lineComment _ _ ends => exact ends
  | blockComment spans =>
    cases spans with
    | unclosed => simp [EndsLine]
    | closed =>
      simp only [atoms, if_true] at gone
      split at gone <;> simp at gone

theorem Factors.flatMap_bytes {first : Bool} {s : Bytes} {ts : List Token}
    (factors : Factors first s ts) : ts.flatMap bytes = s := by
  induction factors with
  | nil => rfl
  | cons _ _ ih => simp [ih]

end Token

/-- Every text falls into tokens in exactly one way, nothing of it is lost, and the segments that
are read off the text render these tokens and no others do. -/
theorem existsUnique_factors_and_renders (s : Bytes) :
    (∃! ts, Token.Factors true s ts) ∧
      ∀ ts, Token.Factors true s ts → ts.flatMap Token.bytes = s ∧
        ∀ segs, Segment.Renders ts segs ↔ segs = Segment.ofTokens (Token.lex s) := by
  refine ⟨⟨Token.lex s, Token.factors_lex s, fun ts h => Token.lex_of_factors h⟩, ?_⟩
  intro ts factors
  refine ⟨factors.flatMap_bytes, fun segs => ?_⟩
  rw [← Token.lex_of_factors factors, Segment.renders_iff]

end LuaCompact
