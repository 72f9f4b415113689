import LuaCompact.Proofs.Factorisation
import LuaCompact.Proofs.Flow
import Mathlib.Data.List.Chain

namespace LuaCompact

namespace Bracket

theorem opener_prefix_cons_cons {level : Nat} {c d : UInt8} {s : Bytes}
    (opens : opener level <+: c :: d :: s) :
    c = Byte.openBracket ∧ (d = Byte.openBracket ∨ d = Byte.equals) := by
  cases level with
  | zero =>
    obtain ⟨hc, tail⟩ := List.cons_prefix_cons.mp opens
    exact ⟨hc.symm, .inl (List.cons_prefix_cons.mp tail).1.symm⟩
  | succ level =>
    obtain ⟨hc, tail⟩ := List.cons_prefix_cons.mp opens
    rw [List.replicate_succ, List.cons_append] at tail
    exact ⟨hc.symm, .inr (List.cons_prefix_cons.mp tail).1.symm⟩

theorem not_opener_prefix_singleton (level : Nat) (c : UInt8) : ¬ opener level <+: [c] := by
  intro opens
  have := opens.length_le
  rw [length_opener, List.length_singleton] at this
  omega

end Bracket

namespace Token

/-- A short string either ends with its quote, whatever follows, or at the end of a line, or at the
end of the text. -/
theorem Quoted.ends {quote : UInt8} {text rest : Bytes} (units : Quoted quote text rest) :
    (∀ other, Quoted quote text other) ∨
      (∃ r, rest = Byte.lf :: r) ∧ (∀ other, EndsLine other → Quoted quote text other) ∨
      rest = [] := by
  have none {other : Bytes} (ends : EndsLine other) : Quoted quote [] other := by
    cases other with
    | nil => exact .textEnd
    | cons c other =>
      obtain rfl := ends c rfl
      exact .lineEnd other
  induction units with
  | close => exact .inl fun other => .close other
  | lineEnd r => exact .inr (.inl ⟨⟨r, rfl⟩, fun other => none⟩)
  | textEnd | dangling => exact .inr (.inr rfl)
  | @escape a text rest alone tail ih =>
    rcases ih with closed | ⟨⟨r, rfl⟩, lineEnd⟩ | rfl
    · cases text with
      | nil => nomatch closed [0]
      | cons b text => exact .inl fun other => .escape alone (closed other)
    · refine .inr (.inl ⟨⟨r, rfl⟩, fun other ends => .escape ?_ (lineEnd other ends)⟩)
      cases text with
      | cons b text => exact alone
      | nil =>
        intro b hb
        obtain rfl := ends b hb
        exact alone Byte.lf rfl
    · exact .inr (.inr rfl)
  | escapeBreak pair tail ih =>
    rcases ih with closed | ⟨after, lineEnd⟩ | rfl
    · exact .inl fun other => .escapeBreak pair (closed other)
    · exact .inr (.inl ⟨after, fun other ends => .escapeBreak pair (lineEnd other ends)⟩)
    · exact .inr (.inr rfl)
  | plain hb hq hl tail ih =>
    rcases ih with closed | ⟨after, lineEnd⟩ | rfl
    · exact .inl fun other => .plain hb hq hl (closed other)
    · exact .inr (.inl ⟨after, fun other ends => .plain hb hq hl (lineEnd other ends)⟩)
    · exact .inr (.inr rfl)

/-- The same for every token that is a literal. -/
theorem Starts.ends {first : Bool} {tok : Token} {rest t : Bytes} (starts : Starts first tok rest)
    (literal : tok.atoms = [.literal t]) :
    (∀ other, Starts first tok other) ∨
      (∃ r, rest = Byte.lf :: r) ∧ (∀ other, EndsLine other → Starts first tok other) ∨
      rest = [] := by
  cases starts with
  | @shebang line rest hfirst mark hline ends =>
    cases rest with
    | nil => exact .inr (.inr rfl)
    | cons c rest =>
      obtain rfl := ends c rfl
      exact .inr (.inl ⟨⟨rest, rfl⟩, fun other => .shebang hfirst mark hline⟩)
  | @blockComment body =>
    exact absurd (literal ▸ List.mem_singleton_self _) (Atom.literal_notMem_blockComment body t)
  | lineComment | code => simp [atoms] at literal
  | shortString quote units =>
    rcases units.ends with closed | ⟨after, lineEnd⟩ | rfl
    · exact .inl fun other => .shortString quote (closed other)
    · exact .inr (.inl ⟨after, fun other ends => .shortString quote (lineEnd other ends)⟩)
    · exact .inr (.inr rfl)
  | longString spans =>
    cases spans with
    | closed _ upTo => exact .inl fun other => .longString (.closed other upTo)
    | unclosed => exact .inr (.inr rfl)

theorem atoms_eq_nil_or (tok : Token) : tok.atoms = [] ∨ ∃ a, tok.atoms = [a] := by
  cases tok with
  | shebang | shortString | longString | code => exact .inr ⟨_, rfl⟩
  | lineComment => exact .inl rfl
  | blockComment body =>
    simp only [atoms]
    split
    · split
      · exact .inr ⟨_, rfl⟩
      · exact .inr ⟨_, rfl⟩
    · exact .inl rfl

theorem bytes_eq_of_atoms {tok : Token} {a : Atom} (h : tok.atoms = [a]) (solid : ¬ a.isSpace) :
    tok.bytes = a.bytes := by
  cases tok with
  | shebang | shortString | longString | code =>
    cases List.singleton_inj.mp h
    rfl
  | lineComment => simp [atoms] at h
  | blockComment body =>
    exact absurd (Atom.isSpace_of_mem_blockComment (h ▸ List.mem_singleton_self _)) solid

end Token

namespace Atom

/-- The atom reads as itself before the text `rest`: a token that is just this atom stands there. -/
def Sits (a : Atom) (rest : Bytes) : Prop :=
  ∃ first tok, Token.Starts first tok rest ∧ tok.atoms = [a] ∧ tok.bytes = a.bytes

/-- Before `b` the atom `a` reads as itself, whatever comes behind `b`. -/
def Fits (a b : Atom) : Prop := ∀ rest, a.Sits (b.bytes ++ rest)

theorem sits_code_iff {c : UInt8} {rest : Bytes} :
    (code c).Sits rest ↔ ¬ Token.commentMark <+: c :: rest ∧ ¬ Token.isQuote c ∧
      ∀ level, ¬ Bracket.opener level <+: c :: rest := by
  constructor
  · rintro ⟨first, tok, starts, hatoms, hbytes⟩
    cases starts with
    | shebang | shortString | longString | lineComment => simp [Token.atoms] at hatoms
    | blockComment => simp [Token.bytes, Token.commentMark, bytes] at hbytes
    | code _ plain unquoted absent =>
      cases List.singleton_inj.mp hatoms
      exact ⟨plain, unquoted, absent⟩
  · rintro ⟨plain, unquoted, absent⟩
    exact ⟨false, .code c, .code (by simp) plain unquoted absent, rfl, rfl⟩

theorem not_isQuote_of_isGap {c : UInt8} (gap : isGap c) : ¬ Token.isQuote c := by
  intro quote
  simp only [Token.isQuote, Bool.or_eq_true, decide_eq_true_eq] at quote
  rcases quote with h | h
  · exact ne_of_isGap gap (by decide) h
  · exact ne_of_isGap gap (by decide) h

theorem sits_of_isSpace {a : Atom} (space : a.isSpace) (rest : Bytes) : a.Sits rest := by
  obtain ⟨c, rfl, gap⟩ := exists_code_of_isSpace space
  refine sits_code_iff.mpr ⟨?_, not_isQuote_of_isGap gap, ?_⟩
  · rw [Token.commentMark_prefix_cons_iff]
    exact fun h => ne_of_isGap gap (by decide) h.1
  · intro level opens
    exact ne_of_isGap gap (by decide) (List.cons_prefix_cons.mp opens).1.symm

theorem fits_of_isSpace {a : Atom} (space : a.isSpace) (b : Atom) : Fits a b :=
  fun _ => sits_of_isSpace space _

/-- A literal starts with a quote, a bracket or the mark of a shebang. -/
theorem Sits.literal_head {t rest : Bytes} (sits : (literal t).Sits rest) :
    ∃ c u, t = c :: u ∧ (Token.isQuote c ∨ c = Byte.openBracket ∨ c = 35) := by
  obtain ⟨first, tok, starts, hatoms, hbytes⟩ := sits
  cases starts with
  | shebang _ mark =>
    cases List.singleton_inj.mp hatoms
    obtain ⟨after, h⟩ := mark
    exact ⟨35, 33 :: after, h.symm, .inr (.inr rfl)⟩
  | @shortString quote text _ hq =>
    cases List.singleton_inj.mp hatoms
    exact ⟨quote, text, rfl, .inl hq⟩
  | @longString body =>
    cases List.singleton_inj.mp hatoms
    obtain ⟨tail, hb⟩ := body.exists_bytes_eq_cons
    exact ⟨Byte.openBracket, tail, hb, .inr (.inl rfl)⟩
  | @blockComment body =>
    exact absurd (hatoms ▸ List.mem_singleton_self _) (literal_notMem_blockComment body t)
  | lineComment | code => simp [Token.atoms] at hatoms

/-- A literal that reads as itself before one text does so before every text, or before every end of a
line, or at the end of the text only. -/
theorem Sits.literal_ends {t rest : Bytes} (sits : (literal t).Sits rest) :
    (∀ other, (literal t).Sits other) ∨
      (∃ r, rest = Byte.lf :: r) ∧ (∀ other, Token.EndsLine other → (literal t).Sits other) ∨
      rest = [] := by
  obtain ⟨first, tok, starts, hatoms, hbytes⟩ := sits
  rcases starts.ends hatoms with closed | ⟨after, lineEnd⟩ | rfl
  · exact .inl fun other => ⟨first, tok, closed other, hatoms, hbytes⟩
  · exact .inr (.inl ⟨after, fun other ends => ⟨first, tok, lineEnd other ends, hatoms, hbytes⟩⟩)
  · exact .inr (.inr rfl)

theorem Sits.nil {a : Atom} {rest : Bytes} (sits : a.Sits rest) : a.Sits [] := by
  cases a with
  | code c =>
    obtain ⟨_, unquoted, _⟩ := sits_code_iff.mp sits
    refine sits_code_iff.mpr ⟨?_, unquoted, fun level => Bracket.not_opener_prefix_singleton level c⟩
    rw [Token.commentMark_prefix_cons_iff]
    simp
  | literal t =>
    rcases sits.literal_ends with closed | ⟨_, lineEnd⟩ | rfl
    · exact closed []
    · exact lineEnd [] (by simp [Token.EndsLine])
    · exact sits

theorem Sits.bytes_ne_nil {a : Atom} {rest : Bytes} (sits : a.Sits rest) : a.bytes ≠ [] := by
  obtain ⟨first, tok, starts, _, hbytes⟩ := sits
  rw [← hbytes]
  exact Token.bytes_ne_nil starts

/-- No literal starts with a minus sign or an equals sign. -/
theorem Sits.eq_code {b : Atom} {d : UInt8} {u rest : Bytes} (sits : b.Sits rest)
    (hb : b.bytes = d :: u) (h : d = Byte.dash ∨ d = Byte.equals) : b = code d := by
  cases b with
  | code e => rw [(List.cons.inj hb).1]
  | literal t =>
    obtain ⟨e, v, rfl, he⟩ := sits.literal_head
    rw [(List.cons.inj hb).1] at he
    rcases h with rfl | rfl
    · exact absurd he (by decide)
    · exact absurd he (by decide)

/-- A code byte fits before every atom that makes neither a comment nor a long bracket with it. -/
theorem fits_code {c d : UInt8} {u rest : Bytes} {b : Atom} (sits : (code c).Sits rest)
    (hb : b.bytes = d :: u) (dash : ¬ (c = Byte.dash ∧ d = Byte.dash))
    (bracket : ¬ (c = Byte.openBracket ∧ (d = Byte.openBracket ∨ d = Byte.equals))) :
    Fits (code c) b := by
  intro other
  obtain ⟨_, unquoted, _⟩ := sits_code_iff.mp sits
  rw [hb]
  refine sits_code_iff.mpr ⟨?_, unquoted, ?_⟩
  · rw [Token.commentMark_prefix_cons_iff]
    simpa using dash
  · intro level opens
    exact bracket (Bracket.opener_prefix_cons_cons opens)

theorem fits_code_of_isSpace {c : UInt8} {rest : Bytes} (sits : (code c).Sits rest) {b : Atom}
    (space : b.isSpace) : Fits (code c) b := by
  obtain ⟨d, rfl, gap⟩ := exists_code_of_isSpace space
  refine fits_code sits rfl (fun h => ne_of_isGap gap (by decide) h.2) ?_
  rintro ⟨_, h | h⟩
  · exact ne_of_isGap gap (by decide) h
  · exact ne_of_isGap gap (by decide) h

theorem eq_lineFeed_of_endsLine {rest : Bytes} {ts : List Token} {b : Atom}
    (factors : Token.Factors false rest ts) (ends : Token.EndsLine rest)
    (hb : b ∈ (ofTokens ts).head?) : b = lineFeed := by
  cases factors with
  | nil => simp [ofTokens] at hb
  | cons starts tail =>
    rw [Token.eq_code_lf_of_endsLine starts ends] at hb
    exact (Option.some.inj hb).symm

/-- The text starts with the first atom of its tokens, unless that is white space. -/
theorem exists_append_of_head {rest : Bytes} {ts : List Token} {b : Atom}
    (factors : Token.Factors false rest ts) (hb : b ∈ (ofTokens ts).head?) (solid : ¬ b.isSpace) :
    ∃ after, rest = b.bytes ++ after ∧ b.Sits after := by
  cases factors with
  | nil => simp [ofTokens] at hb
  | @cons _ tok after ts starts tail =>
    rcases tok.atoms_eq_nil_or with gone | ⟨a, hatoms⟩
    · rw [ofTokens_cons, gone, List.nil_append] at hb
      have ends := Token.endsLine_of_atoms_eq_nil starts gone
      rw [eq_lineFeed_of_endsLine tail ends hb] at solid
      exact absurd (by decide) solid
    · rw [ofTokens_cons_of_atoms hatoms] at hb
      obtain rfl := Option.some.inj hb
      have hbytes := Token.bytes_eq_of_atoms hatoms solid
      exact ⟨after, by rw [hbytes], false, tok, starts, hatoms, hbytes⟩

/-- Two atoms that a source text can have side by side. -/
def Meets (a b : Atom) : Prop :=
  Fits a b ∨ a = code Byte.openBracket ∧ b = code Byte.equals

theorem meets_code {c : UInt8} {rest : Bytes} {ts : List Token} {b : Atom}
    (sits : (code c).Sits rest) (factors : Token.Factors false rest ts)
    (hb : b ∈ (ofTokens ts).head?) : Meets (code c) b := by
  by_cases space : b.isSpace
  · exact .inl (fits_code_of_isSpace sits space)
  · obtain ⟨after, rfl, follows⟩ := exists_append_of_head factors hb space
    obtain ⟨d, u, hd⟩ := List.exists_cons_of_ne_nil follows.bytes_ne_nil
    rw [hd, List.cons_append] at sits
    obtain ⟨plain, _, absent⟩ := sits_code_iff.mp sits
    have dash : ¬ (c = Byte.dash ∧ d = Byte.dash) := by
      rwa [Token.commentMark_prefix_cons_iff, List.head?_cons, Option.some.injEq] at plain
    have bracket : ¬ (c = Byte.openBracket ∧ d = Byte.openBracket) := by
      rintro ⟨rfl, rfl⟩
      exact absent 0 ⟨u ++ after, rfl⟩
    by_cases level : c = Byte.openBracket ∧ d = Byte.equals
    · obtain ⟨rfl, rfl⟩ := level
      exact .inr ⟨rfl, follows.eq_code hd (.inr rfl)⟩
    · refine .inl (fits_code sits hd dash ?_)
      rintro ⟨hc, h | h⟩
      · exact bracket ⟨hc, h⟩
      · exact level ⟨hc, h⟩

theorem fits_literal {t rest : Bytes} {ts : List Token} {b : Atom}
    (sits : (literal t).Sits rest) (factors : Token.Factors false rest ts)
    (hb : b ∈ (ofTokens ts).head?) : Fits (literal t) b := by
  rcases sits.literal_ends with closed | ⟨⟨r, rfl⟩, lineEnd⟩ | rfl
  · exact fun other => closed _
  · have ends : Token.EndsLine (Byte.lf :: r) := by simp [Token.EndsLine]
    rw [eq_lineFeed_of_endsLine factors ends hb]
    exact fun other => lineEnd _ (by simp [Token.EndsLine, bytes])
  · generalize hrest : [] = rest at factors
    cases factors with
    | nil => simp [ofTokens] at hb
    | cons starts => simp [Token.bytes_ne_nil starts] at hrest

/-- What a source text leaves behind has each atom where it reads as itself. -/
theorem isChain_ofTokens {first : Bool} {s : Bytes} {ts : List Token}
    (factors : Token.Factors first s ts) :
    List.IsChain Meets (ofTokens ts) ∧ ∀ a ∈ ofTokens ts, a.Sits [] := by
  induction factors with
  | nil => exact ⟨.nil, by simp [ofTokens]⟩
  | @cons first tok rest ts starts tail ih =>
    obtain ⟨chain, sits⟩ := ih
    rcases tok.atoms_eq_nil_or with gone | ⟨a, hatoms⟩
    · rw [ofTokens_cons, gone]
      exact ⟨chain, sits⟩
    · rw [ofTokens_cons_of_atoms hatoms]
      by_cases space : a.isSpace
      · refine ⟨chain.cons fun b _ => .inl (fits_of_isSpace space b), ?_⟩
        exact List.forall_mem_cons.mpr ⟨sits_of_isSpace space [], sits⟩
      · have here : a.Sits rest :=
          ⟨first, tok, starts, hatoms, Token.bytes_eq_of_atoms hatoms space⟩
        refine ⟨chain.cons fun b hb => ?_, List.forall_mem_cons.mpr ⟨here.nil, sits⟩⟩
        cases a with
        | code c => exact meets_code here tail hb
        | literal t => exact .inl (fits_literal here tail hb)

end Atom

end LuaCompact
