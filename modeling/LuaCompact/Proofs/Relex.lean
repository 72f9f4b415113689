import LuaCompact.Proofs.Linkage

namespace LuaCompact

/-- Whether a token is a comment. -/
def Token.isComment : Token → Bool
  | .blockComment _ => true
  | .lineComment _ => true
  | _ => false

/-- The text of a literal segment. -/
def Segment.literal? : Segment → Option Bytes
  | .code _ => none
  | .literal t => some t

theorem filterMap_dropWhile {α β : Type} {p : α → Bool} {f : α → Option β}
    (h : ∀ x, p x → f x = none) (xs : List α) : (xs.dropWhile p).filterMap f = xs.filterMap f := by
  induction xs with
  | nil => rfl
  | cons x xs ih =>
    by_cases drops : p x
    · rw [List.dropWhile_cons_of_pos drops, ih, List.filterMap_cons_none (h x drops)]
    · rw [List.dropWhile_cons_of_neg drops]

namespace Atom

theorem literal?_eq_none_of_isTrimmed (a : Atom) (h : a.isTrimmed) : a.literal? = none := by
  cases a with
  | code => rfl
  | literal => simp [isTrimmed] at h

theorem filterMap_literal?_trim (as : List Atom) :
    (trim as).filterMap literal? = as.filterMap literal? := by
  have start := filterMap_dropWhile literal?_eq_none_of_isTrimmed
  rw [trim, List.rdropWhile, List.filterMap_reverse, start, ← List.filterMap_reverse,
    List.reverse_reverse, start]

theorem filterMap_literal?_map_code (t : Bytes) : (t.map code).filterMap literal? = [] := by
  simp [List.filterMap_map, literal?]

theorem filterMap_literal?_weave (prev : Option UInt8) (run : Bytes) (as : List Atom) :
    (weave prev run as).filterMap literal? = as.filterMap literal? := by
  induction as generalizing prev run with
  | nil => exact filterMap_literal?_map_code _
  | cons a as ih =>
    by_cases space : a.isSpace
    · obtain ⟨c, rfl, _⟩ := exists_code_of_isSpace space
      rw [weave_cons_of_isSpace space, ih, List.filterMap_cons_none rfl]
    · rw [weave_cons_of_not_isSpace space, List.filterMap_append, filterMap_literal?_map_code,
        List.nil_append, List.filterMap_cons, List.filterMap_cons, ih]

theorem filterMap_literal?_ofSegments (segs : List Segment) :
    (ofSegments segs).filterMap literal? = segs.filterMap Segment.literal? := by
  induction segs with
  | nil => rfl
  | cons seg segs ih =>
    cases seg with
    | code t =>
      rw [Segment.ofSegments_code, List.filterMap_append, filterMap_literal?_map_code, ih]
      rfl
    | literal t =>
      rw [Segment.ofSegments_literal, List.filterMap_cons, ih]
      rfl

end Atom

theorem Segment.filterMap_literal?_dropBlankFrom (first : Bool) (segs : List Segment) :
    (dropBlankFrom first segs).filterMap literal? = segs.filterMap literal? := by
  induction segs generalizing first with
  | nil => rfl
  | cons seg segs ih =>
    cases seg with
    | code t =>
      rw [dropBlankFrom, List.filterMap_append, ih, List.filterMap_cons_none rfl, ofCode]
      split <;> rfl
    | literal t => rw [dropBlankFrom, List.filterMap_cons, List.filterMap_cons, ih]

theorem filterMap_literal?_strip (s : Bytes) :
    (strip .literal s).filterMap Segment.literal? =
      (Atom.ofTokens (Token.lex s)).filterMap Atom.literal? := by
  rw [← Segment.ofSegments_ofTokens, Atom.filterMap_literal?_ofSegments]
  exact Segment.filterMap_literal?_dropBlankFrom true _

namespace Token

theorem Starts.inner {first : Bool} {tok : Token} {rest : Bytes} (starts : Starts first tok rest)
    (h : ∀ line, tok ≠ Token.shebang line) : Starts false tok rest := by
  cases starts with
  | @shebang line => exact absurd rfl (h line)
  | blockComment spans => exact .blockComment spans
  | lineComment absent hline ends => exact .lineComment absent hline ends
  | shortString quote units => exact .shortString quote units
  | longString spans => exact .longString spans
  | code _ plain unquoted absent => exact .code (by simp) plain unquoted absent

/-- Behind the first line, no literal starts like a shebang. -/
theorem Factors.head?_literal {s t : Bytes} {ts : List Token} (factors : Factors false s ts)
    (mem : .literal t ∈ Atom.ofTokens ts) : t.head? ≠ some 35 := by
  generalize hfirst : false = first at factors
  induction factors with
  | nil => simp [Atom.ofTokens] at mem
  | @cons first tok rest ts starts tail ih =>
    subst hfirst
    rcases List.mem_append.mp mem with mem | mem
    · cases starts with
      | shebang first => simp at first
      | @blockComment body => exact absurd mem (Atom.literal_notMem_blockComment body t)
      | lineComment | code => simp [atoms] at mem
      | shortString quote =>
        cases List.mem_singleton.mp mem
        simpa using ne_of_isQuote quote (by decide)
      | @longString body =>
        cases List.mem_singleton.mp mem
        obtain ⟨tail, hb⟩ := body.exists_bytes_eq_cons
        rw [hb, List.head?_cons, ne_eq, Option.some.injEq]
        decide
    · exact ih mem rfl

end Token

namespace Atom

/-- Atoms that each fit before the next are the tokens of their text. -/
theorem exists_factors {as : List Atom} (chain : List.IsChain Fits as)
    (sits : ∀ a ∈ as, a.Sits []) (inner : ∀ t, literal t ∈ as → t.head? ≠ some 35) :
    ∃ ts, Token.Factors false (join as) ts ∧ ofTokens ts = as ∧ ∀ tok ∈ ts, ¬ tok.isComment := by
  induction as with
  | nil => exact ⟨[], .nil, rfl, by simp⟩
  | cons a as ih =>
    obtain ⟨ts, factors, same, plain⟩ := ih chain.tail (fun b hb => sits b (by simp [hb]))
      (fun t ht => inner t (by simp [ht]))
    have here : a.Sits (join as) := by
      cases as with
      | nil => exact sits a (by simp)
      | cons b as => exact chain.rel_head? rfl (join as)
    obtain ⟨first, tok, starts, hatoms, hbytes⟩ := here
    have starts : Token.Starts false tok (join as) := by
      apply starts.inner
      rintro line rfl
      cases starts with
      | shebang _ mark =>
        cases List.singleton_inj.mp hatoms
        obtain ⟨after, rfl⟩ := mark
        exact inner _ List.mem_cons_self rfl
    have uncommented : ¬ tok.isComment := by
      cases tok with
      | shebang | shortString | longString | code => simp [Token.isComment]
      | lineComment => simp [Token.atoms] at hatoms
      | blockComment body =>
        cases a with
        | code => simp [Token.bytes, Token.commentMark, bytes] at hbytes
        | literal t =>
          exact absurd (hatoms ▸ List.mem_singleton_self _) (literal_notMem_blockComment body t)
    refine ⟨tok :: ts, ?_, ?_, List.forall_mem_cons.mpr ⟨uncommented, plain⟩⟩
    · have factors := Token.Factors.cons starts factors
      rwa [hbytes] at factors
    · rw [ofTokens_cons_of_atoms hatoms, same]

theorem exists_dropBlank_literal (line : Bytes) (as : List Atom) :
    ∃ bs, dropBlank (literal line :: as) = literal line :: bs := by
  obtain ⟨first, ls, hlines⟩ := List.exists_cons_of_ne_nil (List.splitOn_ne_nil lineFeed as)
  have split : lines (literal line :: as) = (literal line :: first) :: ls := by
    rw [lines, List.splitOn_cons_eq_if_modifyHead, hlines]
    rfl
  have content := isBlankLine_append_literal [] first line
  rw [List.nil_append] at content
  rw [dropBlank, keptLines, split, List.filter_cons_of_pos (by simp [content]),
    intercalate_cons_eq]
  exact ⟨_, rfl⟩

theorem trim_cons_literal (line : Bytes) (as : List Atom) :
    trim (literal line :: as) = literal line :: as.rdropWhile isTrimmed := by
  have last := rdropWhile_append_literal [] as line
  rw [trim, List.dropWhile_cons_of_neg (by simp [isTrimmed])]
  simpa using last

theorem Sits.starts_shebang {line rest : Bytes} (sits : (literal line).Sits rest)
    (mark : Token.shebangMark <+: line) : Token.Starts true (.shebang line) rest := by
  obtain ⟨first, tok, starts, hatoms, _⟩ := sits
  obtain ⟨after, hline⟩ := mark
  cases starts with
  | shebang _ mark hline ends =>
    cases List.singleton_inj.mp hatoms
    exact .shebang rfl mark hline ends
  | @blockComment body =>
    exact absurd (hatoms ▸ List.mem_singleton_self _) (literal_notMem_blockComment body line)
  | lineComment | code => simp [Token.atoms] at hatoms
  | shortString quote =>
    cases List.singleton_inj.mp hatoms
    exact absurd (List.cons.inj hline).1.symm (Token.ne_of_isQuote quote (by decide))
  | @longString body =>
    cases List.singleton_inj.mp hatoms
    obtain ⟨tail, hb⟩ := body.exists_bytes_eq_cons
    rw [hb] at hline
    exact absurd (List.cons.inj hline).1 (by decide)

/-- What the text `s` comes to when it is minified, atom by atom. -/
def minified (s : Bytes) : List Atom := trim (weave none [] (dropBlank (ofTokens (Token.lex s))))

theorem filterMap_literal?_minified (s : Bytes) :
    (minified s).filterMap literal? = (ofTokens (Token.lex s)).filterMap literal? := by
  have separated := Segment.separated_ofTokens (Token.lex s)
  rw [minified, filterMap_literal?_trim, filterMap_literal?_weave, ← Segment.ofSegments_ofTokens,
    ← Segment.ofSegments_dropBlankLines separated, filterMap_literal?_ofSegments,
    filterMap_literal?_ofSegments]
  exact Segment.filterMap_literal?_dropBlankFrom true _

theorem sits_minified (s : Bytes) : ∀ a ∈ minified s, a.Sits [] := by
  have sits := (isChain_ofTokens (Token.factors_lex s)).2
  intro a ha
  rcases mem_weave ((isInfix_trim _).subset ha) with space | ha
  · exact sits_of_isSpace space []
  · rcases mem_of_mem_dropBlank ha with rfl | ha
    · exact sits_of_isSpace (by decide) []
    · exact sits a ha

theorem isChain_minified {s : Bytes} (apart : Apart (dropBlank (ofTokens (Token.lex s)))) :
    List.IsChain Fits (minified s) := by
  obtain ⟨chain, sits⟩ := isChain_ofTokens (Token.factors_lex s)
  refine List.IsChain.infix (isChain_weave ?_ (isChain_dropBlank chain) apart)
    (isInfix_trim _)
  intro a ha
  rcases mem_of_mem_dropBlank ha with rfl | ha
  · exact sits_of_isSpace (by decide) []
  · exact sits a ha

theorem mem_filterMap_literal? {as : List Atom} {t : Bytes} :
    t ∈ as.filterMap literal? ↔ literal t ∈ as := by
  rw [List.mem_filterMap]
  constructor
  · rintro ⟨a, ha, h⟩
    cases a with
    | code => simp [literal?] at h
    | literal u => rwa [← Option.some.inj h]
  · exact fun mem => ⟨literal t, mem, rfl⟩

/-- A shebang stays in front. -/
theorem exists_minified_shebang {s : Bytes} (mark : Token.shebangMark <+: s) :
    ∃ line as bs, Token.shebangMark <+: line ∧ ofTokens (Token.lex s) = literal line :: as ∧
      minified s = literal line :: bs ∧ ∀ t, literal t ∈ as → t.head? ≠ some 35 := by
  have factors := Token.factors_lex s
  generalize hlex : Token.lex s = ts at factors
  cases factors with
  | nil => exact absurd mark (by decide)
  | @cons _ tok rest ts starts tail =>
    obtain ⟨line, rfl⟩ := starts.exists_shebang mark
    obtain ⟨bs, hbs⟩ := exists_dropBlank_literal line (ofTokens ts)
    have front : ofTokens (.shebang line :: ts) = literal line :: ofTokens ts := rfl
    refine ⟨line, ofTokens ts, (weave none [] bs).rdropWhile isTrimmed, ?_, front, ?_, ?_⟩
    · cases starts with
      | shebang _ mark => exact mark
    · rw [minified, hlex, front, hbs, ← trim_cons_literal]
      rfl
    · exact fun t mem => tail.head?_literal mem

theorem exists_factors_minified {s : Bytes} (apart : Apart (dropBlank (ofTokens (Token.lex s))))
    (mark : Token.shebangMark <+: join (minified s) → Token.shebangMark <+: s) :
    ∃ ts, Token.Factors true (join (minified s)) ts ∧ ofTokens ts = minified s ∧
      ∀ tok ∈ ts, ¬ tok.isComment := by
  have chain := isChain_minified apart
  have sits := sits_minified s
  have literals := filterMap_literal?_minified s
  by_cases first : Token.shebangMark <+: s
  · obtain ⟨line, as, bs, hline, source, result, inner⟩ := exists_minified_shebang first
    rw [source, result] at literals
    rw [result] at chain sits ⊢
    have rest : bs.filterMap literal? = as.filterMap literal? := (List.cons.inj literals).2
    have behind (t : Bytes) (mem : literal t ∈ bs) : t.head? ≠ some 35 := by
      rw [← mem_filterMap_literal?, rest, mem_filterMap_literal?] at mem
      exact inner t mem
    have tail : List.IsChain Fits bs := chain.tail
    obtain ⟨ts, factors, same, plain⟩ :=
      exists_factors tail (fun a ha => sits a (List.mem_cons_of_mem _ ha)) behind
    have here : (literal line).Sits (join bs) := by
      cases bs with
      | nil => exact sits _ (by simp)
      | cons b bs => exact chain.rel_head? rfl (join bs)
    refine ⟨.shebang line :: ts, .cons (here.starts_shebang hline) factors, ?_, ?_⟩
    · rw [← same]
      rfl
    · exact List.forall_mem_cons.mpr ⟨by simp [Token.isComment], plain⟩
  · have factors : Token.Factors false s (Token.lex s) := (Token.factors_lex s).of_not_shebang first
    have inner (t : Bytes) (mem : literal t ∈ minified s) : t.head? ≠ some 35 := by
      rw [← mem_filterMap_literal?, literals, mem_filterMap_literal?] at mem
      exact factors.head?_literal mem
    obtain ⟨ts, factors, same, plain⟩ := exists_factors chain sits inner
    exact ⟨ts, factors.of_not_shebang fun h => first (mark h), same, plain⟩

end Atom

/-- In no code does a bracket open before an equals sign, be there white space between them or not. -/
def BracketsApart (s : Bytes) : Prop :=
  ∀ t, Segment.code t ∈ strip .literal s → ∀ run, (∀ b ∈ run, isGap b) →
    ¬ Byte.openBracket :: run ++ [Byte.equals] <:+: t

/-- The result starts like a shebang only if the source does. -/
def ShebangKept (s : Bytes) : Prop :=
  Token.shebangMark <+: minify .literal s → Token.shebangMark <+: s

theorem BracketsApart.apart {s : Bytes} (brackets : BracketsApart s) :
    Atom.Apart (Atom.dropBlank (Atom.ofTokens (Token.lex s))) := by
  have separated := Segment.separated_ofTokens (Token.lex s)
  rw [← Segment.ofSegments_ofTokens, ← Segment.ofSegments_dropBlankLines separated]
  intro run gaps inside
  obtain ⟨u, hu, within⟩ := Segment.exists_code_of_infix
    (Segment.separated_dropBlankFrom true separated) (by simp) inside
  exact brackets u hu run gaps within

theorem minify_eq_join_minified (s : Bytes) : minify .literal s = Atom.join (Atom.minified s) :=
  minify_literal_eq s

theorem ofTokens_lex_minify {s : Bytes} (brackets : BracketsApart s) (shebang : ShebangKept s) :
    Atom.ofTokens (Token.lex (minify .literal s)) = Atom.minified s ∧
      ∀ tok ∈ Token.lex (minify .literal s), ¬ tok.isComment := by
  rw [ShebangKept, minify_eq_join_minified] at shebang
  obtain ⟨ts, factors, same, plain⟩ := Atom.exists_factors_minified brackets.apart shebang
  rw [minify_eq_join_minified, ← Token.lex_of_factors factors]
  exact ⟨same, plain⟩

/-- Minified text reads as what it was minified from. Where no bracket opens before an equals sign in
the code and no shebang comes up, it has no comments and the literals of the source, each as it was
and in their order. -/
theorem lex_minify_keeps_literals (s : Bytes) (brackets : BracketsApart s)
    (shebang : ShebangKept s) :
    (∀ tok ∈ Token.lex (minify .literal s), ¬ tok.isComment) ∧
      (strip .literal (minify .literal s)).filterMap Segment.literal? =
        (strip .literal s).filterMap Segment.literal? := by
  obtain ⟨same, plain⟩ := ofTokens_lex_minify brackets shebang
  rw [filterMap_literal?_strip, filterMap_literal?_strip, same]
  exact ⟨plain, Atom.filterMap_literal?_minified s⟩

/-- A bracket before a long string, two minus signs, and a string that its line ends. -/
theorem lex_minify_keeps_literals_sample :
    BracketsApart (utf8 "#!lua\n a [ [[k]] ] = - - b --c\n 's\\'\n --[[d]] \"e\"") ∧
      ShebangKept (utf8 "#!lua\n a [ [[k]] ] = - - b --c\n 's\\'\n --[[d]] \"e\"") ∧
      (∀ tok ∈ Token.lex (minify .literal
        (utf8 "#!lua\n a [ [[k]] ] = - - b --c\n 's\\'\n --[[d]] \"e\"")), ¬ tok.isComment) ∧
      (strip .literal (minify .literal
        (utf8 "#!lua\n a [ [[k]] ] = - - b --c\n 's\\'\n --[[d]] \"e\""))).filterMap
          Segment.literal? = [utf8 "#!lua", utf8 "[[k]]", utf8 "'s\\'", utf8 "\"e\""] := by
  have brackets : BracketsApart
      (utf8 "#!lua\n a [ [[k]] ] = - - b --c\n 's\\'\n --[[d]] \"e\"") := by
    have apart : ∀ seg ∈ strip .literal
        (utf8 "#!lua\n a [ [[k]] ] = - - b --c\n 's\\'\n --[[d]] \"e\""),
        Byte.openBracket ∉ seg.text ∨ Byte.equals ∉ seg.text := by decide +kernel
    intro t mem run _ inside
    rcases apart _ mem with absent | absent
    · exact absent (inside.subset (by simp))
    · exact absent (inside.subset (by simp))
  have shebang : ShebangKept
      (utf8 "#!lua\n a [ [[k]] ] = - - b --c\n 's\\'\n --[[d]] \"e\"") :=
    fun _ => by decide +kernel
  have kept := lex_minify_keeps_literals _ brackets shebang
  refine ⟨brackets, shebang, kept.1, kept.2.trans ?_⟩
  decide +kernel

end LuaCompact
