import LuaCompact.Proofs.Factorisation
import LuaCompact.Proofs.Flow

namespace LuaCompact

namespace Token

/-- The atom that a token is; white space of code and comments are none. -/
def atom? : Token → Option Atom
  | shebang line => some (.literal line)
  | blockComment _ => none
  | lineComment _ => none
  | shortString t => some (.literal t)
  | longString body => some (.literal body.bytes)
  | code b => if isGap b then none else some (.code b)

/-- Whether a token between two atoms breaks the line: a line feed or a carriage return of code does,
and a closed block comment does if it spans a line feed. -/
def breaksLine : Token → Bool
  | code b => b = Byte.lf || b = Byte.cr
  | blockComment body => body.closed && Byte.lf ∈ body.text
  | _ => false

end Token

/-- An atom and what the source has between it and the atom before it. -/
structure Placed where
  trivia : List Token
  atom : Atom
deriving DecidableEq, Repr

namespace Placed

/-- The atoms of a list of tokens in their places. `trivia` has been read since the last atom; what
follows the last one is left out. -/
def ofTokens (trivia : List Token) : List Token → List Placed
  | [] => []
  | tok :: ts =>
    match tok.atom? with
    | none => ofTokens (trivia ++ [tok]) ts
    | some a => ⟨trivia, a⟩ :: ofTokens [] ts

/-- What is written between two atoms. -/
def between (a : Atom) (trivia : List Token) (b : Atom) : Bytes :=
  if a = .code Byte.semicolon then [Byte.lf]
  else if trivia = [] then []
  else if trivia.any Token.breaksLine then [Byte.lf]
  else if a = .code Byte.dash ∧ b = .code Byte.dash then [Byte.space]
  else if a.byte?.any Gap.isOperator || b.byte?.any Gap.isOperator then []
  else [Byte.space]

/-- What is written behind the atom `a`. -/
def writtenAfter (a : Atom) : List Placed → Bytes
  | [] => []
  | p :: ps => between a p.trivia p.atom ++ p.atom.bytes ++ writtenAfter p.atom ps

/-- The atoms as written, with nothing before the first and nothing behind the last. -/
def written : List Placed → Bytes
  | [] => []
  | p :: ps => p.atom.bytes ++ writtenAfter p.atom ps

/-- If nothing of the trivia stays, there is none, or the line or the text ends behind it. -/
def Shows (trivia : List Token) (first : Bool) (s : Bytes) : Prop :=
  Atom.ofTokens trivia = [] → trivia = [] ∨ first = false ∧ Token.EndsLine s

theorem atoms_of_atom?_eq_some {tok : Token} {a : Atom} (h : tok.atom? = some a) :
    tok.atoms = [a] ∧ ¬ a.isSpace := by
  cases tok with
  | shebang | shortString | longString =>
    cases Option.some.inj h
    exact ⟨rfl, by simp [Atom.isSpace]⟩
  | blockComment | lineComment => simp [Token.atom?] at h
  | code b =>
    rw [Token.atom?] at h
    split at h
    next => simp at h
    next solid =>
      cases Option.some.inj h
      exact ⟨rfl, solid⟩

theorem isSpace_of_atom?_eq_none {tok : Token} (h : tok.atom? = none) :
    ∀ a ∈ tok.atoms, a.isSpace := by
  cases tok with
  | shebang | shortString | longString => simp [Token.atom?] at h
  | lineComment => simp [Token.atoms]
  | blockComment body => exact fun a ha => Atom.isSpace_of_mem_blockComment ha
  | code b =>
    intro a ha
    rw [Token.atoms, List.mem_singleton] at ha
    rw [ha, Atom.isSpace]
    by_contra solid
    simp [Token.atom?, solid] at h

theorem any_isBreak_atoms {tok : Token} (h : tok.atom? = none) :
    (Atom.join tok.atoms).any Token.isBreak = tok.breaksLine := by
  cases tok with
  | shebang | shortString | longString => simp [Token.atom?] at h
  | lineComment => rfl
  | blockComment body =>
    simp only [Token.atoms, Token.breaksLine]
    by_cases closed : body.closed
    · by_cases mem : Byte.lf ∈ body.text
      · simp [closed, mem, Atom.bytes, Token.isBreak]
      · simp only [closed, mem, if_true, if_false]
        decide
    · simp [closed]
  | code b => simp [Token.atoms, Token.breaksLine, Atom.bytes, Token.isBreak]

theorem any_isBreak_ofTokens {trivia : List Token} (h : ∀ tok ∈ trivia, tok.atom? = none) :
    (Atom.join (Atom.ofTokens trivia)).any Token.isBreak = trivia.any Token.breaksLine := by
  induction trivia with
  | nil => rfl
  | cons tok trivia ih =>
    have here := any_isBreak_atoms (h tok (by simp))
    have later := ih fun t ht => h t (by simp [ht])
    rw [Atom.ofTokens] at later ⊢
    rw [List.flatMap_cons, Atom.join_append, List.any_append, here, later, List.any_cons]

theorem join_eq_nil_of_isSpace {as : List Atom} (spaces : ∀ a ∈ as, a.isSpace)
    (empty : Atom.join as = []) : as = [] := by
  cases as with
  | nil => rfl
  | cons a as =>
    have space := spaces a (by simp)
    cases a with
    | code b => simp [Atom.bytes] at empty
    | literal t => simp [Atom.isSpace] at space

theorem shows_append {trivia : List Token} {first : Bool} {tok : Token} {rest : Bytes}
    (starts : Token.Starts first tok rest) : Shows (trivia ++ [tok]) false rest := by
  intro empty
  have gone : tok.atoms = [] := by
    simp only [Atom.ofTokens, List.flatMap_append, List.append_eq_nil_iff] at empty
    simpa using empty.2
  exact .inr ⟨rfl, Token.endsLine_of_atoms_eq_nil starts gone⟩

theorem between_eq_separator {trivia : List Token} {first : Bool} {tok : Token} {rest : Bytes}
    {b : Atom} (spaces : ∀ t ∈ trivia, t.atom? = none) (starts : Token.Starts first tok rest)
    (shows : Shows trivia first (tok.bytes ++ rest)) (h : tok.atom? = some b) (a : Atom) :
    between a trivia b = Gap.separator a.byte? (Atom.join (Atom.ofTokens trivia)) b.byte? := by
  have empty : Atom.join (Atom.ofTokens trivia) = [] ↔ trivia = [] := by
    constructor
    · intro gone
      have none : Atom.ofTokens trivia = [] := by
        apply join_eq_nil_of_isSpace _ gone
        intro a ha
        obtain ⟨t, ht, hat⟩ := List.mem_flatMap.mp ha
        exact isSpace_of_atom?_eq_none (spaces t ht) a hat
      rcases shows none with rfl | ⟨rfl, ends⟩
      · rfl
      · rw [Token.eq_code_lf_of_endsLine starts ends] at h
        simp [Token.atom?, isGap] at h
    · rintro rfl
      rfl
  have byte (a : Atom) (c : UInt8) : a.byte? = some c ↔ a = .code c := by
    cases a <;> simp [Atom.byte?]
  simp only [between, Gap.separator, empty, any_isBreak_ofTokens spaces, byte]

theorem ofTokens_cons_of_none {tok : Token} (h : tok.atom? = none) (trivia ts : List Token) :
    ofTokens trivia (tok :: ts) = ofTokens (trivia ++ [tok]) ts := by
  rw [ofTokens, h]

theorem ofTokens_cons_of_some {tok : Token} {a : Atom} (h : tok.atom? = some a)
    (trivia ts : List Token) : ofTokens trivia (tok :: ts) = ⟨trivia, a⟩ :: ofTokens [] ts := by
  rw [ofTokens, h]

/-- A token that is no atom joins the white space before it. -/
theorem flow_atoms_append {tok : Token} (h : tok.atom? = none) (prev : Option Atom)
    (trivia ts : List Token) :
    Atom.flow prev (Atom.join (Atom.ofTokens trivia)) (Atom.ofTokens (tok :: ts)) =
      Atom.flow prev (Atom.join (Atom.ofTokens (trivia ++ [tok]))) (Atom.ofTokens ts) := by
  rw [Atom.ofTokens_cons, Atom.flow_append_of_isSpace (isSpace_of_atom?_eq_none h)]
  simp [Atom.ofTokens]

theorem writtenAfter_ofTokens {first : Bool} {s : Bytes} {ts trivia : List Token}
    (factors : Token.Factors first s ts) (spaces : ∀ t ∈ trivia, t.atom? = none)
    (shows : Shows trivia first s) (a : Atom) :
    writtenAfter a (ofTokens trivia ts) =
      Atom.flow (some a) (Atom.join (Atom.ofTokens trivia)) (Atom.ofTokens ts) := by
  induction factors generalizing trivia a with
  | nil => rfl
  | @cons first tok rest ts starts tail ih =>
    cases h : tok.atom? with
    | none =>
      rw [ofTokens_cons_of_none h, flow_atoms_append h]
      refine ih ?_ (shows_append starts) a
      intro t ht
      rcases List.mem_append.mp ht with ht | ht
      · exact spaces t ht
      · rwa [List.mem_singleton.mp ht]
    | some b =>
      obtain ⟨hatoms, solid⟩ := atoms_of_atom?_eq_some h
      have none : ∀ t ∈ ([] : List Token), t.atom? = none := by simp
      have next := ih none (fun _ => .inl rfl) b
      rw [ofTokens_cons_of_some h, writtenAfter, Atom.ofTokens_cons_of_atoms hatoms,
        Atom.flow_cons_of_not_isSpace solid, between_eq_separator spaces starts shows h, next]
      rfl

theorem written_ofTokens {first : Bool} {s : Bytes} {ts : List Token}
    (factors : Token.Factors first s ts) (trivia : List Token) :
    written (ofTokens trivia ts) =
      Atom.flow none (Atom.join (Atom.ofTokens trivia)) (Atom.ofTokens ts) := by
  induction factors generalizing trivia with
  | nil => rfl
  | @cons first tok rest ts starts tail ih =>
    cases h : tok.atom? with
    | none => rw [ofTokens_cons_of_none h, flow_atoms_append h, ih]
    | some b =>
      obtain ⟨hatoms, solid⟩ := atoms_of_atom?_eq_some h
      have none : ∀ t ∈ ([] : List Token), t.atom? = none := by simp
      have next := writtenAfter_ofTokens tail none (fun _ => .inl rfl) b
      rw [ofTokens_cons_of_some h, written, Atom.ofTokens_cons_of_atoms hatoms,
        Atom.flow_cons_of_not_isSpace solid, next]
      rfl

end Placed

/-- Where the white space of the code is plain, atoms that would be trimmed are white space. -/
theorem isSpace_of_isTrimmed {segs : List Segment}
    (plain : ∀ t, Segment.code t ∈ segs → PlainSpace t) {a : Atom} (mem : a ∈ Atom.ofSegments segs)
    (trimmed : a.isTrimmed) : a.isSpace := by
  obtain ⟨seg, hseg, ha⟩ := List.mem_flatMap.mp mem
  cases seg with
  | literal t =>
    rw [Segment.atoms, List.mem_singleton] at ha
    simp [ha, Atom.isTrimmed] at trimmed
  | code t =>
    obtain ⟨b, hb, rfl⟩ := List.mem_map.mp ha
    exact isGap_of_isEdge (plain t hseg) hb trimmed

theorem isSpace_of_isBlankLine {segs : List Segment} (separated : Segment.Separated segs)
    (plain : ∀ t, Segment.code t ∈ segs → PlainSpace t) {line : List Atom}
    (mem : line ∈ Atom.lines (Atom.ofSegments segs)) (blank : Atom.isBlankLine line) :
    ∀ a ∈ line, a.isSpace := by
  obtain ⟨t, rfl⟩ := Atom.exists_map_code_of_isBlankLine blank
  rw [Atom.isBlankLine_map_code] at blank
  intro a ha
  obtain ⟨b, hb, rfl⟩ := List.mem_map.mp ha
  obtain ⟨u, hu, inside⟩ := Segment.exists_code_of_infix separated (List.ne_nil_of_mem hb)
    (infix_of_mem_splitOn mem)
  exact isGap_of_isBlank ((plain u hu).of_part inside) blank b hb

/-- What minifying comes to. Where the code has no white space but tab, line feed, form feed, carriage
return and space, the result is the atoms of the source in their order, and what stands between two
of them is told by these two and by what the source has between them. -/
theorem minify_eq_written (s : Bytes)
    (plain : ∀ t, Segment.code t ∈ Segment.ofTokens (Token.lex s) → PlainSpace t) :
    minify .literal s = Placed.written (Placed.ofTokens [] (Token.lex s)) := by
  have separated := Segment.separated_ofTokens (Token.lex s)
  rw [minify_literal_eq, Placed.written_ofTokens (Token.factors_lex s),
    ← Segment.ofSegments_ofTokens (Token.lex s)]
  have blank (line) (mem : line ∈ Atom.lines (Atom.ofSegments (Segment.ofTokens (Token.lex s)))) :=
    isSpace_of_isBlankLine separated plain mem
  rw [Atom.join_trim_weave, Atom.flow_dropBlank blank]
  · rfl
  · intro a ha trimmed
    rcases Atom.mem_of_mem_dropBlank ha with rfl | ha
    · decide
    · exact isSpace_of_isTrimmed plain ha trimmed

/-- Two minus signs apart, a comment between two names, a semicolon before a literal. -/
theorem minify_eq_written_sample :
    (∀ t, Segment.code t ∈ Segment.ofTokens
        (Token.lex (utf8 "#!lua\n x = - -y --[[a]] z --b\n; 's  t' --[[\n]] [=[u]=] ")) → PlainSpace t) ∧
      minify .literal (utf8 "#!lua\n x = - -y --[[a]] z --b\n; 's  t' --[[\n]] [=[u]=] ") =
        utf8 "#!lua\nx=- -y z\n;\n's  t'\n[=[u]=]" := by
  have ascii : ∀ seg ∈ Segment.ofTokens
      (Token.lex (utf8 "#!lua\n x = - -y --[[a]] z --b\n; 's  t' --[[\n]] [=[u]=] ")),
      (∀ b ∈ seg.text, b.toNat < 0x80) ∧ Byte.vt ∉ seg.text := by decide +kernel
  have plain : ∀ t, Segment.code t ∈ Segment.ofTokens
      (Token.lex (utf8 "#!lua\n x = - -y --[[a]] z --b\n; 's  t' --[[\n]] [=[u]=] ")) →
      PlainSpace t :=
    fun t ht => plainSpace_of_ascii (ascii _ ht).1 (ascii _ ht).2
  refine ⟨plain, ?_⟩
  rw [minify_eq_written _ plain]
  decide +kernel

end LuaCompact
