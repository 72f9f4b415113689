import LuaCompact.Proofs.Adjacency
import Mathlib

namespace LuaCompact

namespace Bytes

/-- The text with a carriage return put before every line feed. -/
def crlf (s : Bytes) : Bytes := s.flatMap fun b => if b = Byte.lf then [Byte.cr, Byte.lf] else [b]

@[simp] theorem crlf_nil : crlf [] = [] := rfl

@[simp] theorem crlf_append (s t : Bytes) : crlf (s ++ t) = crlf s ++ crlf t := List.flatMap_append

@[simp] theorem crlf_cons_lf (s : Bytes) : crlf (Byte.lf :: s) = Byte.cr :: Byte.lf :: crlf s := rfl

theorem crlf_cons_of_ne {b : UInt8} (h : b ≠ Byte.lf) (s : Bytes) :
    crlf (b :: s) = b :: crlf s := by
  simp [crlf, h]

theorem crlf_of_notMem {s : Bytes} (h : Byte.lf ∉ s) : crlf s = s := by
  induction s with
  | nil => rfl
  | cons b s ih =>
    rw [List.mem_cons, not_or] at h
    rw [crlf_cons_of_ne (Ne.symm h.1), ih h.2]

theorem lf_mem_crlf_iff (s : Bytes) : Byte.lf ∈ crlf s ↔ Byte.lf ∈ s := by
  simp only [crlf, List.mem_flatMap]
  constructor
  · rintro ⟨b, hb, mem⟩
    split at mem
    next h => exact h ▸ hb
    next h => exact absurd (List.mem_singleton.mp mem).symm h
  · exact fun mem => ⟨Byte.lf, mem, by simp⟩

/-- A mark within a line. -/
def InLine (mark : Bytes) : Prop := Byte.cr ∉ mark ∧ Byte.lf ∉ mark

instance (mark : Bytes) : Decidable (InLine mark) :=
  inferInstanceAs (Decidable (Byte.cr ∉ mark ∧ Byte.lf ∉ mark))

theorem InLine.tail {b : UInt8} {mark : Bytes} (inLine : InLine (b :: mark)) :
    b ≠ Byte.cr ∧ b ≠ Byte.lf ∧ InLine mark := by
  obtain ⟨cr, lf⟩ := inLine
  simp only [List.mem_cons, not_or] at cr lf
  exact ⟨Ne.symm cr.1, Ne.symm lf.1, cr.2, lf.2⟩

theorem prefix_crlf_iff {mark : Bytes} (inLine : InLine mark) (s : Bytes) :
    mark <+: crlf s ↔ mark <+: s := by
  induction mark generalizing s with
  | nil => simp
  | cons b mark ih =>
    obtain ⟨cr, lf, later⟩ := inLine.tail
    cases s with
    | nil => rfl
    | cons c s =>
      by_cases feed : c = Byte.lf
      · rw [feed, crlf_cons_lf, List.cons_prefix_cons, List.cons_prefix_cons]
        simp [cr, lf]
      · rw [crlf_cons_of_ne feed, List.cons_prefix_cons, List.cons_prefix_cons, ih later]

theorem cut_cons_of_absent {mark : Bytes} {b : UInt8} {s : Bytes} (h : ¬ mark <+: b :: s) :
    cut mark (b :: s) = (cut mark s).map fun (before, after) => (b :: before, after) := by
  rw [cut, if_neg (by simpa using h)]

theorem cut_append (mark s : Bytes) : cut mark (mark ++ s) = some ([], s) := by
  cases mark with
  | nil => cases s <;> rfl
  | cons b mark =>
    rw [List.cons_append, cut, if_pos (by simp), ← List.cons_append, List.drop_left]

/-- Line breaks do not come into the search for a mark within a line. -/
theorem cut_crlf {mark : Bytes} (nonempty : mark ≠ []) (inLine : InLine mark) (s : Bytes) :
    cut mark (crlf s) = (cut mark s).map fun (before, after) => (crlf before, crlf after) := by
  obtain ⟨b, mark, rfl⟩ := List.exists_cons_of_ne_nil nonempty
  obtain ⟨cr, lf, -⟩ := inLine.tail
  have here (t : Bytes) : crlf (b :: mark ++ t) = b :: mark ++ crlf t := by
    rw [crlf_append, crlf_of_notMem inLine.2]
  induction s with
  | nil => rfl
  | cons c s ih =>
    by_cases found : b :: mark <+: c :: s
    · obtain ⟨t, ht⟩ := found
      rw [← ht, here, cut_append, cut_append]
      rfl
    · rw [cut_cons_of_absent found]
      by_cases feed : c = Byte.lf
      · subst feed
        have absent (d : UInt8) (hd : b ≠ d) (t : Bytes) : ¬ b :: mark <+: d :: t :=
          fun h => hd (List.cons_prefix_cons.mp h).1
        rw [crlf_cons_lf, cut_cons_of_absent (absent _ cr _), cut_cons_of_absent (absent _ lf _),
          ih]
        simp [Function.comp_def]
      · have absent : ¬ b :: mark <+: c :: crlf s := by
          rwa [← crlf_cons_of_ne feed, prefix_crlf_iff inLine]
        rw [crlf_cons_of_ne feed, cut_cons_of_absent absent, ih]
        simp [Function.comp_def, crlf_cons_of_ne feed]

theorem UpToFirst.crlf {mark text : Bytes} (first : UpToFirst mark text) (nonempty : mark ≠ [])
    (inLine : InLine mark) : UpToFirst mark (Bytes.crlf text) := by
  have found := cut_crlf nonempty inLine (text ++ mark ++ [])
  rw [cut_of_upToFirst nonempty first] at found
  rw [List.append_nil, crlf_append, crlf_of_notMem inLine.2] at found
  exact (upToFirst_of_cut found).2

end Bytes

open Bytes

namespace Bracket

theorem inLine_opener (level : Nat) : InLine (opener level) := by
  have cr : Byte.cr ≠ Byte.openBracket ∧ Byte.cr ≠ Byte.equals := by decide
  have lf : Byte.lf ≠ Byte.openBracket ∧ Byte.lf ≠ Byte.equals := by decide
  simp [InLine, opener, List.mem_replicate, cr, lf]

theorem inLine_closer (level : Nat) : InLine (closer level) := by
  have cr : Byte.cr ≠ Byte.closeBracket ∧ Byte.cr ≠ Byte.equals := by decide
  have lf : Byte.lf ≠ Byte.closeBracket ∧ Byte.lf ≠ Byte.equals := by decide
  simp [InLine, closer, List.mem_replicate, cr, lf]

/-- The bracketed text with the line breaks changed. -/
def Body.crlf (body : Body) : Body := { body with text := Bytes.crlf body.text }

theorem Body.bytes_crlf (body : Body) : body.crlf.bytes = Bytes.crlf body.bytes := by
  obtain ⟨level, text, closed⟩ := body
  cases closed <;>
    simp [Body.crlf, Body.bytes, crlf_of_notMem (inLine_opener level).2,
      crlf_of_notMem (inLine_closer level).2]

theorem Spans.crlf {body : Body} {rest : Bytes} (spans : Spans body rest) :
    Spans body.crlf (Bytes.crlf rest) := by
  cases spans with
  | @closed level text rest first =>
    exact .closed _ (first.crlf (closer_ne_nil level) (inLine_closer level))
  | @unclosed level text absent =>
    refine .unclosed ?_
    rw [← cut_eq_none_iff (closer_ne_nil level)] at absent ⊢
    rw [cut_crlf (closer_ne_nil level) (inLine_closer level), absent]
    rfl

end Bracket

namespace Atom

/-- The atom with the line breaks in a literal changed. -/
def crlf : Atom → Atom
  | code b => code b
  | literal t => literal (Bytes.crlf t)

/-- The carriage return of code that may stand before a line feed. -/
abbrev carriageReturn : Atom := code Byte.cr

/-- The atoms without carriage returns of code. -/
def dropReturns (as : List Atom) : List Atom := as.filter (· ≠ carriageReturn)

/-- A carriage return has a line feed behind it. -/
def Paired (a b : Atom) : Prop := a = carriageReturn → b = lineFeed

theorem isChain_paired_append {pre : List Atom} (free : carriageReturn ∉ pre) {as : List Atom}
    (chain : List.IsChain Paired as) : List.IsChain Paired (pre ++ as) := by
  induction pre with
  | nil => exact chain
  | cons a pre ih =>
    rw [List.mem_cons, not_or] at free
    exact (ih free.2).cons fun b _ he => absurd he.symm free.1

theorem dropReturns_append_of_notMem {pre : List Atom} (free : carriageReturn ∉ pre)
    (as : List Atom) : dropReturns (pre ++ as) = pre ++ dropReturns as := by
  have same : pre.filter (· ≠ carriageReturn) = pre := by
    refine List.filter_eq_self.mpr fun a mem => ?_
    simpa using fun h : a = carriageReturn => free (h ▸ mem)
  rw [dropReturns, List.filter_append, same]
  rfl

end Atom

namespace Token

/-- Whether a token is no short string, or one that its quote ends, so that it reads as itself
whatever follows. One that the line or the text ends would go on if more followed. -/
def Closed (tok : Token) : Prop := ∀ text, tok = shortString text → ∀ rest, Starts false tok rest

/-- The same as found by reading the string with a byte behind it that ends none. -/
def isClosed : Token → Bool
  | shortString [] => false
  | shortString (quote :: text) => isQuote quote && quoted quote (text ++ [0]) = (text, [0])
  | _ => true

theorem quoted_of_closed {quote : UInt8} {text : Bytes}
    (closed : (shortString (quote :: text)).Closed) :
    isQuote quote ∧ Quoted quote text [0] := by
  cases closed _ rfl [0] with
  | shortString hq units => exact ⟨hq, units⟩

theorem closed_iff (tok : Token) : tok.Closed ↔ tok.isClosed := by
  cases tok with
  | shebang | blockComment | lineComment | longString | code => simp [Closed, isClosed]
  | shortString text =>
    cases text with
    | nil =>
      refine ⟨fun closed => ?_, fun h => by contradiction⟩
      cases closed [] rfl []
    | cons quote text =>
      simp only [isClosed, Bool.and_eq_true, decide_eq_true_eq]
      constructor
      · intro closed
        obtain ⟨hq, units⟩ := quoted_of_closed closed
        exact ⟨hq, quoted_of_quoted hq units⟩
      · rintro ⟨hq, read⟩ _ same
        cases same
        have units := (quoted_quoted quote (text ++ [0])).1
        rw [read] at units
        rcases units.ends with closed | ⟨⟨r, h⟩, -⟩ | h
        · exact fun rest => .shortString hq (closed rest)
        · exact absurd (List.cons.inj h).1 (by decide)
        · contradiction

instance : DecidablePred Closed := fun tok => decidable_of_iff _ (closed_iff tok).symm

theorem not_isBreakPair {a b : UInt8} (cr : a ≠ Byte.cr) (lf : a ≠ Byte.lf) :
    ¬ IsBreakPair a b := by
  rintro (⟨h, -⟩ | ⟨h, -⟩)
  · exact cr h
  · exact lf h

/-- A line break that a backslash escapes stays one: its carriage return and its line feed go
together. A byte behind the string that ends no line stands for its being closed. -/
theorem Quoted.crlf {quote : UInt8} (hq : isQuote quote) {text : Bytes} (free : Byte.cr ∉ text)
    (units : Quoted quote text [0]) (other : Bytes) : Quoted quote (Bytes.crlf text) other := by
  generalize hrest : ([0] : Bytes) = rest at units
  induction units with
  | close =>
    rw [crlf_cons_of_ne (ne_of_isQuote hq (by decide))]
    exact .close other
  | lineEnd => exact absurd (List.cons.inj hrest).1 (by decide)
  | textEnd | dangling => contradiction
  | @escape a text rest _ _ ih =>
    simp only [List.mem_cons, not_or] at free
    have later := ih free.2.2 hrest
    rw [crlf_cons_of_ne (by decide)]
    by_cases feed : a = Byte.lf
    · rw [feed, crlf_cons_lf]
      exact .escapeBreak (.inl ⟨rfl, rfl⟩) later
    · rw [crlf_cons_of_ne feed]
      exact .escape (fun b _ => not_isBreakPair (Ne.symm free.2.1) feed) later
  | escapeBreak pair =>
    simp only [List.mem_cons, not_or] at free
    rcases pair with ⟨h, -⟩ | ⟨-, h⟩
    · exact absurd h.symm free.2.1
    · exact absurd h.symm free.2.2.1
  | plain hb hc hl _ ih =>
    rw [crlf_cons_of_ne hl]
    exact .plain hb hc hl (ih (fun h => free (List.mem_cons_of_mem _ h)) hrest)

theorem starts_code_of_isGap {c : UInt8} (gap : isGap c) (rest : Bytes) :
    Starts false (code c) rest := by
  have space : (Atom.code c).isSpace := gap
  obtain ⟨plain, unquoted, absent⟩ := Atom.sits_code_iff.mp (Atom.sits_of_isSpace space rest)
  exact .code (by simp) plain unquoted absent

theorem Factors.exists_cons_of_isGap {c : UInt8} (gap : isGap c) {s : Bytes} {ts : List Token}
    (factors : Factors false (c :: s) ts) : ∃ ts', ts = code c :: ts' ∧ Factors false s ts' := by
  have first : next c s = (code c, s) := next_of_starts (starts_code_of_isGap gap s) rfl
  refine ⟨scan s, ?_, factors_scan s⟩
  rw [scan_of_factors factors, scan, first]

/-- What the tokens of a text come to in the tokens of the text with its line breaks changed. -/
def Carries (ts ts' : List Token) : Prop :=
  Atom.dropReturns (Atom.ofTokens ts') = (Atom.ofTokens ts).map Atom.crlf ∧
    List.IsChain Atom.Paired (Atom.ofTokens ts')

theorem Carries.cons {ts ts' : List Token} (carries : Carries ts ts') {tok tok' : Token}
    (atoms : tok'.atoms = tok.atoms.map Atom.crlf) (free : Atom.carriageReturn ∉ tok'.atoms) :
    Carries (tok :: ts) (tok' :: ts') := by
  obtain ⟨same, chain⟩ := carries
  refine ⟨?_, Atom.isChain_paired_append free chain⟩
  rw [Atom.ofTokens_cons, Atom.ofTokens_cons, Atom.dropReturns_append_of_notMem free, same,
    List.map_append, atoms]

/-- A line comment takes the carriage return at its end with it. -/
theorem Carries.lineComment {ts ts' : List Token} (carries : Carries ts (code Byte.cr :: ts'))
    (text text' : Bytes) : Carries (lineComment text :: ts) (lineComment text' :: ts') := by
  obtain ⟨same, chain⟩ := carries
  exact ⟨same, chain.tail⟩

theorem Carries.lineBreak {ts ts' : List Token} (carries : Carries ts ts') :
    Carries (code Byte.lf :: ts) (code Byte.cr :: code Byte.lf :: ts') := by
  have feed : Carries (code Byte.lf :: ts) (code Byte.lf :: ts') :=
    carries.cons rfl (by decide)
  exact ⟨feed.1, .cons_cons (fun _ => rfl) feed.2⟩

theorem carriageReturn_notMem_blockComment (body : Bracket.Body) :
    Atom.carriageReturn ∉ (blockComment body).atoms := by
  rw [atoms]
  split_ifs <;> decide

theorem atoms_blockComment_crlf (body : Bracket.Body) :
    (blockComment body.crlf).atoms = (blockComment body).atoms.map Atom.crlf := by
  simp only [atoms, Bracket.Body.crlf, lf_mem_crlf_iff]
  split_ifs <;> rfl

theorem exists_factors_crlf {s : Bytes} {ts : List Token} (factors : Factors false s ts)
    (free : Byte.cr ∉ s) (closed : ∀ tok ∈ ts, tok.Closed) :
    ∃ ts', Factors false (Bytes.crlf s) ts' ∧ Carries ts ts' := by
  generalize hfirst : false = first at factors
  induction factors with
  | nil => exact ⟨[], .nil, rfl, .nil⟩
  | @cons first tok rest ts starts tail ih =>
    subst hfirst
    rw [List.mem_append, not_or] at free
    obtain ⟨ts', factors', carries⟩ :=
      ih free.2 (fun tok mem => closed tok (List.mem_cons_of_mem _ mem)) rfl
    have put {tok' : Token} (starts' : Starts false tok' (Bytes.crlf rest))
        (same : tok'.bytes = Bytes.crlf tok.bytes) (atoms : tok'.atoms = tok.atoms.map Atom.crlf)
        (free' : Atom.carriageReturn ∉ tok'.atoms) :
        ∃ ts', Factors false (Bytes.crlf (tok.bytes ++ rest)) ts' ∧ Carries (tok :: ts) ts' := by
      refine ⟨tok' :: ts', ?_, carries.cons atoms free'⟩
      rw [crlf_append, ← same]
      exact .cons starts' factors'
    cases starts with
    | shebang first => simp at first
    | @blockComment body _ spans =>
      refine put (.blockComment spans.crlf) ?_ (atoms_blockComment_crlf body)
        (carriageReturn_notMem_blockComment _)
      rw [bytes, bytes, crlf_append, body.bytes_crlf]
      rfl
    | @lineComment text _ absent hline ends =>
      have whole : Bytes.crlf text = text := crlf_of_notMem hline
      cases rest with
      | nil =>
        refine put (.lineComment absent hline (by simp [EndsLine])) ?_ rfl (by simp [atoms])
        rw [bytes, crlf_append, whole]
        rfl
      | cons b rest =>
        obtain rfl := ends b rfl
        rw [crlf_cons_lf] at factors'
        obtain ⟨ts', rfl, behind⟩ := factors'.exists_cons_of_isGap (by decide)
        have absent' (level : Nat) :
            ¬ Bracket.opener level <+: text ++ [Byte.cr] ++ Byte.lf :: Bytes.crlf rest := by
          have := absent level
          rw [← prefix_crlf_iff (Bracket.inLine_opener level), crlf_append, whole] at this
          simpa using this
        have hline' : Byte.lf ∉ text ++ [Byte.cr] := by
          rw [List.mem_append, not_or]
          exact ⟨hline, by decide⟩
        refine ⟨_, ?_, carries.lineComment text (text ++ [Byte.cr])⟩
        have starts' :
            Starts false (lineComment (text ++ [Byte.cr])) (Byte.lf :: Bytes.crlf rest) :=
          .lineComment absent' hline' (by simp [EndsLine])
        have more := Factors.cons starts' behind
        have mark : Bytes.crlf commentMark = commentMark := rfl
        rw [bytes, crlf_append, crlf_append, whole, mark]
        simpa [bytes] using more
    | @shortString quote text _ hq =>
      rw [bytes, List.mem_cons, not_or] at free
      have units := (quoted_of_closed (closed _ List.mem_cons_self)).2
      have opens := crlf_cons_of_ne (ne_of_isQuote hq (by decide)) text
      refine put (.shortString hq (units.crlf hq free.1.2 _)) ?_ ?_ (by simp [atoms])
      · rw [bytes, bytes, opens]
      · rw [atoms, atoms, List.map_singleton, Atom.crlf, opens]
    | @longString body _ spans =>
      refine put (.longString spans.crlf) body.bytes_crlf ?_ (by simp [atoms])
      rw [atoms, atoms, body.bytes_crlf]
      rfl
    | @code c _ _ plain unquoted absent =>
      by_cases feed : c = Byte.lf
      · subst feed
        refine ⟨_, ?_, carries.lineBreak⟩
        exact .cons (starts_code_of_isGap (by decide) _)
          (.cons (starts_code_of_isGap (by decide) _) factors')
      · have same := crlf_cons_of_ne feed rest
        have itself : [c] = Bytes.crlf [c] := (crlf_cons_of_ne feed []).symm
        refine put (.code (by simp) ?_ unquoted ?_) itself rfl ?_
        · rwa [← same, prefix_crlf_iff (by decide)]
        · intro level
          rw [← same, prefix_crlf_iff (Bracket.inLine_opener level)]
          exact absent level
        · rw [bytes, List.mem_singleton] at free
          simpa [atoms] using free.1

end Token

end LuaCompact
