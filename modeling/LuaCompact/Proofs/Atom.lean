import LuaCompact.Segment
import Mathlib.Data.List.Infix

namespace LuaCompact

theorem infix_or_infix_of_notMem {α : Type} {z xs ys : List α} {x : α} (h : x ∉ z)
    (inside : z <:+: xs ++ x :: ys) : z <:+: xs ∨ z <:+: ys := by
  rcases List.infix_append_iff_ne_nil.mp inside with here | later | ⟨z₁, z₂, _, hz₂, rfl, _, start⟩
  · exact .inl here
  · rcases List.infix_cons_iff.mp later with start | later
    · cases z with
      | nil => exact .inl (List.nil_infix)
      | cons y z =>
        obtain ⟨rfl, _⟩ := List.cons_prefix_cons.mp start
        simp at h
    · exact .inr later
  · obtain ⟨y, z₂, rfl⟩ := List.exists_cons_of_ne_nil hz₂
    obtain ⟨rfl, _⟩ := List.cons_prefix_cons.mp start
    simp at h

/-- What a text without comments is made of: code, byte by byte, and literals, each as a whole. -/
inductive Atom where
  | code (byte : UInt8)
  | literal (text : Bytes)
deriving DecidableEq, Repr

namespace Atom

/-- The atom as written. -/
def bytes : Atom → Bytes
  | code b => [b]
  | literal t => t

/-- The text of a list of atoms. -/
def join (as : List Atom) : Bytes := as.flatMap bytes

/-- The text of a literal. -/
def literal? : Atom → Option Bytes
  | code _ => none
  | literal t => some t

/-- The line feed that breaks a line of code. -/
abbrev lineFeed : Atom := code Byte.lf

@[simp] theorem join_nil : join [] = [] := rfl

@[simp] theorem join_cons (a : Atom) (as : List Atom) : join (a :: as) = a.bytes ++ join as := rfl

@[simp] theorem join_append (as bs : List Atom) : join (as ++ bs) = join as ++ join bs :=
  List.flatMap_append

@[simp] theorem join_map_code (t : Bytes) : join (t.map code) = t := by
  induction t with
  | nil => rfl
  | cons b t ih => simp [bytes, ih]

end Atom

/-- What a token leaves behind when comments are taken out: a literal stays whole and a code byte as
it is, a line comment goes, and a closed block comment leaves a line feed if its text held one and a
space if not. -/
def Token.atoms : Token → List Atom
  | .shebang line => [.literal line]
  | .blockComment body =>
    if body.closed then
      if Byte.lf ∈ body.text then [.code Byte.lf] else [.code Byte.space]
    else []
  | .lineComment _ => []
  | .shortString t => [.literal t]
  | .longString body => [.literal body.bytes]
  | .code b => [.code b]

/-- The atoms that a list of tokens leaves behind. -/
def Atom.ofTokens (ts : List Token) : List Atom := ts.flatMap Token.atoms

theorem Atom.ofTokens_cons (tok : Token) (ts : List Token) :
    ofTokens (tok :: ts) = tok.atoms ++ ofTokens ts := rfl

theorem Atom.ofTokens_cons_of_atoms {tok : Token} {a : Atom} (h : tok.atoms = [a])
    (ts : List Token) : ofTokens (tok :: ts) = a :: ofTokens ts := by
  rw [ofTokens_cons, h]
  rfl

def Segment.atoms : Segment → List Atom
  | .code t => t.map .code
  | .literal t => [.literal t]

/-- The atoms of a list of segments. -/
def Atom.ofSegments (segs : List Segment) : List Atom := segs.flatMap Segment.atoms

namespace Segment

/-- Code segments are not empty, and a literal stands between any two of them. -/
inductive Separated : List Segment → Prop
  | nil : Separated []
  | literal {t segs} : Separated segs → Separated (literal t :: segs)
  | last {t} : t ≠ [] → Separated [code t]
  | code {t l segs} : t ≠ [] → Separated segs → Separated (code t :: literal l :: segs)

/-- The segments hold what the tokens leave behind, code in runs as long as there are. -/
def Renders (ts : List Token) (segs : List Segment) : Prop :=
  Atom.ofSegments segs = Atom.ofTokens ts ∧ Separated segs

@[simp] theorem ofSegments_nil : Atom.ofSegments [] = [] := rfl

@[simp] theorem ofSegments_code (t : Bytes) (segs : List Segment) :
    Atom.ofSegments (code t :: segs) = t.map .code ++ Atom.ofSegments segs := rfl

@[simp] theorem ofSegments_literal (t : Bytes) (segs : List Segment) :
    Atom.ofSegments (literal t :: segs) = .literal t :: Atom.ofSegments segs := rfl

theorem separated_consCode (t : Bytes) {segs : List Segment} (separated : Separated segs) :
    Separated (consCode t segs) := by
  cases separated with
  | nil =>
    by_cases ht : t = []
    · simpa [consCode, ht] using Separated.nil
    · simpa [consCode, ht] using Separated.last ht
  | @literal l segs tail =>
    by_cases ht : t = []
    · simpa [consCode, ht] using Separated.literal tail
    · simpa [consCode, ht] using Separated.code ht tail
  | last nonempty => exact .last (by simp [nonempty])
  | code nonempty tail => exact .code (by simp [nonempty]) tail

@[simp] theorem ofSegments_consCode (t : Bytes) (segs : List Segment) :
    Atom.ofSegments (consCode t segs) = t.map .code ++ Atom.ofSegments segs := by
  unfold consCode
  split
  · simp
  · split <;> simp_all

theorem renders_ofTokens (ts : List Token) : Renders ts (ofTokens ts) := by
  induction ts with
  | nil => exact ⟨rfl, .nil⟩
  | cons tok ts ih =>
    obtain ⟨same, separated⟩ := ih
    cases tok with
    | shebang | shortString | longString =>
      exact ⟨by simpa [ofTokens, Atom.ofTokens, Token.atoms] using same, .literal separated⟩
    | lineComment =>
      exact ⟨by simpa [ofTokens, Atom.ofTokens, Token.atoms] using same, separated⟩
    | code b =>
      refine ⟨?_, separated_consCode [b] separated⟩
      simpa [ofTokens, Atom.ofTokens, Token.atoms] using same
    | blockComment body =>
      refine ⟨?_, separated_consCode _ separated⟩
      have left : (separator body).map Atom.code = Token.atoms (.blockComment body) := by
        simp only [separator, Token.atoms]
        split
        · split <;> rfl
        · rfl
      simpa [ofTokens, Atom.ofTokens, left] using same

theorem ofSegments_ofTokens (ts : List Token) :
    Atom.ofSegments (ofTokens ts) = Atom.ofTokens ts :=
  (renders_ofTokens ts).1

theorem separated_ofTokens (ts : List Token) : Separated (ofTokens ts) := (renders_ofTokens ts).2

theorem infix_of_map_code_infix {t u : Bytes} (inside : t.map Atom.code <:+: u.map Atom.code) :
    t <:+: u := by
  obtain ⟨v, within, same⟩ := List.infix_map_iff.mp inside
  have injective : Function.Injective Atom.code := fun _ _ h => Atom.code.inj h
  rwa [List.map_injective_iff.mpr injective same]

/-- A run of code between literals lies in one code segment. -/
theorem exists_code_of_infix {segs : List Segment} (separated : Separated segs) {t : Bytes}
    (nonempty : t ≠ []) (inside : t.map .code <:+: Atom.ofSegments segs) :
    ∃ u, code u ∈ segs ∧ t <:+: u := by
  have free (l : Bytes) : Atom.literal l ∉ t.map .code := by simp
  induction separated with
  | nil => simp [nonempty] at inside
  | @literal l segs _ ih =>
    rw [ofSegments_literal, ← List.nil_append (_ :: _)] at inside
    rcases infix_or_infix_of_notMem (free l) inside with here | later
    · simp [nonempty] at here
    · obtain ⟨u, hu, within⟩ := ih later
      exact ⟨u, List.mem_cons_of_mem _ hu, within⟩
  | @last u _ =>
    rw [ofSegments_code, ofSegments_nil, List.append_nil] at inside
    exact ⟨u, List.mem_singleton_self _, infix_of_map_code_infix inside⟩
  | @code u l segs _ _ ih =>
    rw [ofSegments_code, ofSegments_literal] at inside
    rcases infix_or_infix_of_notMem (free l) inside with here | later
    · exact ⟨u, List.mem_cons_self, infix_of_map_code_infix here⟩
    · obtain ⟨v, hv, within⟩ := ih later
      exact ⟨v, List.mem_cons_of_mem _ (List.mem_cons_of_mem _ hv), within⟩

/-- Gathers the code bytes between literals into segments. -/
def ofAtoms : List Atom → List Segment
  | [] => []
  | .code b :: as => consCode [b] (ofAtoms as)
  | .literal t :: as => literal t :: ofAtoms as

theorem consCode_nil (segs : List Segment) : consCode [] segs = segs := by
  unfold consCode
  split <;> simp

theorem consCode_consCode (t u : Bytes) (segs : List Segment) :
    consCode t (consCode u segs) = consCode (t ++ u) segs := by
  cases segs with
  | nil => by_cases hu : u = [] <;> simp [consCode, hu]
  | cons seg segs =>
    cases seg with
    | code v => simp [consCode]
    | literal v => by_cases hu : u = [] <;> simp [consCode, hu]

theorem ofAtoms_map_code_append (t : Bytes) (as : List Atom) :
    ofAtoms (t.map .code ++ as) = if t = [] then ofAtoms as else consCode t (ofAtoms as) := by
  induction t with
  | nil => rfl
  | cons b t ih =>
    simp only [List.map_cons, List.cons_append, ofAtoms, ih]
    by_cases ht : t = []
    · simp [ht]
    · simp [ht, consCode_consCode]

theorem ofAtoms_ofSegments {segs : List Segment} (separated : Separated segs) :
    ofAtoms (Atom.ofSegments segs) = segs := by
  induction separated with
  | nil => rfl
  | literal _ ih => simp [ofAtoms, ih]
  | last nonempty =>
    rw [ofSegments_code, ofAtoms_map_code_append]
    simp [nonempty, ofAtoms, consCode]
  | code nonempty _ ih =>
    rw [ofSegments_code, ofAtoms_map_code_append]
    simp [nonempty, ofAtoms, consCode, ih]

/-- The segments of a list of tokens are the only ones that render it. -/
theorem renders_iff (ts : List Token) (segs : List Segment) :
    Renders ts segs ↔ segs = ofTokens ts := by
  constructor
  · rintro ⟨same, separated⟩
    rw [← ofAtoms_ofSegments separated, same, ← ofSegments_ofTokens,
      ofAtoms_ofSegments (separated_ofTokens ts)]
  · rintro rfl
    exact renders_ofTokens ts

end Segment

end LuaCompact
