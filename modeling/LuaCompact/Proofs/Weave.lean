import LuaCompact.Minify
import LuaCompact.Proofs.BlankLines
import LuaCompact.Proofs.Spacing
import Mathlib.Data.List.DropRight

namespace LuaCompact

theorem rdropWhile_append_cons {α : Type} {p : α → Bool} {x : α} (h : ¬ p x) (xs ys : List α) :
    (xs ++ x :: ys).rdropWhile p = xs ++ x :: ys.rdropWhile p := by
  induction ys using List.reverseRecOn with
  | nil => simpa using List.rdropWhile_concat_neg p xs x h
  | append_singleton ys y ih =>
    have assoc : xs ++ x :: (ys ++ [y]) = (xs ++ x :: ys) ++ [y] := by simp
    rw [assoc, List.rdropWhile_concat, List.rdropWhile_concat, ih]
    split <;> simp

theorem rdropWhile_dropWhile_append {α : Type} {p : α → Bool} {ys : List α} (h : ∀ y ∈ ys, p y)
    (xs : List α) : ((xs ++ ys).dropWhile p).rdropWhile p = (xs.dropWhile p).rdropWhile p := by
  have last (zs : List α) : (zs ++ ys).rdropWhile p = zs.rdropWhile p := by
    rw [List.rdropWhile, List.reverse_append,
      List.dropWhile_append_of_pos fun y mem => h y (List.mem_reverse.mp mem)]
    rfl
  rw [List.dropWhile_append]
  split
  next empty =>
    rw [List.dropWhile_eq_nil_iff.mpr h, List.isEmpty_iff.mp empty]
  next => exact last _

theorem rdropWhile_map {α β : Type} (p : β → Bool) (f : α → β) (xs : List α) :
    (xs.map f).rdropWhile p = (xs.rdropWhile (p ∘ f)).map f := by
  simp [List.rdropWhile, ← List.map_reverse, List.dropWhile_map]

namespace Atom

/-- Brings the white space of the code to what its neighbours ask for. `prev` is the code byte
before the run of white space `run`, none behind a literal and at the start. -/
def weave (prev : Option UInt8) (run : Bytes) : List Atom → List Atom
  | [] => (Gap.separator prev run none).map code
  | code c :: as =>
    if isGap c then weave prev (run ++ [c]) as
    else (Gap.separator prev run (some c)).map code ++ code c :: weave (some c) [] as
  | literal t :: as => (Gap.separator prev run none).map code ++ literal t :: weave none [] as

/-- Whether an atom is trimmed off the ends of a text. -/
def isTrimmed : Atom → Bool
  | code b => isEdge b
  | literal _ => false

/-- The atoms without white space of code at the ends. -/
def trim (as : List Atom) : List Atom := (as.dropWhile isTrimmed).rdropWhile isTrimmed

theorem weave_map_code (prev : Option UInt8) (run t : Bytes) :
    weave prev run (t.map code) = (Gap.respace Gap.separator prev run t).map code := by
  induction t generalizing prev run with
  | nil => rfl
  | cons c t ih =>
    rw [List.map_cons, weave, Gap.respace]
    split
    · exact ih prev (run ++ [c])
    · rw [ih, List.map_append, List.map_cons]

theorem weave_map_code_literal (prev : Option UInt8) (run t l : Bytes) (as : List Atom) :
    weave prev run (t.map code ++ literal l :: as) =
      (Gap.respace Gap.separator prev run t).map code ++ literal l :: weave none [] as := by
  induction t generalizing prev run with
  | nil => rfl
  | cons c t ih =>
    rw [List.map_cons, List.cons_append, weave, Gap.respace]
    split
    · exact ih prev (run ++ [c])
    · rw [ih, List.map_append, List.map_cons, List.append_assoc, List.cons_append]

theorem dropWhile_map_code (t : Bytes) :
    (t.map code).dropWhile isTrimmed = (trimStart t).map code := List.dropWhile_map

theorem dropWhile_map_code_literal (t l : Bytes) (as : List Atom) :
    (t.map code ++ literal l :: as).dropWhile isTrimmed = (trimStart t).map code ++ literal l :: as := by
  rw [List.dropWhile_append, dropWhile_map_code]
  split
  next empty => simp_all [isTrimmed]
  next => rfl

theorem rdropWhile_map_code (t : Bytes) : (t.map code).rdropWhile isTrimmed = (trimEnd t).map code :=
  rdropWhile_map isTrimmed code t

theorem rdropWhile_append_literal (as bs : List Atom) (l : Bytes) :
    (as ++ literal l :: bs).rdropWhile isTrimmed = as ++ literal l :: bs.rdropWhile isTrimmed :=
  rdropWhile_append_cons (by simp [isTrimmed]) as bs

theorem normalizeFrom_eq_join {segs : List Segment} (separated : Segment.Separated segs)
    (first : Bool) :
    Gap.normalizeFrom first segs =
      join ((if first then (weave none [] (ofSegments segs)).dropWhile isTrimmed
        else weave none [] (ofSegments segs)).rdropWhile isTrimmed) := by
  induction separated generalizing first with
  | nil => cases first <;> rfl
  | @literal t segs _ ih =>
    have start : (weave none [] (ofSegments (.literal t :: segs))) =
        literal t :: weave none [] (ofSegments segs) := rfl
    have kept : (literal t :: weave none [] (ofSegments segs)).dropWhile isTrimmed =
        literal t :: weave none [] (ofSegments segs) := by simp [isTrimmed]
    have last := rdropWhile_append_literal [] (weave none [] (ofSegments segs)) t
    rw [start, kept, ite_self, Gap.normalizeFrom, ih false, ← List.nil_append (literal t :: _), last]
    simp [bytes]
  | @last t _ =>
    have start : weave none [] (ofSegments [.code t]) = (Gap.tighten t).map code := by
      rw [Gap.tighten_eq_respace, ← weave_map_code]
      simp
    rw [start, Gap.normalizeFrom]
    cases first
    · simp [rdropWhile_map_code, Gap.normalizeFrom]
    · simp [dropWhile_map_code, rdropWhile_map_code, Gap.normalizeFrom]
  | @code t l segs _ _ ih =>
    have start : weave none [] (ofSegments (.code t :: .literal l :: segs)) =
        (Gap.tighten t).map code ++ literal l :: weave none [] (ofSegments segs) := by
      rw [Gap.tighten_eq_respace, ← weave_map_code_literal]
      simp
    rw [start, Gap.normalizeFrom, Gap.normalizeFrom, ih false]
    cases first
    · simp [rdropWhile_append_literal, bytes]
    · simp [dropWhile_map_code_literal, rdropWhile_append_literal, bytes]

end Atom

/-- Minifying in terms of atoms: blank lines go, white space is brought to what its neighbours ask
for, and the ends are trimmed. -/
theorem minify_literal_eq (s : Bytes) :
    minify .literal s =
      Atom.join (Atom.trim (Atom.weave none [] (Atom.dropBlank (Atom.ofTokens (Token.lex s))))) := by
  have separated := Segment.separated_ofTokens (Token.lex s)
  have kept := Segment.separated_dropBlankFrom true separated
  have same := Atom.normalizeFrom_eq_join kept true
  rw [← Segment.dropBlankLines] at same
  rw [← Segment.ofSegments_ofTokens, ← Segment.ofSegments_dropBlankLines separated]
  exact same

end LuaCompact
