import LuaCompact.ListSetting
import LuaCompact.Proofs.Utf8Cut
import Mathlib

namespace LuaCompact

namespace Utf8

theorem join_append (ps qs : List Piece) : join (ps ++ qs) = join ps ++ join qs :=
  List.flatMap_append

theorem pieces_cons_of_none {b : UInt8} {s : Bytes} (undecoded : decode? (b :: s) = none) :
    pieces (b :: s) = .stray b :: pieces s := by
  rw [pieces.eq_def]
  simp only
  split
  next c rest decoded => cases undecoded.symm.trans decoded
  next => rfl

/-- What stands in front of the other pieces of a text is read alike without them: a byte that
belongs to no character belongs to none there either. -/
theorem pieces_join_front {s : Bytes} {ps qs : List Piece} (parts : pieces s = ps ++ qs) :
    pieces (join ps) = ps := by
  induction ps generalizing s with
  | nil => simp [join, pieces]
  | cons p ps ih =>
    rw [List.cons_append, pieces.eq_def] at parts
    split at parts
    next => cases parts
    next b t =>
      split at parts
      next c rest decoded =>
        obtain ⟨rfl, tail⟩ := List.cons.inj parts
        exact (pieces_encode_append c (join ps)).trans (by rw [ih tail])
      next undecoded =>
        obtain ⟨rfl, tail⟩ := List.cons.inj parts
        have whole : join ps ++ join qs = t := by rw [← join_append, ← tail, join_pieces]
        have stray : decode? (b :: join ps) = none := by
          by_contra some
          obtain ⟨⟨c, rest⟩, decoded⟩ := Option.ne_none_iff_exists'.mp some
          have longer := decode?_append decoded (join qs)
          rw [List.cons_append, whole, undecoded] at longer
          contradiction
        exact (pieces_cons_of_none stray).trans (by rw [ih tail])

theorem pieces_join_back {s : Bytes} {ps qs : List Piece} (parts : pieces s = ps ++ qs) :
    pieces (join qs) = qs := by
  induction ps generalizing s with
  | nil => rw [← List.nil_append qs, ← parts, join_pieces]
  | cons p ps ih =>
    rw [List.cons_append, pieces.eq_def] at parts
    split at parts
    next => cases parts
    next => split at parts <;> exact ih (List.cons.inj parts).2

theorem pieces_join_of_isInfix {s : Bytes} {ps : List Piece} (inside : ps <:+: pieces s) :
    pieces (join ps) = ps := by
  obtain ⟨before, after, parts⟩ := inside
  exact pieces_join_back (pieces_join_front parts.symm)

end Utf8

open Utf8

/-- Pieces without the white space at their two ends. -/
def innerPieces (ps : List Piece) : List Piece :=
  (ps.dropWhile Piece.isWhiteSpace).rdropWhile Piece.isWhiteSpace

theorem innerPieces_isInfix (ps : List Piece) : innerPieces ps <:+: ps :=
  (List.rdropWhile_prefix _ _).isInfix.trans (List.dropWhile_suffix _).isInfix

theorem dropWhile_innerPieces (ps : List Piece) :
    (innerPieces ps).dropWhile Piece.isWhiteSpace = innerPieces ps := by
  obtain ⟨rest, whole⟩ :=
    List.rdropWhile_prefix Piece.isWhiteSpace (ps.dropWhile Piece.isWhiteSpace)
  rw [← innerPieces] at whole
  have stops := List.head?_dropWhile_not Piece.isWhiteSpace ps
  rw [← whole] at stops
  cases inner : innerPieces ps with
  | nil => rfl
  | cons p inside =>
    rw [inner] at stops
    exact List.dropWhile_cons_of_neg (by simpa using stops)

theorem innerPieces_innerPieces (ps : List Piece) :
    innerPieces (innerPieces ps) = innerPieces ps := by
  rw [innerPieces, dropWhile_innerPieces, innerPieces, List.rdropWhile_idempotent]

theorem trim_eq (s : Bytes) : trim s = join (innerPieces (pieces s)) := rfl

theorem pieces_trim (s : Bytes) : pieces (trim s) = innerPieces (pieces s) :=
  pieces_join_of_isInfix (innerPieces_isInfix _)

theorem trim_trim (s : Bytes) : trim (trim s) = trim s := by
  rw [trim_eq (trim s), pieces_trim, innerPieces_innerPieces, trim_eq]

theorem trim_isInfix (s : Bytes) : trim s <:+: s := by
  obtain ⟨before, after, whole⟩ := innerPieces_isInfix (pieces s)
  refine ⟨join before, join after, ?_⟩
  rw [trim_eq, ← join_append, ← join_append, whole, join_pieces]

namespace ListSetting

/-- Two lists that a comma divides are read one after the other. -/
theorem split_append (a b : Bytes) : split (a ++ comma :: b) = split a ++ split b := by
  rw [split, List.splitOn_append_cons_self, List.map_append, List.filter_append]
  rfl

/-- A text that can stand as one item in a list that is written with commas. -/
structure IsItem (item : Bytes) : Prop where
  ne_nil : item ≠ []
  comma_notMem : comma ∉ item
  trimmed : trim item = item

theorem isItem_of_mem_split {s item : Bytes} (mem : item ∈ split s) : IsItem item := by
  obtain ⟨mem, nonempty⟩ := List.mem_filter.mp mem
  obtain ⟨part, inside, rfl⟩ := List.mem_map.mp mem
  refine ⟨of_decide_eq_true nonempty, fun found => ?_, trim_trim part⟩
  exact notMem_of_mem_splitOn inside ((trim_isInfix part).subset found)

theorem IsItem.split_eq {item : Bytes} (isItem : IsItem item) : split item = [item] := by
  simp [split, List.splitOn_eq_singleton isItem.comma_notMem, isItem.trimmed, isItem.ne_nil]

/-- Items that are written with commas between them are read back. -/
theorem split_join {items : List Bytes} (good : ∀ item ∈ items, IsItem item) :
    split (join items) = items := by
  induction items with
  | nil => simp [join, split, trim, pieces, Utf8.join]
  | cons first rest ih =>
    obtain ⟨isItem, good⟩ := List.forall_mem_cons.mp good
    cases rest with
    | nil => simpa [join] using isItem.split_eq
    | cons second rest =>
      rw [join, List.intercalate_cons_cons, List.append_assoc, List.singleton_append, split_append,
        isItem.split_eq, ← join, ih good]
      rfl

end ListSetting

end LuaCompact
