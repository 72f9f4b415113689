import LuaCompact.Proofs.PlainPattern
import LuaCompact.Proofs.Utf8Cut

namespace LuaCompact

namespace Utf8

/-- A piece is what stands before the rest. -/
theorem eq_bytes_append_of_piece? {s rest : Bytes} {p : Piece} (read : piece? s = some (p, rest)) :
    s = p.bytes ++ rest := by
  cases s with
  | nil => contradiction
  | cons b s =>
    rw [piece?] at read
    split at read
    next c r decoded =>
      obtain ⟨rfl, rfl⟩ := Prod.mk.inj (Option.some.inj read)
      exact encode_of_decode? decoded
    next =>
      obtain ⟨rfl, rfl⟩ := Prod.mk.inj (Option.some.inj read)
      rfl

theorem piece?_append_cons {b : UInt8} (ascii : IsAscii b) {s : Bytes} (nonempty : s ≠ [])
    (t : Bytes) :
    piece? (s ++ b :: t) = (piece? s).map fun (p, rest) => (p, rest ++ b :: t) := by
  have read := decode?_append_cons nonempty ascii t
  obtain ⟨a, s, rfl⟩ := List.exists_cons_of_ne_nil nonempty
  rw [List.cons_append] at read ⊢
  rw [piece?, piece?, read]
  cases decode? (a :: s) with
  | none => rfl
  | some => rfl

/-- A character of one byte is written in no other piece. -/
theorem bytes_eq_of_mem {b : UInt8} (ascii : IsAscii b) {s rest : Bytes} {p : Piece}
    (read : piece? s = some (p, rest)) (mem : b ∈ p.bytes) :
    p.bytes = [b] ∧ p.code = b.toNat := by
  cases p with
  | char c =>
    obtain ⟨a, tail, written⟩ := List.exists_cons_of_ne_nil (encode_ne_nil c)
    rw [Piece.bytes, written] at mem ⊢
    rcases List.mem_cons.mp mem with rfl | mem
    · have itself := decode?_encode c []
      rw [written, List.append_nil, decode?_one ascii] at itself
      obtain ⟨rfl, rfl⟩ := Prod.mk.inj (Option.some.inj itself)
      exact ⟨rfl, toNat_ofNat (.inl (Nat.lt_trans ascii (by decide)))⟩
    · exact absurd (isTail_of_encode_eq_cons written b mem) (not_isTail_of_isAscii ascii)
  | stray a =>
    obtain rfl := List.mem_singleton.mp mem
    cases s with
    | nil => contradiction
    | cons d s =>
      rw [piece?] at read
      split at read
      next => cases read
      next undecoded =>
        obtain ⟨same, -⟩ := Prod.mk.inj (Option.some.inj read)
        cases same
        rw [decode?_one ascii] at undecoded
        contradiction

end Utf8

namespace Pattern

open Utf8

theorem classChar?_append {s u : Bytes} {n : Nat} (read : classChar? s = some (n, u)) (t : Bytes) :
    classChar? (s ++ t) = some (n, u ++ t) ∧ u ≠ [] := by
  cases s with
  | nil => contradiction
  | cons c s =>
    rw [classChar?] at read
    rw [List.cons_append, classChar?]
    split at read
    next => contradiction
    next plain =>
      rw [if_neg plain]
      split at read
      next r v decoded =>
        split at read
        next => contradiction
        next more =>
          obtain ⟨rfl, rfl⟩ := Prod.mk.inj (Option.some.inj read)
          have later := decode?_append decoded t
          have same : (if c = Byte.backslash then s else c :: s) ++ t =
              if c = Byte.backslash then s ++ t else c :: (s ++ t) := by split <;> rfl
          rw [same] at later
          refine ⟨?_, more⟩
          rw [later]
          exact if_neg (by simp [more])
      next => contradiction

theorem range?_append {s u : Bytes} {r : Nat × Nat} (read : range? s = some (r, u)) (t : Bytes) :
    range? (s ++ t) = some (r, u ++ t) ∧ u ≠ [] := by
  unfold range? at read ⊢
  split at read
  next => contradiction
  next lo v low =>
    obtain ⟨low', more⟩ := classChar?_append low t
    rw [low']
    obtain ⟨c, v, rfl⟩ := List.exists_cons_of_ne_nil more
    simp only [List.cons_append] at read ⊢
    split at read
    next dash =>
      obtain ⟨⟨hi, w⟩, high, same⟩ := Option.map_eq_some_iff.mp read
      obtain ⟨rfl, rfl⟩ := Prod.mk.inj same
      obtain ⟨high', more⟩ := classChar?_append high t
      rw [if_pos dash, high']
      exact ⟨rfl, more⟩
    next dash =>
      obtain ⟨rfl, rfl⟩ := Prod.mk.inj (Option.some.inj read)
      rw [if_neg dash]
      exact ⟨rfl, more⟩

theorem ranges?_append {s u : Bytes} {rs : List (Nat × Nat)} (read : ranges? s = some (rs, u))
    (t : Bytes) : ranges? (s ++ t) = some (rs, u ++ t) := by
  fun_induction ranges? s generalizing rs u with
  | case1 => contradiction
  | case2 s r v low closed =>
    obtain ⟨rfl, rfl⟩ := Prod.mk.inj (Option.some.inj read)
    obtain ⟨low', more⟩ := range?_append low t
    obtain ⟨c, v, rfl⟩ := List.exists_cons_of_ne_nil more
    rw [ranges?.eq_def, low']
    exact if_pos closed
  | case3 s r v low unclosed ih =>
    obtain ⟨⟨qs, w⟩, later, same⟩ := Option.map_eq_some_iff.mp read
    obtain ⟨rfl, rfl⟩ := Prod.mk.inj same
    obtain ⟨low', more⟩ := range?_append low t
    obtain ⟨c, v, rfl⟩ := List.exists_cons_of_ne_nil more
    rw [ranges?.eq_def, low']
    simp only
    rw [if_neg (by simpa using unclosed), ih later]
    rfl

theorem class?_append {s u : Bytes} {i : PatternItem} (read : class? s = some (i, u)) (t : Bytes) :
    class? (s ++ t) = some (i, u ++ t) := by
  obtain ⟨⟨rs, v⟩, inner, same⟩ := Option.map_eq_some_iff.mp read
  obtain ⟨rfl, rfl⟩ := Prod.mk.inj same
  cases s with
  | nil =>
    rw [List.head?_nil, if_neg (by simp), ranges?.eq_def] at inner
    contradiction
  | cons c s =>
    have later := ranges?_append inner t
    have split_ : (if (c :: s).head? = some caret then (c :: s).tail else c :: s) ++ t =
        if (c :: (s ++ t)).head? = some caret then (c :: (s ++ t)).tail else c :: (s ++ t) := by
      rw [List.head?_cons, List.head?_cons]
      split <;> rfl
    rw [split_] at later
    rw [List.cons_append, class?, later]
    rfl

/-- What can be read to its end reads the same with more behind it. -/
theorem parts_append {s : Bytes} (sound : PatternPart.fault ∉ parts s) (t : Bytes) :
    parts (s ++ t) = parts s ++ parts t := by
  fun_induction parts s with
  | case1 => rfl
  | case2 s ih =>
    have later := ih (fun h => sound (List.mem_cons_of_mem _ h))
    rw [List.cons_append, parts.eq_def]
    simp only [if_true, later, List.cons_append]
  | case3 s star ih =>
    have later := ih (fun h => sound (List.mem_cons_of_mem _ h))
    rw [List.cons_append, parts.eq_def]
    simp only [if_neg star, if_true, later, List.cons_append]
  | case4 | case6 => exact absurd List.mem_cons_self sound
  | case5 s i u read star question ih =>
    have later := ih (fun h => sound (List.mem_cons_of_mem _ h))
    have read' := class?_append read t
    rw [List.cons_append, parts.eq_def]
    simp only [if_neg star, if_neg question, if_true]
    split
    next unread => cases read'.symm.trans unread
    next i' u' found =>
      obtain ⟨rfl, rfl⟩ := Prod.mk.inj (Option.some.inj (read'.symm.trans found))
      rw [later, List.cons_append]
  | case7 d u star question bracket ih =>
    have later := ih (fun h => sound (List.mem_cons_of_mem _ h))
    rw [List.cons_append, List.cons_append, parts.eq_def]
    simp only [if_neg star, if_neg question, if_neg bracket, if_true, later, List.cons_append]
  | case8 c s star question bracket backslash ih =>
    have later := ih (fun h => sound (List.mem_cons_of_mem _ h))
    rw [List.cons_append, parts.eq_def]
    simp only [if_neg star, if_neg question, if_neg bracket, if_neg backslash, later,
      List.cons_append]

theorem parts_slash (s : Bytes) : parts (Byte.slash :: s) = .item (.byte Byte.slash) :: parts s := by
  rw [parts.eq_def]
  rfl

/-- Whether an item can stand for a slash. -/
def takesSlash : PatternItem → Bool
  | .byte b => b = Byte.slash
  | .any => false
  | .oneOf negated ranges => inClass negated ranges Byte.slash.toNat

/-- Whether no item of a written pattern can stand for a slash, so that the pattern matches within
one element of a path. -/
def slashFree (pattern : Bytes) : Bool :=
  (parts pattern).all fun
    | .item i => !takesSlash i
    | _ => true

theorem piece?_slash (t : Bytes) : piece? (Byte.slash :: t) = some (.char '/', t) := by
  rw [piece?, decode?_one (by decide)]
  rfl

/-- For an item that stands for no slash it is the same whether the text ends or a slash follows. -/
theorem matchItem_append_slash {i : PatternItem} (within : takesSlash i = false) (s t : Bytes) :
    matchItem i (s ++ Byte.slash :: t) = (matchItem i s).map (· ++ Byte.slash :: t) := by
  cases s with
  | nil =>
    rw [List.nil_append]
    cases i with
    | byte b => exact if_neg (by simpa [takesSlash] using within)
    | any => rfl
    | oneOf negated ranges =>
      have away : ¬ inClass negated ranges (Piece.char '/').code := by
        rw [show inClass negated ranges (Piece.char '/').code = false from within]
        exact Bool.false_ne_true
      simp only [matchItem, piece?_slash]
      exact if_neg away
  | cons c s =>
    have pieces := piece?_append_cons (b := Byte.slash) (by decide) (List.cons_ne_nil c s) t
    rw [List.cons_append] at pieces ⊢
    cases i with
    | byte b =>
      simp only [matchItem]
      split <;> rfl
    | any =>
      simp only [matchItem]
      split
      next => rfl
      next =>
        rw [pieces]
        cases piece? (c :: s) <;> rfl
    | oneOf negated ranges =>
      simp only [matchItem]
      rw [pieces]
      cases piece? (c :: s) with
      | none => rfl
      | some found =>
        simp only [Option.map_some]
        split <;> rfl

theorem exists_append_of_matchItem {i : PatternItem} (within : takesSlash i = false) {s t : Bytes}
    (fits : matchItem i s = some t) : ∃ u, Byte.slash ∉ u ∧ s = u ++ t := by
  cases s with
  | nil => contradiction
  | cons c s =>
    cases i with
    | byte b =>
      simp only [matchItem] at fits
      split at fits
      next same =>
        cases Option.some.inj fits
        refine ⟨[c], ?_, rfl⟩
        simpa [takesSlash, same, eq_comm] using within
      next => contradiction
    | any =>
      simp only [matchItem] at fits
      split at fits
      next => contradiction
      next solid =>
        obtain ⟨⟨p, rest⟩, read, rfl⟩ := Option.map_eq_some_iff.mp fits
        have whole := eq_bytes_append_of_piece? read
        refine ⟨p.bytes, fun mem => ?_, whole⟩
        rw [(bytes_eq_of_mem (by decide) read mem).1] at whole
        exact solid (List.cons.inj whole).1
    | oneOf negated ranges =>
      simp only [matchItem] at fits
      split at fits
      next p rest read =>
        split at fits
        next inside =>
          cases Option.some.inj fits
          refine ⟨p.bytes, fun mem => ?_, eq_bytes_append_of_piece? read⟩
          rw [(bytes_eq_of_mem (by decide) read mem).2] at inside
          exact absurd inside (by simpa [takesSlash] using within)
        next => contradiction
      next => contradiction

theorem matchRun_append_slash {run : List PatternItem} (within : ∀ i ∈ run, takesSlash i = false)
    (s t : Bytes) :
    matchRun run (s ++ Byte.slash :: t) = (matchRun run s).map (· ++ Byte.slash :: t) := by
  induction run generalizing s with
  | nil => rfl
  | cons i run ih =>
    obtain ⟨here, later⟩ := List.forall_mem_cons.mp within
    rw [matchRun, matchRun, matchItem_append_slash here]
    cases matchItem i s with
    | none => rfl
    | some rest => exact ih later rest

theorem exists_append_of_matchRun {run : List PatternItem}
    (within : ∀ i ∈ run, takesSlash i = false) {s t : Bytes} (fits : matchRun run s = some t) :
    ∃ u, Byte.slash ∉ u ∧ s = u ++ t := by
  induction run generalizing s with
  | nil =>
    cases Option.some.inj fits
    exact ⟨[], by simp, rfl⟩
  | cons i run ih =>
    obtain ⟨here, later⟩ := List.forall_mem_cons.mp within
    obtain ⟨rest, first, others⟩ := Option.bind_eq_some_iff.mp fits
    obtain ⟨v, hv, rfl⟩ := ih later others
    obtain ⟨u, hu, rfl⟩ := exists_append_of_matchItem here first
    exact ⟨u ++ v, by simp [hu, hv], by simp⟩

end Pattern

end LuaCompact
