import LuaCompact.Yaml.Reading
import LuaCompact.Proofs.Utf8Cut
import Mathlib

namespace LuaCompact.Yaml

/-- The characters of ASCII that can be seen, and the space. -/
def isPrintable (c : Char) : Bool := 0x20 ≤ c.toNat && c.toNat ≤ 0x7E

section

variable {c : Char}

theorem encode_of_isPrintable (printable : isPrintable c) :
    Utf8.encode c = [UInt8.ofNat c.toNat] := by
  have low : c.toNat ≤ 0x7E := by simp [isPrintable] at printable; omega
  rw [Utf8.encode_eq, if_pos (by omega)]

theorem isAllowed_of_isPrintable (printable : isPrintable c) : isAllowed c := by
  simp only [isPrintable, Bool.and_eq_true, decide_eq_true_eq] at printable
  simp [isAllowed, printable]

theorem not_isBreak_of_isPrintable (printable : isPrintable c) : ¬ isBreak c := by
  intro breaks
  simp only [isBreak, Bool.or_eq_true, decide_eq_true_eq] at breaks
  rcases breaks with (((rfl | rfl) | rfl) | rfl) | rfl <;> revert printable <;> decide

theorem ne_orderMark_of_isPrintable (printable : isPrintable c) : c ≠ orderMark := by
  rintro rfl
  revert printable
  decide

end

/-- Characters of one line. -/
def IsLine (cs : List Char) : Prop := ∀ c ∈ cs, isPrintable c

theorem IsLine.of_mem {cs ds : List Char} (line : IsLine cs) (part : ds ⊆ cs) : IsLine ds :=
  fun c mem => line c (part mem)

theorem bytesOf_append (cs ds : List Char) : bytesOf (cs ++ ds) = bytesOf cs ++ bytesOf ds :=
  List.flatMap_append

theorem bytesOf_eq_nil {cs : List Char} (empty : bytesOf cs = []) : cs = [] := by
  cases cs with
  | nil => rfl
  | cons c cs => exact absurd (List.append_eq_nil_iff.mp empty).1 (Utf8.encode_ne_nil c)

theorem bytesOf_line {cs : List Char} (line : IsLine cs) :
    bytesOf cs = cs.map fun c => UInt8.ofNat c.toNat := by
  induction cs with
  | nil => rfl
  | cons c cs ih =>
    obtain ⟨printable, line⟩ := List.forall_mem_cons.mp line
    rw [List.map_cons, ← ih line, bytesOf, List.flatMap_cons, encode_of_isPrintable printable]
    rfl

namespace Encoding

theorem front_line {c : Char} (printable : isPrintable c) (s : Bytes) :
    front .bytes (Utf8.encode c ++ s) = .char c s := by
  have low : c.toNat ≤ 0x7E := by simp [isPrintable] at printable; omega
  have one : width (UInt8.ofNat c.toNat) = 1 := by
    refine if_pos ?_
    rw [UInt8.lt_iff_toNat_lt, Utf8.toNat_ofNat_of_lt (by omega)]
    exact Nat.lt_of_le_of_lt low (by decide)
  have decoded := Utf8.decode?_encode c s
  rw [encode_of_isPrintable printable] at decoded ⊢
  simp only [List.singleton_append] at decoded ⊢
  simp [front, frontOfBytes.eq_def, one, decoded]

/-- All characters of a line are decoded, as far as there is room for them. -/
theorem decode_line {cs : List Char} (line : IsLine cs) {room : Nat} (fits : cs.length ≤ room)
    (before : Array Char) :
    decode .bytes room before (bytesOf cs) = some (before ++ cs.toArray, []) := by
  induction cs generalizing room before with
  | nil => cases room <;> simp [decode, bytesOf, front, frontOfBytes]
  | cons c cs ih =>
    obtain ⟨printable, line⟩ := List.forall_mem_cons.mp line
    obtain ⟨room, rfl⟩ : ∃ n, room = n + 1 := ⟨room - 1, by simp at fits; omega⟩
    have written : bytesOf (c :: cs) = Utf8.encode c ++ bytesOf cs := List.flatMap_cons
    rw [written, decode, front_line printable]
    simp only [isAllowed_of_isPrintable printable, ↓reduceIte]
    rw [ih line (by simpa using fits)]
    simp

end Encoding

theorem block?_line {later : List Char} (line : IsLine later) (nonempty : later ≠ []) {room : Nat}
    (hasRoom : 0 < room) :
    Source.block? ⟨.bytes, bytesOf later, room⟩ =
      some (later.take room, ⟨.bytes, bytesOf (later.drop room), Source.blockSize⟩) := by
  have front : (bytesOf later).take room = bytesOf (later.take room) := by
    rw [bytesOf_line line, ← List.map_take, bytesOf_line (line.of_mem (List.take_subset _ _))]
  have back : (bytesOf later).drop room = bytesOf (later.drop room) := by
    rw [bytesOf_line line, ← List.map_drop, bytesOf_line (line.of_mem (List.drop_subset _ _))]
  have some : later.take room ≠ [] := by simp [nonempty]; omega
  have decoded := Encoding.decode_line (line.of_mem (List.take_subset room later))
    (List.length_take_le room later) #[]
  rw [Source.block?, front, back, decoded]
  simp [some]

/-- A place in a text. -/
structure Place where
  index : Nat
  line : Nat
  column : Nat

/-- The place some characters further in the line. -/
def Place.forward (p : Place) (n : Nat) : Place := ⟨p.index + n, p.line, p.column + n⟩

@[simp] theorem Place.forward_zero (p : Place) : p.forward 0 = p := rfl

@[simp] theorem Place.forward_forward (p : Place) (m n : Nat) :
    (p.forward m).forward n = p.forward (m + n) := by
  simp [forward, Nat.add_assoc]

namespace Cursor

/-- A cursor at a place of a text whose last line goes on with `rest` there. No other line break
was met since the last character that is no blank. -/
structure At (p : Place) (rest : List Char) (c : Cursor) : Prop where
  line : IsLine rest
  decoded : ∃ later room, c.ahead ++ later = rest ∧ 0 < room ∧
    c.source = ⟨.bytes, bytesOf later, room⟩ ∧ (later = [] ∨ c.unread = c.ahead.length)
  ahead_le : c.ahead.length ≤ c.unread
  unmarked : c.marked = false
  index_eq : c.index = p.index
  line_eq : c.line = p.line
  column_eq : c.column = p.column
  breaks_eq : c.breaks = 0
  size_gt : rest.length < c.size

/-- A cursor before which at least `n` characters of the rest are decoded, or all of them. -/
def Sees (n : Nat) (rest : List Char) (c : Cursor) : Prop := c.ahead.take n = rest.take n

theorem Sees.of_le {m n : Nat} {rest : List Char} {c : Cursor} (sees : c.Sees n rest)
    (le : m ≤ n) : c.Sees m rest := by
  have shorter := congrArg (List.take m) sees
  rwa [List.take_take, List.take_take, Nat.min_eq_left le] at shorter

theorem Sees.getElem? {n i : Nat} {rest : List Char} {c : Cursor} (sees : c.Sees n rest)
    (lt : i < n) : c.ahead[i]? = rest[i]? := by
  have same := congrArg (·[i]?) sees
  simpa [List.getElem?_take_of_lt lt] using same

theorem Sees.next {n : Nat} {rest : List Char} {c : Cursor} (sees : c.Sees (n + 1) rest) :
    c.next = rest.head? := by
  have same := sees.getElem? (Nat.zero_lt_succ n)
  rwa [← List.head?_eq_getElem?, ← List.head?_eq_getElem?] at same

variable {p : Place} {rest : List Char} {c : Cursor}

theorem refill_line (n fuel : Nat) (isAt : c.At p rest) :
    ∃ d, refill n fuel c = some d ∧ d.At p rest := by
  induction fuel generalizing c with
  | zero => exact ⟨c, rfl, isAt⟩
  | succ fuel ih =>
    rw [refill]
    split
    next => exact ⟨c, rfl, isAt⟩
    next short =>
      obtain ⟨later, room, whole, hasRoom, source, met⟩ := isAt.decoded
      split
      next empty =>
        rw [source] at empty
        refine ⟨_, rfl, ⟨isAt.line, ⟨later, room, whole, hasRoom, source,
          .inl (bytesOf_eq_nil empty)⟩, ?_, isAt.unmarked, isAt.index_eq, isAt.line_eq,
          isAt.column_eq, isAt.breaks_eq, isAt.size_gt⟩⟩
        exact Nat.le_succ_of_le isAt.ahead_le
      next some =>
        have nonempty : later ≠ [] := by
          rintro rfl
          exact some (by rw [source]; rfl)
        have inside : IsLine later := isAt.line.of_mem fun ch mem => by simp [← whole, mem]
        rw [source, block?_line inside nonempty hasRoom]
        refine ih ⟨isAt.line, ⟨later.drop room, Source.blockSize, ?_, by decide, rfl, .inr ?_⟩, ?_,
          isAt.unmarked, isAt.index_eq, isAt.line_eq, isAt.column_eq, isAt.breaks_eq,
          isAt.size_gt⟩
        · simp [← whole]
        · have all := met.resolve_left nonempty
          simp [all]
        · have := isAt.ahead_le
          simp
          omega

theorem At.sees {n : Nat} (isAt : c.At p rest) (enough : n ≤ c.unread ∨ c.source.pending = []) :
    c.Sees n rest := by
  obtain ⟨later, room, whole, -, source, met⟩ := isAt.decoded
  have all : later = [] ∨ n ≤ c.ahead.length := by
    rcases enough with reach | empty
    · exact met.imp_right fun same => by omega
    · rw [source] at empty
      exact .inl (bytesOf_eq_nil empty)
  rw [Sees, ← whole]
  rcases all with rfl | reach
  · rw [List.append_nil]
  · rw [List.take_append_of_le_length reach]

theorem fill_line (n : Nat) (isAt : c.At p rest) :
    ∃ d, c.fill n = some d ∧ d.At p rest ∧ d.Sees n rest := by
  rw [fill]
  split
  next reach => exact ⟨c, rfl, isAt, isAt.sees (.inl reach)⟩
  next =>
    obtain ⟨d, filled, isAt'⟩ := refill_line n n isAt
    have sees := isAt'.sees (refill_reaches (Nat.le_add_left n c.unread) filled)
    have unmarked : decide (d.ahead.head? = some orderMark) = false := by
      obtain ⟨later, room, whole, -⟩ := isAt'.decoded
      refine decide_eq_false fun marked => ?_
      have inside : orderMark ∈ rest := by simp [← whole, List.mem_of_head? marked]
      exact ne_orderMark_of_isPrintable (isAt'.line _ inside) rfl
    rw [filled]
    exact ⟨_, rfl, ⟨isAt'.line, isAt'.decoded, isAt'.ahead_le, unmarked, isAt'.index_eq,
      isAt'.line_eq, isAt'.column_eq, isAt'.breaks_eq, isAt'.size_gt⟩, sees⟩

/-- A cursor at a place that sees some characters ahead. -/
structure Ready (n : Nat) (p : Place) (rest : List Char) (c : Cursor) : Prop
    extends At p rest c where
  sees : c.Sees n rest

theorem Ready.of_le {m n : Nat} (ready : c.Ready n p rest) (le : m ≤ n) : c.Ready m p rest :=
  ⟨ready.toAt, ready.sees.of_le le⟩

theorem ofText_line {text : List Char} (line : IsLine text) (nonempty : text ≠ []) :
    Source.ofText (bytesOf text) = ⟨.bytes, bytesOf text, Source.blockSize⟩ := by
  obtain ⟨ch, later, rfl⟩ := List.exists_cons_of_ne_nil nonempty
  have printable := line ch List.mem_cons_self
  have low : ch.toNat ≤ 0x7E := by simp [isPrintable] at printable; omega
  have first : bytesOf (ch :: later) = UInt8.ofNat ch.toNat :: bytesOf later := by
    rw [bytesOf, List.flatMap_cons, encode_of_isPrintable printable]
    rfl
  have small : (UInt8.ofNat ch.toNat).toNat ≤ 0x7E := by rwa [Utf8.toNat_ofNat_of_lt (by omega)]
  have other (b : UInt8) (big : 0x7E < b.toNat) {t : Bytes} :
      UInt8.ofNat ch.toNat :: bytesOf later ≠ b :: t := fun same => by
    rw [(List.cons.inj same).1] at small
    exact Nat.not_le.mpr big small
  rw [first, Source.ofText.eq_def]
  split
  next same => exact absurd same (List.cons_ne_nil _ _)
  next same => exact absurd same (other 0xFF (by decide))
  next same => exact absurd same (other 0xFE (by decide))
  next same => exact absurd same (other 0xEF (by decide))
  next => rfl

/-- The start of a text of one line. -/
theorem at_ofText {text : List Char} (line : IsLine text) (nonempty : text ≠ []) :
    (ofText (bytesOf text)).At ⟨0, 0, 0⟩ text := by
  refine ⟨line, ⟨text, Source.blockSize, rfl, by decide, ofText_line line nonempty, .inr rfl⟩,
    Nat.le_refl 0, rfl, rfl, rfl, rfl, rfl, ?_⟩
  rw [bytesOf_line line, ofText, List.length_map]
  exact Nat.lt_succ_self _

/-- Going one character ahead in the line. -/
theorem Ready.skip {ch : Char} {n : Nat} (ready : c.Ready (n + 1) p (ch :: rest)) :
    c.skip.Ready n (p.forward 1) rest := by
  obtain ⟨isAt, sees⟩ := ready
  obtain ⟨later, room, whole, hasRoom, source, met⟩ := isAt.decoded
  obtain ⟨ahead, first⟩ : ∃ ahead, c.ahead = ch :: ahead := by
    have next := sees.next
    rw [Cursor.next, List.head?_cons] at next
    exact ⟨_, List.eq_cons_of_mem_head? next⟩
  have breaks : c.skip.breaks = 0 := by simp [Cursor.skip, isAt.breaks_eq]
  rw [first, List.cons_append] at whole
  have tail := (List.cons.inj whole).2
  refine ⟨⟨fun c mem => isAt.line c (List.mem_cons_of_mem _ mem),
    ⟨later, room, by simpa [Cursor.skip, first] using tail, hasRoom, source, ?_⟩, ?_, isAt.unmarked,
    congrArg (· + 1) isAt.index_eq, isAt.line_eq, congrArg (· + 1) isAt.column_eq, breaks,
    Nat.lt_of_succ_lt isAt.size_gt⟩, ?_⟩
  · exact met.imp_right fun same => by simp [Cursor.skip, same]
  · have := isAt.ahead_le
    simp [Cursor.skip]
    omega
  · rw [Sees, first, List.take_succ_cons, List.take_succ_cons] at sees
    simpa [Sees, Cursor.skip, first] using (List.cons.inj sees).2

end Cursor

section

variable {σ α β : Type} {x : σ}

/-- A step that succeeds with a result and leaves a state with a property. -/
def Gives (s : StateT σ Option α) (x : σ) (a : α) (after : σ → Prop) : Prop :=
  ∃ y, s x = some (a, y) ∧ after y

theorem Gives.bind {s : StateT σ Option α} {f : α → StateT σ Option β} {a : α} {b : β}
    {mid after : σ → Prop} (first : Gives s x a mid)
    (next : ∀ y, mid y → Gives (f a) y b after) : Gives (s >>= f) x b after := by
  obtain ⟨y, done, holds⟩ := first
  obtain ⟨z, done', holds'⟩ := next y holds
  exact ⟨z, by rw [← done']; exact congrArg (Option.bind · _) done, holds'⟩

theorem Gives.map {s : StateT σ Option α} {a : α} {after : σ → Prop} (f : α → β)
    (gives : Gives s x a after) : Gives (f <$> s) x (f a) after := by
  obtain ⟨y, done, holds⟩ := gives
  exact ⟨y, congrArg (Option.bind · _) done, holds⟩

theorem gives_pure {a : α} {after : σ → Prop} (holds : after x) : Gives (pure a) x a after :=
  ⟨x, rfl, holds⟩

/-- Looking at the state. -/
theorem gives_get_bind {f : σ → StateT σ Option β} {b : β} {after : σ → Prop}
    (next : Gives (f x) x b after) : Gives (get >>= f) x b after :=
  next

/-- Changing the state. -/
theorem gives_modify_bind {f : σ → σ} {next : Unit → StateT σ Option β} {b : β}
    {after : σ → Prop} (gives : Gives (next ()) (f x) b after) :
    Gives (modify f >>= next) x b after :=
  gives

/-- A value that is there, as a step. -/
theorem gives_some (a : α) : Gives ((some a : Option α) : StateT σ Option α) x a (· = x) :=
  ⟨x, rfl, rfl⟩

end

namespace Scan

open Cursor

variable {p : Place} {rest : List Char} {c : Cursor} {n : Nat}

theorem gives_need (n : Nat) (isAt : c.At p rest) : Gives (need n) c () (Ready n p rest) := by
  obtain ⟨d, filled, isAt', sees⟩ := fill_line n isAt
  exact ⟨d, by rw [need, filled]; rfl, isAt', sees⟩

theorem gives_skip (pre : List Char) (ready : c.Ready (pre.length + n) p (pre ++ rest)) :
    Gives (skip pre.length) c () (Ready n (p.forward pre.length) rest) := by
  induction pre generalizing p c with
  | nil => exact ⟨c, rfl, by simpa [Place.forward] using ready⟩
  | cons ch pre ih =>
    have moved : c.skip.Ready (pre.length + n) (p.forward 1) (pre ++ rest) := by
      refine Ready.skip (ready.of_le ?_)
      simp only [List.length_cons]
      omega
    obtain ⟨d, done, holds⟩ := ih moved
    rw [Place.forward_forward, Nat.add_comm 1] at holds
    exact ⟨d, done, holds⟩

theorem gives_skip_one {ch : Char} (ready : c.Ready (n + 1) p (ch :: rest)) :
    Gives (skip 1) c () (Ready n (p.forward 1) rest) :=
  ⟨c.skip, rfl, ready.skip⟩

theorem gives_takeWhileFrom {q : Char → Bool} {pre : List Char} {fuel : Nat}
    (isAt : c.At p (pre ++ rest)) (all : ∀ ch ∈ pre, q ch) (stops : ∀ ch ∈ rest.head?, ¬ q ch)
    (enough : pre.length < fuel) (before : Array Char) :
    Gives (takeWhileFrom q fuel before) c (before ++ pre.toArray)
      (Ready 1 (p.forward pre.length) rest) := by
  induction pre generalizing p c fuel before with
  | nil =>
    obtain ⟨fuel, rfl⟩ := Nat.exists_eq_succ_of_ne_zero (Nat.ne_of_gt enough)
    refine (gives_need 1 isAt).bind fun d ready => gives_get_bind ?_
    have next := ready.sees.next
    rw [List.nil_append] at next ready
    cases rest with
    | nil => simpa [next] using gives_pure ready
    | cons ch rest => simpa [next, stops ch rfl] using gives_pure ready
  | cons ch pre ih =>
    obtain ⟨here, all⟩ := List.forall_mem_cons.mp all
    obtain ⟨fuel, rfl⟩ : ∃ m, fuel = m + 1 := ⟨fuel - 1, by omega⟩
    refine (gives_need 1 isAt).bind fun d ready => gives_get_bind ?_
    have next := ready.sees.next
    rw [List.cons_append, List.head?_cons] at next
    rw [next]
    simp only [here, ↓reduceIte]
    refine (gives_skip_one ready).bind fun e moved => ?_
    have more := ih moved.toAt all (by simpa using enough) (before.push ch)
    rw [Place.forward_forward] at more
    simpa [Nat.add_comm] using more

theorem gives_takeWhile {q : Char → Bool} {pre : List Char} (isAt : c.At p (pre ++ rest))
    (all : ∀ ch ∈ pre, q ch) (stops : ∀ ch ∈ rest.head?, ¬ q ch) :
    Gives (takeWhile q) c pre (Ready 1 (p.forward pre.length) rest) := by
  have enough := isAt.size_gt
  rw [List.length_append] at enough
  refine gives_get_bind ((gives_takeWhileFrom isAt all stops (by omega) #[]).bind
    fun d ready => ?_)
  simpa using gives_pure ready

end Scan

end LuaCompact.Yaml
