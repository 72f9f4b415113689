import LuaCompact.Proofs.WrittenEntry
import Mathlib

namespace LuaCompact.Yaml

/-- Texts in double quotes behind commas, and the closing bracket of their list. -/
def furtherItems (items : List (List Char)) : List Char :=
  items.flatMap (fun item => ',' :: quoted item) ++ [']']

/-- A list in brackets of texts in double quotes. -/
def listed : List (List Char) → List Char
  | [] => ['[', ']']
  | item :: items => '[' :: (quoted item ++ furtherItems items)

/-- A name and what it stands for, on a line. -/
def entry (name value : List Char) : List Char := quoted name ++ ':' :: ' ' :: value

/-- The token of a text in double quotes. -/
def quotedToken (cs : List Char) : Token := .scalar (bytesOf cs) false

/-- The tokens behind the first item of a list. -/
def furtherTokens (items : List (List Char)) : List Token :=
  items.flatMap fun item => [.flowEntry, quotedToken item]

/-- The tokens of a list in brackets, without its end. -/
def itemTokens : List (List Char) → List Token
  | [] => []
  | item :: items => quotedToken item :: furtherTokens items

theorem length_furtherTokens (items : List (List Char)) :
    (furtherTokens items).length = 2 * items.length := by
  simp [furtherTokens, List.length_flatMap, Nat.mul_comm]

theorem length_le_itemTokens (items : List (List Char)) :
    items.length ≤ (itemTokens items).length := by
  cases items with
  | nil => exact Nat.zero_le _
  | cons item items =>
    rw [itemTokens, List.length_cons, List.length_cons, length_furtherTokens]
    omega

theorem length_lt_furtherItems (items : List (List Char)) :
    items.length < (furtherItems items).length := by
  induction items with
  | nil => exact Nat.zero_lt_one
  | cons item items ih =>
    simp only [furtherItems, List.flatMap_cons, List.length_append, List.length_cons,
      List.length_nil] at ih ⊢
    omega

theorem length_itemTokens_le (items : List (List Char)) :
    (itemTokens items).length ≤ 2 * (listed items).length := by
  cases items with
  | nil => exact Nat.zero_le _
  | cons item items =>
    have further := length_lt_furtherItems items
    rw [itemTokens, listed, List.length_cons, length_furtherTokens, List.length_cons,
      List.length_append]
    omega

theorem isLine_furtherItems (items : List (List Char)) : IsLine (furtherItems items) := by
  intro ch mem
  simp only [furtherItems, List.mem_append, List.mem_flatMap, List.mem_cons, List.not_mem_nil,
    or_false] at mem
  rcases mem with ⟨item, -, rfl | inside⟩ | rfl
  · decide
  · exact isLine_quoted item ch inside
  · decide

theorem isLine_listed (items : List (List Char)) : IsLine (listed items) := by
  intro ch mem
  cases items with
  | nil =>
    simp only [listed, List.mem_cons, List.not_mem_nil, or_false] at mem
    rcases mem with rfl | rfl <;> decide
  | cons item items =>
    simp only [listed, List.mem_cons, List.mem_append] at mem
    rcases mem with rfl | inside | inside
    · decide
    · exact isLine_quoted item ch inside
    · exact isLine_furtherItems items ch inside

theorem isLine_entry (name : List Char) {value : List Char} (line : IsLine value) :
    IsLine (entry name value) := by
  intro ch mem
  simp only [entry, List.mem_append, List.mem_cons] at mem
  rcases mem with inside | rfl | rfl | inside
  · exact isLine_quoted name ch inside
  · decide
  · decide
  · exact line ch inside

namespace Reading

open Cursor Layout

/-- A layout from which exactly these tokens are taken up to the end of the text. -/
def Delivers (ts : List Token) (l : Layout) : Prop :=
  ∀ fuel before, ts.length ≤ fuel → run fuel before l = before.toList ++ ts

/-- A layout whose first token is settled, and that has a property once it is taken. -/
structure Front (t : Token) (after : Layout → Prop) (l : Layout) : Prop where
  enough : 3 ≤ l.queue.length
  free : l.levels.lookup l.taken = none
  first : l.queue.head? = some t
  others : after { l with queue := l.queue.tail, taken := l.taken + 1 }

section

variable {l : Layout} {t : Token} {ts : List Token} {mid after : Layout → Prop}

theorem gives_settled_of_short (short : l.queue.length < 3) : Gives settled l false (· = l) :=
  gives_get_bind (by rw [if_pos short]; exact gives_pure rfl)

theorem gives_settled (front : Front t after l) : Gives settled l true (· = l) :=
  gives_get_bind (by rw [if_neg (Nat.not_lt.mpr front.enough), front.free]; exact gives_pure rfl)

theorem gives_settle (front : Front t after l) (fuel : Nat) :
    Gives (settle (fuel + 1)) l () (Front t after) := by
  refine (gives_settled front).bind fun _ same => ?_
  rw [same]
  exact gives_pure front

theorem gives_settle_step {fuel : Nat} (short : l.queue.length < 3) (reads : Gives step l () mid)
    (next : ∀ m, mid m → Gives (settle fuel) m () (Front t after)) :
    Gives (settle (fuel + 1)) l () (Front t after) := by
  refine (gives_settled_of_short short).bind fun _ same => ?_
  rw [same]
  exact reads.bind next

theorem gives_take (settles : ∀ fuel, Gives (settle (fuel + 4)) l () (Front t after)) :
    Gives take l t after := by
  refine gives_get_bind ((settles l.cursor.size).bind fun m front => gives_get_bind ?_)
  obtain ⟨queue, whole⟩ : ∃ queue, m.queue = t :: queue :=
    ⟨_, List.eq_cons_of_mem_head? front.first⟩
  have others := front.others
  rw [whole, List.tail_cons] at others
  rw [whole]
  exact ⟨_, rfl, others⟩

theorem gives_take_step (short : l.queue.length < 3) (reads : Gives step l () mid)
    (next : ∀ m, mid m → Front t after m) : Gives take l t after :=
  gives_take fun fuel => gives_settle_step short reads fun m holds =>
    gives_settle (next m holds) (fuel + 2)

theorem delivers_last (takes : Gives take l .streamEnd after) : Delivers [.streamEnd] l := by
  intro fuel before enough
  obtain ⟨m, taken, -⟩ := takes
  obtain ⟨fuel, rfl⟩ : ∃ n, fuel = n + 1 := ⟨fuel - 1, by simp at enough; omega⟩
  rw [run, taken]
  simp

theorem delivers_cons (takes : Gives take l t (Delivers ts)) (more : t ≠ .streamEnd) :
    Delivers (t :: ts) l := by
  intro fuel before enough
  obtain ⟨m, taken, others⟩ := takes
  obtain ⟨fuel, rfl⟩ : ∃ n, fuel = n + 1 := ⟨fuel - 1, by simp at enough; omega⟩
  rw [run, taken]
  simp only [more, ↓reduceIte]
  rw [others fuel _ (by simpa using enough)]
  simp

/-- A token that is settled is taken as it is. -/
theorem delivers_front (front : Front t (Delivers ts) l) (more : t ≠ .streamEnd) :
    Delivers (t :: ts) l :=
  delivers_cons (gives_take fun fuel => gives_settle front (fuel + 3)) more

/-- A token that is settled once another one has been read, which leads to the layout `m`. -/
theorem delivers_step {m : Layout} {holds : Cursor → Prop} (short : l.queue.length < 3)
    (reads : Gives step l () (m.With holds)) (enough : 3 ≤ m.queue.length)
    (free : m.levels.lookup m.taken = none) (first : m.queue.head? = some t)
    (more : t ≠ .streamEnd)
    (others : ∀ c, holds c →
      Delivers ts { m with cursor := c, queue := m.queue.tail, taken := m.taken + 1 }) :
    Delivers (t :: ts) l := by
  refine delivers_cons (gives_take_step short reads fun m' moved => ?_) more
  obtain ⟨c, there, rfl⟩ := moved
  exact ⟨enough, free, first, others c there⟩

end

variable {p : Place} {rest : List Char} {c : Cursor} {a b : Token} {taken : Nat}

theorem delivers_ended (isAt : c.At p []) (column : p.column = 0) :
    Delivers [.blockEnd, .streamEnd] (ended c [.blockEnd, .streamEnd] taken) := by
  refine delivers_step (by simp [ended]) (gives_step_ended isAt column) (by simp [ended]) rfl rfl
    (by simp) fun d isAt => ?_
  refine delivers_last (gives_take_step (by simp [ended]) (gives_step_ended isAt column)
    fun m there => (?_ : Front _ (fun _ => True) m))
  obtain ⟨e, -, rfl⟩ := there
  exact ⟨by simp [ended], rfl, rfl, trivial⟩

/-- Behind the value, the block ends with the line. -/
theorem delivers_lineEnd (isAt : c.At p []) (column : p.column ≠ 0) (more : a ≠ .streamEnd)
    (more' : b ≠ .streamEnd) :
    Delivers [a, b, .blockEnd, .streamEnd] (inBlock c [a, b] taken) := by
  refine delivers_step (by simp [inBlock]) (gives_step_lineEnd isAt column) (by simp [ended]) rfl
    rfl more fun d isAt => ?_
  exact delivers_front ⟨by simp [ended], rfl, rfl, delivers_ended isAt rfl⟩ more'

theorem noComment_quoted (cs : List Char) : NoComment (quoted cs ++ rest) :=
  noComment_cons (by decide) (by decide)

theorem noComment_furtherItems (items : List (List Char)) : NoComment (furtherItems items) := by
  cases items <;> exact noComment_cons (by decide) (by decide)

/-- Inside a list behind an item, one token is read for each that is taken. -/
theorem delivers_furtherItems (items : List (List Char)) {key : KeyStart} {allowed : Bool}
    (isAt : c.At p (furtherItems items)) (optional : key.required = false) (more : a ≠ .streamEnd)
    (more' : b ≠ .streamEnd) :
    Delivers (a :: b :: (furtherTokens items ++ [.flowSequenceEnd, .blockEnd, .streamEnd]))
      (inList c [a, b] taken key allowed) := by
  -- Two tokens wait before each step, so the next one settles the first of them. It is never the
  -- one that a key may start with, which is the latest.
  induction items generalizing p c a b taken key allowed with
  | nil =>
    have close : Gives step (inList c [a, b] taken key allowed) () _ :=
      gives_step_close isAt (by simp [NoComment]) optional
    refine delivers_step (by simp [inList]) close (by simp [inBlock]) rfl rfl more fun d isAt => ?_
    exact delivers_lineEnd isAt (Nat.succ_ne_zero _) more' (by simp)
  | cons item items ih =>
    have shape : furtherItems (item :: items) = ',' :: (quoted item ++ furtherItems items) := by
      simp [furtherItems]
    rw [shape] at isAt
    have comma : Gives step (inList c [a, b] taken key allowed) () _ :=
      gives_step_comma isAt (noComment_quoted item) optional
    refine delivers_step (by simp [inList]) comma (by simp [inList]) rfl rfl more fun d isAt => ?_
    refine delivers_step (by simp [inList])
      (gives_step_item isAt (noComment_furtherItems items) rfl) (by simp [inList])
      (by simp [inList]) rfl more' fun e isAt => ?_
    exact ih isAt rfl (by simp) (by simp [quotedToken])

/-- From the colon on, one token is read for each that is taken up to the end of the list. -/
theorem delivers_listed {items : List (List Char)} (isAt : c.At p (' ' :: listed items))
    (more : a ≠ .streamEnd) (more' : b ≠ .streamEnd) :
    Delivers (a :: b :: .flowSequenceStart ::
        (itemTokens items ++ [.flowSequenceEnd, .blockEnd, .streamEnd]))
      (inBlock c [a, b] taken) := by
  cases items with
  | nil =>
    refine delivers_step (by simp [inBlock]) (gives_step_open isAt (noComment_furtherItems []))
      (by simp [inList]) rfl rfl more fun d isAt => ?_
    exact delivers_furtherItems [] isAt rfl more' (by simp)
  | cons item items =>
    refine delivers_step (by simp [inBlock]) (gives_step_open isAt (noComment_quoted item))
      (by simp [inList]) rfl rfl more fun d isAt => ?_
    refine delivers_step (by simp [inList])
      (gives_step_item isAt (noComment_furtherItems items) rfl) (by simp [inList])
      (by simp [inList]) rfl more' fun e isAt => ?_
    exact delivers_furtherItems items isAt rfl (by simp) (by simp [quotedToken])

theorem delivers_quoted {cs : List Char} (isAt : c.At p (' ' :: quoted cs))
    (more : a ≠ .streamEnd) (more' : b ≠ .streamEnd) :
    Delivers [a, b, quotedToken cs, .blockEnd, .streamEnd] (inBlock c [a, b] taken) := by
  rw [← List.append_nil (quoted cs)] at isAt
  refine delivers_step (by simp [inBlock]) (gives_step_value isAt (by simp [NoComment]))
    (by simp [inBlock]) rfl rfl more fun d isAt => ?_
  exact delivers_lineEnd isAt (by simp [Place.forward]) more' (by simp [quotedToken])

/-- From the start of a text, its name and the colon are read before the first token is settled. -/
theorem delivers_entry {name value : List Char} {ts : List Token}
    (isAt : c.At ⟨0, 0, 0⟩ (entry name value)) (short : (quoted name).length ≤ 1024)
    (solid : NoComment value)
    (others : ∀ d q, d.At q (' ' :: value) →
      Delivers (quotedToken name :: .value :: ts) (inBlock d [quotedToken name, .value] 3)) :
    Delivers (.blockMappingStart :: .key :: quotedToken name :: .value :: ts)
      ⟨c, [], 1, 0, -1, [], [⟨false, false, 0, 0, 0, 0⟩], [], true⟩ := by
  -- The name alone is not settled: the start of the block has to go in front of it.
  have named := gives_step_name isAt (noComment_cons (by decide) (by decide))
  refine delivers_cons (gives_take fun fuel => gives_settle_step (by simp) named
    fun m there => ?_) (by simp)
  obtain ⟨d, isAt, rfl⟩ := there
  have colon := gives_step_colon (quotedToken name) isAt (by simpa [Place.forward] using short)
    rfl (noComment_space solid) (by simp [Place.forward])
  refine gives_settle_step (by simp [Reading.named]) colon (fun m there => ?_)
  obtain ⟨e, isAt, rfl⟩ := there
  refine gives_settle ⟨by simp [inBlock], rfl, rfl, ?_⟩ (fuel + 1)
  exact delivers_front ⟨by simp [inBlock], rfl, rfl, others e _ isAt⟩ (by simp)

end Reading

variable {name : List Char}

/-- The tokens of an entry of one line. -/
theorem tokens_entry {value : List Char} {ts : List Token} (line : IsLine value)
    (short : (quoted name).length ≤ 1024) (solid : Reading.NoComment value)
    (fuel : ts.length ≤ 5 * value.length + 4)
    (others : ∀ d q, d.At q (' ' :: value) → Reading.Delivers (quotedToken name :: .value :: ts)
      (Reading.inBlock d [quotedToken name, .value] 3)) :
    tokens (bytesOf (entry name value)) =
      .blockMappingStart :: .key :: quotedToken name :: .value :: ts := by
  have isAt := Cursor.at_ofText (isLine_entry name line) (by simp [entry])
  have delivers := Reading.delivers_entry isAt short solid others
  rw [tokens, Layout.ofText, delivers _ _ ?_]
  · rfl
  · rw [bytesOf_line (isLine_entry name line)]
    simp [entry]
    omega

/-- The tokens of an entry with a list. -/
theorem tokens_listed (items : List (List Char)) (short : (quoted name).length ≤ 1024) :
    tokens (bytesOf (entry name (listed items))) =
      .blockMappingStart :: .key :: quotedToken name :: .value :: .flowSequenceStart ::
        (itemTokens items ++ [.flowSequenceEnd, .blockEnd, .streamEnd]) := by
  have solid : Reading.NoComment (listed items) := by
    cases items <;> exact Reading.noComment_cons (by decide) (by decide)
  have fits := length_itemTokens_le items
  refine tokens_entry (isLine_listed items) short solid ?_ fun d q isAt =>
    Reading.delivers_listed isAt (by simp [quotedToken]) (by simp)
  simp only [List.length_cons, List.length_append, List.length_nil]
  omega

/-- The tokens of an entry with a text in double quotes. -/
theorem tokens_quoted (cs : List Char) (short : (quoted name).length ≤ 1024) :
    tokens (bytesOf (entry name (quoted cs))) =
      [.blockMappingStart, .key, quotedToken name, .value, quotedToken cs, .blockEnd,
        .streamEnd] := by
  have solid : Reading.NoComment (quoted cs) := Reading.noComment_cons (by decide) (by decide)
  exact tokens_entry (isLine_quoted cs) short solid (by simp) fun d q isAt =>
    Reading.delivers_quoted isAt (by simp [quotedToken]) (by simp)

end LuaCompact.Yaml
