import LuaCompact.Proofs.WrittenScalar
import Mathlib

namespace LuaCompact.Yaml

namespace Layout

/-- A layout that differs from another one in its cursor only, which has a property. -/
def With (l : Layout) (holds : Cursor → Prop) (l' : Layout) : Prop :=
  ∃ c, holds c ∧ l' = { l with cursor := c }

theorem unroll_of_le {l : Layout} {column : Int} (le : l.indent ≤ column) :
    l.unroll column = l := by
  rw [unroll]
  split
  · rfl
  · cases outer : l.outer with
    | nil => rfl
    | cons i is => exact if_neg (Int.not_lt.mpr le)

end Layout

namespace Reading

open Cursor Layout

variable {p : Place} {rest : List Char}

/-- Text that does not go on with a comment. -/
def NoComment (rest : List Char) : Prop := ∀ ch ∈ (rest.dropWhile isBlank).head?, ch ≠ '#'

theorem gives_commentAhead {c : Cursor} (isAt : c.At p rest) (fuel : Nat) {n : Nat}
    (none : NoComment (rest.drop n)) :
    Gives (commentAhead false fuel n) c Option.none (At p rest) := by
  induction fuel generalizing n c with
  | zero => exact gives_pure isAt
  | succ fuel ih =>
    refine (Scan.gives_need (n + 1) isAt).bind fun d ready => gives_get_bind ?_
    rw [ready.sees.getElem? (Nat.lt_succ_self n)]
    cases here : rest[n]? with
    | none => exact gives_pure ready.toAt
    | some ch =>
      have split : rest.drop n = ch :: rest.drop (n + 1) := by
        obtain ⟨lt, rfl⟩ := List.getElem?_eq_some_iff.mp here
        exact List.drop_eq_getElem_cons lt
      rw [NoComment, split] at none
      by_cases blank : isBlank ch
      · have other : ch ≠ '#' := by
          rintro rfl
          revert blank
          decide
        rw [List.dropWhile_cons_of_pos blank] at none
        simpa [other, blank] using ih ready.toAt none
      · rw [List.dropWhile_cons_of_neg blank] at none
        have other : ch ≠ '#' := none ch rfl
        simpa [other, blank] using gives_pure ready.toAt

theorem gives_skipLineComment {c : Cursor} (isAt : c.At p rest) (none : NoComment rest) :
    Gives skipLineComment c () (At p rest) := by
  refine gives_get_bind ?_
  rw [isAt.breaks_eq, if_pos rfl]
  refine (gives_commentAhead isAt commentReach (n := 0) none).bind fun d there => ?_
  exact gives_pure there

theorem gives_skipMark {c : Cursor} (isAt : c.At p rest) :
    Gives skipMark c () (Ready 1 p rest) := by
  refine (Scan.gives_need 1 isAt).bind fun d ready => gives_get_bind ?_
  simpa [ready.unmarked] using gives_pure ready

theorem gives_scan {α : Type} {s : Scan α} {l : Layout} {a : α} {after : Cursor → Prop}
    (gives : Gives s l.cursor a after) : Gives (scan s) l a (l.With after) := by
  obtain ⟨c, done, holds⟩ := gives
  exact ⟨_, by rw [scan, done]; rfl, c, holds, rfl⟩

/-- A step that changes the layout, where it does not fail. -/
theorem gives_change_bind {α : Type} {f : Layout → Option Layout} {l l' : Layout}
    {next : Unit → Reading α} {a : α} {after : Layout → Prop} (changed : f l = some l')
    (gives : Gives (next ()) l' a after) : Gives (change f >>= next) l a after :=
  Gives.bind ⟨l', by rw [change, changed]; rfl, rfl⟩ fun m (same : l' = m) => by rwa [← same]

/-- Going over blanks before a character that is neither a blank nor starts a comment, or before the
end. -/
theorem gives_skipSpace {l : Layout} {blanks : List Char} (fuel : Nat)
    (isAt : l.cursor.At p (blanks ++ rest)) (all : ∀ ch ∈ blanks, ch = ' ')
    (stops : ∀ ch ∈ rest.head?, ¬ isBlank ch ∧ ch ≠ '#') :
    Gives (skipSpace (fuel + 1)) l () (l.With (Ready 1 (p.forward blanks.length) rest)) := by
  refine (gives_scan (gives_skipMark isAt)).bind fun l' moved => ?_
  obtain ⟨c, ready, rfl⟩ := moved
  refine gives_get_bind ?_
  have skips : Gives
      (Scan.skipWhile fun ch => ch = ' ' || (ch = '\t' && (l.inFlow || !l.keyAllowed)))
      c () (Ready 1 (p.forward blanks.length) rest) := by
    refine (Scan.gives_takeWhile ready.toAt (fun ch mem => by simp [all ch mem])
      fun ch first => ?_).bind fun d behind => gives_pure behind
    obtain ⟨solid, -⟩ := stops ch first
    simp only [isBlank, Bool.or_eq_true, decide_eq_true_eq, not_or] at solid
    simp [solid]
  refine (gives_scan skips).bind fun l' moved => ?_
  obtain ⟨d, behind, rfl⟩ := moved
  have next := behind.sees.next
  have comment : d.sees '#' = false := by
    simpa [Cursor.sees, next] using fun first => (stops '#' first).2 rfl
  have breaks : d.seesAny isBreak = false := by
    rw [Cursor.seesAny, next]
    cases head : rest.head? with
    | none => rfl
    | some ch =>
      have printable := behind.line ch (List.mem_of_head? head)
      simpa using not_isBreak_of_isPrintable printable
  refine gives_get_bind ?_
  simp only [comment]
  refine gives_get_bind ?_
  simp only [breaks]
  exact gives_pure ⟨d, behind, rfl⟩

/-- The part of a step behind the white space. -/
def token : Reading Unit := do
  let l ← get
  match l.cursor.next with
  | none => streamEnd
  | some ch =>
    if l.cursor.column = 0 && ch = '%' then directive
    else if l.cursor.atMark '-' then documentMark .documentStart
    else if l.cursor.atMark '.' then documentMark .documentEnd
    else
      contentToken l ch
      if (← get).queue.getLast? ≠ some .blockEntry then scan skipLineComment

theorem step_eq : step = (do
    skipSpace ((← get).cursor.size + 1)
    modify fun l => l.unroll l.cursor.column
    scan (Scan.need 4)
    token) := rfl

/-- White space is passed over before a token, and no block ends where the token is indented
enough. -/
theorem gives_step {l : Layout} (blanks : List Char) {after : Layout → Prop}
    (isAt : l.cursor.At p (blanks ++ rest)) (all : ∀ ch ∈ blanks, ch = ' ')
    (stops : ∀ ch ∈ rest.head?, ¬ isBlank ch ∧ ch ≠ '#')
    (indent : l.indent ≤ (p.forward blanks.length).column)
    (next : ∀ c, c.Ready 4 (p.forward blanks.length) rest →
      Gives token { l with cursor := c } () after) :
    Gives step l () after := by
  rw [step_eq]
  refine gives_get_bind ((gives_skipSpace l.cursor.size isAt all stops).bind fun l' moved => ?_)
  obtain ⟨c, behind, rfl⟩ := moved
  have same : Layout.unroll c.column { l with cursor := c } = { l with cursor := c } :=
    unroll_of_le (by rw [behind.column_eq]; exact indent)
  refine gives_modify_bind ?_
  simp only [same]
  refine (gives_scan (Scan.gives_need 4 behind.toAt)).bind fun l' moved => ?_
  obtain ⟨d, ready, rfl⟩ := moved
  exact next d ready

/-- A token that starts with a character of its own. -/
theorem gives_step_content {l m : Layout} (blanks : List Char) {ch : Char} {more rest : List Char}
    {q : Place} (isAt : l.cursor.At p (blanks ++ ch :: more)) (all : ∀ ch ∈ blanks, ch = ' ')
    (indent : l.indent ≤ (p.forward blanks.length).column)
    (own : ch ∉ [' ', '\t', '#', '%', '-', '.'])
    (content : ∀ c, c.Ready 4 (p.forward blanks.length) (ch :: more) →
      Gives (contentToken { l with cursor := c } ch) { l with cursor := c } () (m.With (At q rest)))
    (noEntry : m.queue.getLast? ≠ some .blockEntry) (none : NoComment rest) :
    Gives step l () (m.With (At q rest)) := by
  simp only [List.mem_cons, List.not_mem_nil, or_false, not_or] at own
  obtain ⟨space, tab, comment, percent, dash, point⟩ := own
  refine gives_step blanks isAt all (by simp [isBlank, space, tab, comment]) indent
    fun c ready => ?_
  have marks (mark : Char) (other : ch ≠ mark) : c.atMark mark = false := by
    have front := ready.sees.of_le (show 3 ≤ 4 by decide)
    rw [Sees, List.take_succ_cons] at front
    simp [atMark, front, other]
  refine gives_get_bind ?_
  simp only [ready.sees.next, List.head?_cons, percent, marks '-' dash, marks '.' point,
    decide_false, Bool.and_false, Bool.false_eq_true, ↓reduceIte]
  refine (content c ready).bind fun l' moved => gives_get_bind ?_
  obtain ⟨d, there, rfl⟩ := moved
  rw [if_pos noEntry]
  obtain ⟨l', done, e, there, rfl⟩ := gives_scan (l := { m with cursor := d })
    (gives_skipLineComment there none)
  exact ⟨_, done, e, there, rfl⟩

/-- The end of the text. -/
theorem gives_step_end {l : Layout} {after : Layout → Prop} (isAt : l.cursor.At p [])
    (indent : l.indent ≤ p.column)
    (content : ∀ c, c.At p [] → Gives streamEnd { l with cursor := c } () after) :
    Gives step l () after := by
  refine gives_step [] isAt (by simp) (by simp) indent fun c ready => ?_
  refine gives_get_bind ?_
  simp only [ready.sees.next]
  exact content c ready.toAt

/-- A text in double quotes, where `l'` notes that a key may start with it. -/
theorem gives_quoted {l l' : Layout} {cs : List Char} (saved : l.saveKey = some l')
    (ready : l'.cursor.Ready 4 p (quoted cs ++ rest)) :
    Gives (contentToken l '"') l ()
      (With { l' with queue := l'.queue ++ [.scalar (bytesOf cs) false], keyAllowed := false }
        (At (p.forward (quoted cs).length) rest)) := by
  have token : contentToken l '"' = keyPart ((.scalar · false) <$> quotedScalar false) := rfl
  rw [token]
  refine gives_change_bind saved (gives_modify_bind ?_)
  have reads := (gives_quotedScalar (ready.of_le (by decide))).map (Token.scalar · false)
  refine (gives_scan (l := { l' with keyAllowed := false }) reads).bind fun _ moved => ?_
  obtain ⟨d, there, rfl⟩ := moved
  exact ⟨_, rfl, d, there, rfl⟩

/-- A character that is a token by itself. -/
theorem gives_sign {l : Layout} {ch : Char} {t : Token} {n : Nat}
    (ready : l.cursor.Ready (n + 1) p (ch :: rest)) :
    Gives (do scan (Scan.skip 1); emit t) l ()
      (With (l.emit t) (At (p.forward 1) rest)) := by
  refine (gives_scan (Scan.gives_skip_one ready)).bind fun _ moved => ?_
  obtain ⟨d, there, rfl⟩ := moved
  exact ⟨_, rfl, d, there.toAt, rfl⟩

theorem noComment_cons {ch : Char} (solid : ¬ isBlank ch) (other : ch ≠ '#') :
    NoComment (ch :: rest) := by
  rw [NoComment, List.dropWhile_cons_of_neg solid]
  simpa using other

theorem noComment_space (none : NoComment rest) : NoComment (' ' :: rest) := by
  rwa [NoComment, List.dropWhile_cons_of_pos (by decide)]

/-- A text in double quotes behind white space, as the next token. -/
theorem gives_step_quoted {l m : Layout} (blanks : List Char) {cs : List Char}
    (isAt : l.cursor.At p (blanks ++ (quoted cs ++ rest))) (all : ∀ ch ∈ blanks, ch = ' ')
    (indent : l.indent ≤ (p.forward blanks.length).column)
    (saved : ∀ c, c.Ready 4 (p.forward blanks.length) (quoted cs ++ rest) →
      saveKey { l with cursor := c } = some { m with cursor := c })
    (none : NoComment rest) :
    Gives step l ()
      (With { m with queue := m.queue ++ [.scalar (bytesOf cs) false], keyAllowed := false }
        (At (p.forward (blanks.length + (quoted cs).length)) rest)) := by
  refine gives_step_content blanks isAt all indent (by decide) (fun c ready => ?_) (by simp) none
  have reads := gives_quoted (saved c ready) ready
  rwa [Place.forward_forward] at reads

end Reading

end LuaCompact.Yaml
