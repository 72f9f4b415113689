import LuaCompact.Proofs.WrittenTokens
import Mathlib

namespace LuaCompact.Yaml

namespace Reading

open Cursor Layout

/-- The key place of the first token of a text, once its key has ended. -/
def nameKey : KeyStart := ⟨false, false, 1, 0, 0, 0⟩

/-- The layout behind the first token of a text. -/
def named (c : Cursor) (name : Token) : Layout :=
  ⟨c, [name], 1, 0, -1, [], [{ nameKey with possible := true }], [(1, 0)], false⟩

/-- The layout inside a block mapping in column zero, behind a colon. -/
def inBlock (c : Cursor) (queue : List Token) (taken : Nat) : Layout :=
  ⟨c, queue, taken, 0, 0, [-1], [nameKey], [], false⟩

/-- The layout inside the brackets of a list that is the value in such a mapping. -/
def inList (c : Cursor) (queue : List Token) (taken : Nat) (key : KeyStart) (allowed : Bool) :
    Layout :=
  ⟨c, queue, taken, 1, 0, [-1], [key, nameKey], if key.possible then [(key.number, 1)] else [],
    allowed⟩

/-- The layout behind the end of the text. -/
def ended (c : Cursor) (queue : List Token) (taken : Nat) : Layout :=
  ⟨c, queue, taken, 0, -1, [], [nameKey], [], false⟩

variable {p : Place} {rest : List Char} {c : Cursor} {queue : List Token} {taken : Nat}
  {key : KeyStart}

theorem gives_step_name {cs : List Char} (isAt : c.At ⟨0, 0, 0⟩ (quoted cs ++ rest))
    (none : NoComment rest) :
    Gives step ⟨c, [], 1, 0, -1, [], [⟨false, false, 0, 0, 0, 0⟩], [], true⟩ ()
      (With (named c (.scalar (bytesOf cs) false))
        (At (Place.forward ⟨0, 0, 0⟩ (quoted cs).length) rest)) := by
  have reads := gives_step_quoted []
    (l := ⟨c, [], 1, 0, -1, [], [⟨false, false, 0, 0, 0, 0⟩], [], true⟩)
    (m := { named c (.scalar (bytesOf cs) false) with queue := [], keyAllowed := true })
    isAt (by simp) (by simp [Place.forward]) ?_ none
  · simpa [named] using reads
  · intro d ready
    have index := ready.index_eq
    have line := ready.line_eq
    have column := ready.column_eq
    simp [saveKey, dropKey, Layout.key, noKey, setKey, nextNumber, named, nameKey, index, line,
      column, Place.forward, inFlow]

theorem gives_step_colon (name : Token) (isAt : c.At p (':' :: ' ' :: rest)) (near : p.index ≤ 1024)
    (first : p.line = 0) (none : NoComment (' ' :: rest)) (indented : -1 ≤ (p.column : Int)) :
    Gives step (named c name) ()
      (With (inBlock c [.blockMappingStart, .key, name, .value] 1)
        (At (p.forward 1) (' ' :: rest))) := by
  refine gives_step_content [] isAt (by simp) indented (by decide) (fun d ready => ?_)
    (by simp [inBlock]) none
  have gap : isGap? d.ahead[1]? = true := by
    rw [ready.sees.getElem? (by decide)]
    rfl
  have token : contentToken { named c name with cursor := d } ':' = mappingValue := by
    simp [contentToken, named, gap]
  rw [token]
  -- The key and the block go in front of the name, which still waits in the queue.
  have pending : pendingKey 0 { named c name with cursor := d } =
      some (some { nameKey with possible := true }, { named c name with cursor := d }) := by
    have index := ready.index_eq
    have line := ready.line_eq
    simp [pendingKey, named, nameKey, reaches, index, line, first, near, Place.forward]
  have reads : Gives (fun l : Layout => l.pendingKey l.flow : Reading (Option KeyStart))
      { named c name with cursor := d } (some { nameKey with possible := true })
      (· = { named c name with cursor := d }) := ⟨_, pending, rfl⟩
  refine reads.bind fun _ same => ?_
  rw [same]
  have rolled : Layout.roll 0 1 .blockMappingStart
      (Layout.insertAt 1 .key { named c name with cursor := d }) =
      some ⟨d, [.blockMappingStart, .key, name], 1, 0, 0, [-1], [{ nameKey with possible := true }],
        [(1, 0)], false⟩ := rfl
  refine gives_modify_bind (gives_change_bind rolled (gives_modify_bind (gives_modify_bind ?_)))
  exact gives_sign (l := inBlock d [.blockMappingStart, .key, name] 1) ready

theorem gives_step_open (isAt : c.At p (' ' :: '[' :: rest)) (none : NoComment rest) :
    Gives step (inBlock c queue taken) ()
      (With (inList c (queue ++ [.flowSequenceStart]) taken
          ⟨false, false, taken + queue.length, p.index + 1, p.line, p.column + 1⟩ true)
        (At (p.forward 2) rest)) := by
  refine gives_step_content [' '] isAt (by simp) ?_ (by decide) (fun d ready => ?_)
    (by simp [inList]) none
  · simp [inBlock, Place.forward]
    omega
  · have saved : saveKey { inBlock c queue taken with cursor := d } =
        some (inBlock d queue taken) := rfl
    have index := ready.index_eq
    have line := ready.line_eq
    have column := ready.column_eq
    have opened : (if maxDepth ≤ (inBlock d queue taken).flow then Option.none
        else some { inBlock d queue taken with
          keys := (inBlock d queue taken).noKey :: (inBlock d queue taken).keys
          flow := (inBlock d queue taken).flow + 1 }) =
        some (inList d queue taken
          ⟨false, false, taken + queue.length, p.index + 1, p.line, p.column + 1⟩ false) := by
      simp [inBlock, inList, maxDepth, noKey, nextNumber, index, line, column, Place.forward]
    refine gives_change_bind saved (gives_change_bind opened (gives_modify_bind ?_))
    have reads := gives_sign (t := .flowSequenceStart) (l := inList d queue taken
      ⟨false, false, taken + queue.length, p.index + 1, p.line, p.column + 1⟩ true) ready
    rwa [Place.forward_forward] at reads

theorem gives_step_item {cs : List Char} (isAt : c.At p (quoted cs ++ rest)) (none : NoComment rest)
    (impossible : key.possible = false) :
    Gives step (inList c queue taken key true) ()
      (With (inList c (queue ++ [.scalar (bytesOf cs) false]) taken
          ⟨true, false, taken + queue.length, p.index, p.line, p.column⟩ false)
        (At (p.forward (quoted cs).length) rest)) := by
  have reads := gives_step_quoted [] (l := inList c queue taken key true)
    (m := inList c queue taken
          ⟨true, false, taken + queue.length, p.index, p.line, p.column⟩ true)
    isAt (by simp) (by simp [inList]) ?_ none
  · simpa [inList] using reads
  · intro d ready
    have index := ready.index_eq
    have line := ready.line_eq
    have column := ready.column_eq
    simp [saveKey, dropKey, Layout.key, noKey, setKey, nextNumber, inList, impossible, index, line,
      column, Place.forward, inFlow]

theorem dropKey_inList {allowed : Bool} (optional : key.required = false) :
    dropKey (inList c queue taken key allowed) =
      some (inList c queue taken { key with possible := false } allowed) := by
  obtain ⟨possible, required, number, index, line, column⟩ := key
  obtain rfl : required = false := optional
  cases possible <;> simp [dropKey, Layout.key, setKey, forget, inList]

theorem gives_step_comma {allowed : Bool} (isAt : c.At p (',' :: rest)) (none : NoComment rest)
    (optional : key.required = false) :
    Gives step (inList c queue taken key allowed) ()
      (With (inList c (queue ++ [.flowEntry]) taken { key with possible := false } true)
        (At (p.forward 1) rest)) := by
  refine gives_step_content [] isAt (by simp) (by simp [inList]) (by decide)
    (fun d ready => ?_) (by simp [inList]) none
  refine gives_change_bind (dropKey_inList optional) (gives_modify_bind ?_)
  exact gives_sign (l := inList d queue taken { key with possible := false } true) ready

theorem gives_step_close {allowed : Bool} (isAt : c.At p (']' :: rest)) (none : NoComment rest)
    (optional : key.required = false) :
    Gives step (inList c queue taken key allowed) ()
      (With (inBlock c (queue ++ [.flowSequenceEnd]) taken) (At (p.forward 1) rest)) := by
  refine gives_step_content [] isAt (by simp) (by simp [inList]) (by decide)
    (fun d ready => ?_) (by simp [inBlock]) none
  refine gives_change_bind (dropKey_inList optional) (gives_modify_bind (gives_modify_bind ?_))
  exact gives_sign (l := inBlock d queue taken) ready

theorem gives_step_value {cs : List Char} (isAt : c.At p (' ' :: (quoted cs ++ rest)))
    (none : NoComment rest) :
    Gives step (inBlock c queue taken) ()
      (With (inBlock c (queue ++ [.scalar (bytesOf cs) false]) taken)
        (At (p.forward (1 + (quoted cs).length)) rest)) := by
  have reads := gives_step_quoted [' '] (l := inBlock c queue taken)
    (m := inBlock c queue taken) isAt (by simp) ?_ (fun d _ => rfl) none
  · simpa [inBlock] using reads
  · simp [inBlock, Place.forward]
    omega

theorem gives_step_lineEnd (isAt : c.At p []) (column : p.column ≠ 0) :
    Gives step (inBlock c queue taken) ()
      (With (ended c (queue ++ [.blockEnd, .streamEnd]) taken)
        (At ⟨p.index, p.line + 1, 0⟩ [])) := by
  refine gives_step_end isAt (by simp [inBlock]) fun d there => ?_
  have broken : d.column ≠ 0 := by rwa [there.column_eq]
  refine gives_modify_bind (gives_modify_bind ?_)
  simp only [inBlock, broken, ↓reduceIte]
  refine gives_change_bind rfl (gives_modify_bind ?_)
  refine ⟨_, rfl, { d with column := 0, line := d.line + 1 }, ?_, ?_⟩
  · exact { there with line_eq := congrArg (· + 1) there.line_eq, column_eq := rfl }
  · simp [ended, Layout.emit, unroll, unroll.close, inFlow]

theorem gives_step_ended (isAt : c.At p []) (column : p.column = 0) :
    Gives step (ended c queue taken) ()
      (With (ended c (queue ++ [.streamEnd]) taken) (At p [])) := by
  refine gives_step_end isAt (by simp [ended, column]) fun d there => ?_
  have start : d.column = 0 := by rwa [there.column_eq]
  refine gives_modify_bind (gives_modify_bind ?_)
  simp only [ended, start, ↓reduceIte]
  exact gives_change_bind rfl (gives_modify_bind ⟨_, rfl, d, there, rfl⟩)

end Reading

end LuaCompact.Yaml
