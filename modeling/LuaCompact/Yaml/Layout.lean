import LuaCompact.Yaml.Token

namespace LuaCompact.Yaml

/-- A place where a key of one line may have started: the number of its first token, and where it
lies. A required key stands where its block has to go on with a key. -/
structure KeyStart where
  possible : Bool
  required : Bool
  number : Nat
  index : Nat
  line : Nat
  column : Nat

/-- The state of reading tokens. `queue` holds those that are read and not taken, and `taken` counts
the others. `flow` is the number of open brackets. `keys` has one place for each of them, the
innermost first, and one for the block. `levels` tells the bracket of the keys that may start with
a token in the queue. -/
structure Layout where
  cursor : Cursor
  queue : List Token
  taken : Nat
  flow : Nat
  indent : Int
  outer : List Int
  keys : List KeyStart
  levels : List (Nat × Nat)
  keyAllowed : Bool

namespace Layout

/-- The start of a text: its first token has the number one. -/
def ofText (s : Bytes) : Layout :=
  ⟨.ofText s, [], 1, 0, -1, [], [⟨false, false, 0, 0, 0, 0⟩], [], true⟩

/-- How deep brackets and blocks may lie in each other. -/
def maxDepth : Nat := 10000

/-- Whether a bracket is open. -/
def inFlow (l : Layout) : Bool := 0 < l.flow

/-- The number of the next token. -/
def nextNumber (l : Layout) : Nat := l.taken + l.queue.length

/-- A key start that is not possible. -/
def noKey (l : Layout) : KeyStart :=
  ⟨false, false, l.nextNumber, l.cursor.index, l.cursor.line, l.cursor.column⟩

/-- The key that may have started in the innermost bracket. -/
def key (l : Layout) : KeyStart := l.keys.headD l.noKey

/-- Puts a key start in place of the innermost one. -/
def setKey (k : KeyStart) (l : Layout) : Layout := { l with keys := k :: l.keys.tail }

/-- Forgets the level of the key that starts with a token. -/
def forget (number : Nat) (l : Layout) : Layout :=
  { l with levels := l.levels.filter fun (n, _) => n ≠ number }

/-- Adds a token to the end of the queue. -/
def emit (t : Token) (l : Layout) : Layout := { l with queue := l.queue ++ [t] }

/-- Puts a token in front of the one with a number; it goes to the end if that one was taken. -/
def insertAt (number : Nat) (t : Token) (l : Layout) : Layout :=
  if number < l.taken then l.emit t
  else { l with queue := l.queue.take (number - l.taken) ++ t :: l.queue.drop (number - l.taken) }

/-- Closes the blocks that are indented deeper than a column. -/
def unroll (column : Int) (l : Layout) : Layout :=
  if l.inFlow then l else close l.outer l
where
  close : List Int → Layout → Layout
    | [], l => l
    | i :: is, l =>
      if column < l.indent then close is { l.emit .blockEnd with indent := i, outer := is } else l

/-- Opens a block at a column if it is indented deeper than the one around it. -/
def roll (column number : Nat) (t : Token) (l : Layout) : Option Layout :=
  if l.inFlow || column ≤ l.indent then some l
  else if maxDepth ≤ l.outer.length then none
  else some { l.insertAt number t with indent := column, outer := l.indent :: l.outer }

/-- Gives up the key that may have started; none if it was required. -/
def dropKey (l : Layout) : Option Layout :=
  if !l.key.possible then some l
  else if l.key.required then none
  else some ((l.setKey { l.key with possible := false }).forget l.key.number)

/-- Notes that a key may start here. -/
def saveKey (l : Layout) : Option Layout :=
  if l.keyAllowed then do
    let k := { l.noKey with possible := true, required := !l.inFlow && l.indent = l.cursor.column }
    let l ← l.dropKey
    let levels := l.levels.filter fun (n, _) => l.taken ≤ n && n ≠ k.number
    return { l.setKey k with levels := (k.number, l.flow) :: levels }
  else some l

/-- Whether a colon here can still end a key: it has to lie on the same line and not too far
back. -/
def reaches (l : Layout) (k : KeyStart) : Bool :=
  l.cursor.line ≤ k.line && l.cursor.index ≤ k.index + 1024

/-- The key that may have started at a level, if a colon here can still end it. One that it cannot
end any more is given up, and must not be required. -/
def pendingKey (level : Nat) (l : Layout) : Option (Option KeyStart × Layout) :=
  match l.keys[l.flow - level]? with
  | none => some (none, l)
  | some k =>
    if !k.possible then some (none, l)
    else if l.reaches k then some (some k, l)
    else if k.required then none
    else some (none, { l with keys := l.keys.set (l.flow - level) { k with possible := false } })

end Layout

end LuaCompact.Yaml
