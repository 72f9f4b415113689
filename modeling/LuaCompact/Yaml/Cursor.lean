import LuaCompact.Yaml.Source

namespace LuaCompact.Yaml

/-- The characters that end a line. -/
def isBreak (c : Char) : Bool :=
  c = '\n' || c = '\r' || c = '\u0085' || c = '\u2028' || c = '\u2029'

/-- The characters that separate inside a line. -/
def isBlank (c : Char) : Bool := c = ' ' || c = '\t'

/-- The characters of white space. -/
def isSpace (c : Char) : Bool := isBlank c || isBreak c

/-- Whether a place in the text is white space or its end. -/
def isGap? (c? : Option Char) : Bool := c?.all isSpace

/-- Letters, digits, underscore and dash. -/
def isWord (c : Char) : Bool := c.isAlphanum || c = '_' || c = '-'

/-- The mark of byte order as a character. -/
def orderMark : Char := '\uFEFF'

/-- A place in a text. `ahead` holds the characters that are decoded and not read, and `unread`
counts them together with the ends of the text that were met. `marked` tells whether they started
with a mark of byte order when a block was last asked for. `breaks` counts the line breaks since
the last character other than a blank, and `size` bounds the number of characters. -/
structure Cursor where
  ahead : List Char
  unread : Nat
  source : Source
  marked : Bool
  index : Nat
  line : Nat
  column : Nat
  breaks : Nat
  size : Nat

namespace Cursor

def ofText (s : Bytes) : Cursor := ⟨[], 0, .ofText s, false, 0, 0, 0, 0, s.length + 1⟩

/-- Asks for blocks until `n` characters are unread. The end of the text is met once. -/
def refill (n : Nat) : Nat → Cursor → Option Cursor
  | 0, c => some c
  | fuel + 1, c =>
    if n ≤ c.unread then some c
    else if c.source.pending = [] then some { c with unread := c.unread + 1 }
    else do
      let (cs, source) ← c.source.block?
      refill n fuel
        { c with ahead := c.ahead ++ cs, unread := c.unread + cs.length, source := source }

/-- A block has at least one character, so that `n` of them are enough. -/
theorem refill_reaches {n fuel : Nat} {c d : Cursor} (enough : n ≤ c.unread + fuel)
    (filled : refill n fuel c = some d) : n ≤ d.unread ∨ d.source.pending = [] := by
  induction fuel generalizing c with
  | zero =>
    cases Option.some.inj filled
    exact Or.inl enough
  | succ fuel ih =>
    rw [refill] at filled
    split at filled
    next h =>
      cases Option.some.inj filled
      exact Or.inl h
    next =>
      split at filled
      next h =>
        cases Option.some.inj filled
        exact Or.inr h
      next =>
        obtain ⟨⟨cs, source⟩, read, more⟩ := Option.bind_eq_some_iff.mp filled
        have hpos := Source.block?_length_pos read
        exact ih (by simp only; omega) more

/-- Makes sure that `n` characters are unread, or all that there are. -/
def fill (n : Nat) (c : Cursor) : Option Cursor :=
  if n ≤ c.unread then some c
  else (refill n n c).map fun c => { c with marked := c.ahead.head? = some orderMark }

/-- The next character. -/
def next (c : Cursor) : Option Char := c.ahead.head?

/-- Whether the next character is the given one. -/
def sees (c : Cursor) (ch : Char) : Bool := c.next = some ch

/-- Whether the next character has a property; the end of the text has none. -/
def seesAny (c : Cursor) (p : Char → Bool) : Bool := c.next.any p

/-- Goes one character ahead in the line. -/
def skip (c : Cursor) : Cursor :=
  { c with
    ahead := c.ahead.tail
    unread := c.unread - 1
    index := c.index + 1
    column := c.column + 1
    breaks := if c.seesAny isBlank then c.breaks else 0 }

/-- Goes over a line break of `n` characters. -/
def skipBreak (n : Nat) (c : Cursor) : Cursor :=
  { c with
    ahead := c.ahead.drop n
    unread := c.unread - n
    index := c.index + n
    line := c.line + 1
    column := 0
    breaks := c.breaks + 1 }

/-- Goes over a line break, a return and a line feed as one, and gives what it stands for. -/
def takeBreak (c : Cursor) : List Char × Cursor :=
  match c.ahead with
  | '\r' :: '\n' :: _ => (['\n'], c.skipBreak 2)
  | b :: _ =>
    if b = '\u2028' || b = '\u2029' then ([b], c.skipBreak 1)
    else if isBreak b then (['\n'], c.skipBreak 1)
    else ([], c)
  | [] => ([], c)

/-- Whether three equal characters and a gap start a line, as the marks between documents do. -/
def atMark (c : Cursor) (ch : Char) : Bool :=
  c.column = 0 && c.ahead.take 3 = [ch, ch, ch] && isGap? c.ahead[3]?

/-- Whether a mark between documents starts here. -/
def atDocumentMark (c : Cursor) : Bool := c.atMark '-' || c.atMark '.'

end Cursor

/-- A step of reading a text: it may move the cursor, and it may fail. -/
abbrev Scan := StateT Cursor Option

namespace Scan

/-- Makes sure that `n` characters can be looked at. -/
def need (n : Nat) : Scan Unit := fun c => (c.fill n).map fun c => ((), c)

/-- Goes `n` characters ahead in the line. -/
def skip : Nat → Scan Unit
  | 0 => pure ()
  | n + 1 => do
    modify Cursor.skip
    skip n

/-- Goes over a line break and gives what it stands for. -/
def takeBreak : Scan (List Char) := do
  need 2
  modifyGet Cursor.takeBreak

/-- Whether the next character has a property. -/
def seesAny (p : Char → Bool) : Scan Bool := return (← get).seesAny p

/-- Whether the next character is the given one. -/
def sees (ch : Char) : Scan Bool := return (← get).sees ch

/-- The characters of the line that have a property, after those in `cs`. -/
def takeWhileFrom (p : Char → Bool) : Nat → Array Char → Scan (Array Char)
  | 0, cs => pure cs
  | fuel + 1, cs => do
    need 1
    match (← get).next with
    | some ch =>
      if p ch then do
        skip 1
        takeWhileFrom p fuel (cs.push ch)
      else pure cs
    | none => pure cs

/-- Takes the characters of the line that have a property. -/
def takeWhile (p : Char → Bool) : Scan (List Char) := do
  return (← takeWhileFrom p ((← get).size + 1) #[]).toList

/-- Goes over the characters of the line that have a property. -/
def skipWhile (p : Char → Bool) : Scan Unit := do
  let _ ← takeWhile p

/-- Goes to the end of the line. -/
def skipLine : Scan Unit := skipWhile fun ch => !isBreak ch

/-- Goes over a comment, if one starts here, to the end of its line. -/
def skipComment : Scan Unit := do
  if ← sees '#' then skipLine

/-- Goes over what may stand behind the last word of a line, and over the line break. Fails if the
line goes on with something else. -/
def endLine : Scan Unit := do
  skipWhile isBlank
  skipComment
  if isGap? (← get).next then
    if ← seesAny isBreak then
      let _ ← takeBreak
  else failure

end Scan

end LuaCompact.Yaml
