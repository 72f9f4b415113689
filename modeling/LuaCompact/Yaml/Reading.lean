import LuaCompact.Yaml.Layout

namespace LuaCompact.Yaml

/-- A step of reading tokens. -/
abbrev Reading := StateT Layout Option

namespace Reading

/-- Moves the cursor. -/
def scan {α : Type} (s : Scan α) : Reading α := fun l =>
  (s l.cursor).map fun (a, c) => (a, { l with cursor := c })

/-- Changes the layout, which may fail. -/
def change (f : Layout → Option Layout) : Reading Unit := fun l => (f l).map fun l => ((), l)

/-- Tells whether a key may start from here on. -/
def allowKey (allowed : Bool) : Reading Unit := modify fun l => { l with keyAllowed := allowed }

/-- Adds a token to the end of the queue. -/
def emit (t : Token) : Reading Unit := modify (Layout.emit t)

/-- Opens a block here, in front of the next token. -/
def rollHere (t : Token) : Reading Unit :=
  change fun l => l.roll l.cursor.column l.nextNumber t

/-- How far ahead a comment is looked for. -/
def commentReach : Nat := 512

/-- How many characters of white space stand before the next comment, from the place `n` on; none if
something else comes first. Line breaks count only with `lines`. -/
def commentAhead (lines : Bool) : Nat → Nat → Scan (Option Nat)
  | 0, _ => return none
  | fuel + 1, n => do
    Scan.need (n + 1)
    match (← get).ahead[n]? with
    | none => return none
    | some ch =>
      if ch = '#' then return some n
      else if isBlank ch || (lines && (ch = '\n' || ch = '\r')) then commentAhead lines fuel (n + 1)
      else if lines && isBreak ch then
        Scan.need (n + 2)
        return none
      else return none

/-- Goes over white space up to a place. -/
def skipTo (index : Nat) : Nat → Scan Unit
  | 0 => pure ()
  | fuel + 1 => do
    Scan.need 1
    if (← get).index < index then
      if ← Scan.seesAny isBreak then
        let _ ← Scan.takeBreak
        skipTo index fuel
      else
        Scan.skip 1
        skipTo index fuel

/-- Whether the next character is a line break of one byte. -/
def atPlainBreak : Scan Bool := Scan.seesAny fun ch => ch = '\n' || ch = '\r'

/-- Goes over a comment, and over the lines after it up to the end of the next comment if nothing
but white space stands between. -/
def skipComments : Nat → Scan Unit
  | 0 => pure ()
  | fuel + 1 => do
    Scan.skipLine
    if ← atPlainBreak then
      match ← commentAhead true (commentReach - 1) 1 with
      | some n =>
        skipTo ((← get).index + n) (n + 1)
        skipComments fuel
      | none => pure ()
    else Scan.need 2

/-- Goes over a comment at the end of the line of a token. -/
def skipLineComment : Scan Unit := do
  if (← get).breaks = 0 then
    match ← commentAhead false commentReach 0 with
    | some _ => Scan.skipLine
    | none => pure ()

/-- Goes over the character at the start of a line if a mark of byte order was met. -/
def skipMark : Scan Unit := do
  Scan.need 1
  let c ← get
  if c.column = 0 && c.marked then Scan.skip 1

/-- Goes over the white space and comments before the next token. Tabs may not indent blocks. -/
def skipSpace : Nat → Reading Unit
  | 0 => pure ()
  | fuel + 1 => do
    scan skipMark
    let l ← get
    scan (Scan.skipWhile fun ch => ch = ' ' || (ch = '\t' && (l.inFlow || !l.keyAllowed)))
    if (← get).cursor.sees '#' then scan (skipComments (l.cursor.size + 1))
    if (← get).cursor.seesAny isBreak then
      let _ ← scan Scan.takeBreak
      allowKey (l.keyAllowed || !l.inFlow)
      skipSpace fuel

/-- The end of the text, which ends its last line. -/
def streamEnd : Reading Unit := do
  modify fun l =>
    let c := l.cursor
    { l with cursor := if c.column = 0 then c else { c with column := 0, line := c.line + 1 } }
  modify (Layout.unroll (-1))
  change Layout.dropKey
  allowKey false
  emit .streamEnd

/-- A directive. -/
def directive : Reading Unit := do
  modify (Layout.unroll (-1))
  change Layout.dropKey
  allowKey false
  emit (← scan Token.directive)

/-- A mark between documents. -/
def documentMark (t : Token) : Reading Unit := do
  modify (Layout.unroll (-1))
  change Layout.dropKey
  allowKey false
  scan (Scan.skip 3)
  emit t

/-- An opening bracket. -/
def openFlow (t : Token) : Reading Unit := do
  change Layout.saveKey
  change fun l =>
    if Layout.maxDepth ≤ l.flow then none
    else some { l with keys := l.noKey :: l.keys, flow := l.flow + 1 }
  allowKey true
  scan (Scan.skip 1)
  emit t

/-- A closing bracket. -/
def closeFlow (t : Token) : Reading Unit := do
  change Layout.dropKey
  modify fun l =>
    if l.inFlow then { l.forget l.key.number with keys := l.keys.tail, flow := l.flow - 1 } else l
  allowKey false
  scan (Scan.skip 1)
  emit t

/-- A comma between flow entries. -/
def flowEntry : Reading Unit := do
  change Layout.dropKey
  allowKey true
  scan (Scan.skip 1)
  emit .flowEntry

/-- Fails where no entry, key or value of a block can start. -/
def blockStart : Reading Unit := do
  let l ← get
  if !l.inFlow && !l.keyAllowed then failure

/-- The dash of a sequence entry. -/
def blockEntry : Reading Unit := do
  blockStart
  rollHere .blockSequenceStart
  change Layout.dropKey
  allowKey true
  scan (Scan.skip 1)
  emit .blockEntry

/-- The question mark of a key. -/
def explicitKey : Reading Unit := do
  blockStart
  rollHere .blockMappingStart
  change Layout.dropKey
  allowKey (!(← get).inFlow)
  scan (Scan.skip 1)
  emit .key

/-- The colon of a value. If a key may have started before it, the key gets its token now. -/
def mappingValue : Reading Unit := do
  match ← (fun l : Layout => l.pendingKey l.flow : Reading (Option KeyStart)) with
  | some k =>
    modify (Layout.insertAt k.number .key)
    change (Layout.roll k.column k.number .blockMappingStart)
    modify fun l => (l.setKey { k with possible := false }).forget k.number
    allowKey false
  | none =>
    blockStart
    rollHere .blockMappingStart
    allowKey (!(← get).inFlow)
  scan (Scan.skip 1)
  emit .value

/-- A token that a key may start with. -/
def keyPart (s : Scan Token) : Reading Unit := do
  change Layout.saveKey
  allowKey false
  emit (← scan s)

/-- A block scalar. -/
def blockText (literal : Bool) : Reading Unit := do
  change Layout.dropKey
  allowKey true
  emit (.scalar (← scan (blockScalar literal (← get).indent)) false)

/-- A plain scalar. A key may follow one that went over the end of its line. -/
def plainText : Reading Unit := do
  change Layout.saveKey
  let l ← get
  let (text, crossed) ← scan (plainScalar l.inFlow l.indent)
  allowKey crossed
  emit (.scalar text true)

/-- The characters that cannot start a plain scalar. -/
def isIndicator (c : Char) : Bool :=
  ['-', '?', ':', ',', '[', ']', '\x7b', '\x7d', '#', '&', '*', '!', '|', '>', '\'', '"', '%', '@',
    '\x60'].contains c

/-- Whether a plain scalar starts with a character that `next` follows. -/
def startsPlain (flow : Bool) (ch : Char) (next : Option Char) : Bool :=
  (!isIndicator ch && !isBlank ch) || (ch = '-' && !next.any isBlank) ||
    (!flow && (ch = '?' || ch = ':') && !isGap? next)

/-- Reads the token that starts with a character, where none of a document as a whole starts. -/
def contentToken (l : Layout) (ch : Char) : Reading Unit :=
  let next := l.cursor.ahead[1]?
  if ch = '[' then openFlow .flowSequenceStart
  else if ch = '\x7b' then openFlow .flowMappingStart
  else if ch = ']' then closeFlow .flowSequenceEnd
  else if ch = '\x7d' then closeFlow .flowMappingEnd
  else if ch = ',' then flowEntry
  else if ch = '-' && isGap? next then blockEntry
  else if ch = '?' && (l.inFlow || isGap? next) then explicitKey
  else if ch = ':' && (l.inFlow || isGap? next) then mappingValue
  else if ch = '*' then keyPart (.reference <$> Token.nodeName)
  else if ch = '&' then keyPart (.anchor <$> Token.nodeName)
  else if ch = '!' then keyPart Token.nodeTag
  else if ch = '|' && !l.inFlow then blockText true
  else if ch = '>' && !l.inFlow then blockText false
  else if ch = '\'' then keyPart ((.scalar · false) <$> quotedScalar true)
  else if ch = '"' then keyPart ((.scalar · false) <$> quotedScalar false)
  else if startsPlain l.inFlow ch next then plainText
  else failure

/-- Reads the next token. A comment behind it goes with it, unless it is the dash of an entry. -/
def step : Reading Unit := do
  skipSpace ((← get).cursor.size + 1)
  modify fun l => l.unroll l.cursor.column
  scan (Scan.need 4)
  let l ← get
  match l.cursor.next with
  | none => streamEnd
  | some ch =>
    if l.cursor.column = 0 && ch = '%' then directive
    else if l.cursor.atMark '-' then documentMark .documentStart
    else if l.cursor.atMark '.' then documentMark .documentEnd
    else
      contentToken l ch
      if (← get).queue.getLast? ≠ some .blockEntry then scan skipLineComment

/-- Whether the first token of the queue is settled: two more follow it, and no key can start with
it any more. -/
def settled : Reading Bool := do
  let l ← get
  if l.queue.length < 3 then return false
  else
    match l.levels.lookup l.taken with
    | none => return true
    | some level =>
      let k? ← (Layout.pendingKey level : Reading (Option KeyStart))
      return k?.isNone

/-- Reads tokens until the first one is settled. -/
def settle : Nat → Reading Unit
  | 0 => failure
  | fuel + 1 => do
    if ← settled then pure ()
    else
      step
      settle fuel

/-- Takes the first token of the queue. -/
def take : Reading Token := do
  settle ((← get).cursor.size + 4)
  let l ← get
  match l.queue with
  | t :: ts =>
    set { l with queue := ts, taken := l.taken + 1 }
    return t
  | [] => failure

/-- Takes tokens up to the end of the text or the first fault. -/
def run : Nat → Array Token → Layout → List Token
  | 0, ts, _ => ts.toList
  | fuel + 1, ts, l =>
    match take l with
    | none => ts.toList
    | some (t, l) => if t = .streamEnd then (ts.push t).toList else run fuel (ts.push t) l

end Reading

/-- The tokens of a text up to its end or to the first fault in it. Those that stand before a fault
count as far as they are settled there. -/
def tokens (s : Bytes) : List Token := Reading.run (5 * s.length + 8) #[] (.ofText s)

end LuaCompact.Yaml
