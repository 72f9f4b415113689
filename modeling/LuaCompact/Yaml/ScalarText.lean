import LuaCompact.Yaml.Cursor
import LuaCompact.Numeral

namespace LuaCompact.Yaml

/-- White space between the words of a scalar: blanks inside a line, or a first line break and the
breaks after it. -/
structure Gap where
  blanks : Array Char
  first? : Option (List Char)
  more : Array Char

namespace Gap

def none : Gap := ⟨#[], .none, #[]⟩

/-- The gap that starts behind a line break which counts for nothing. -/
def escaped : Gap := ⟨#[], some [], #[]⟩

def crossesLine (g : Gap) : Bool := g.first?.isSome

/-- What a gap stands for: one line break reads as a space, and more of them lose the first. -/
def text (g : Gap) : Array Char :=
  match g.first? with
  | .none => g.blanks
  | some first =>
    if first = ['\n'] then if g.more.isEmpty then #[' '] else g.more
    else first.toArray ++ g.more

/-- A gap with one more line break, which makes the blanks before it vanish. -/
def addBreak (g : Gap) (b : List Char) : Gap :=
  if g.crossesLine then { g with more := g.more ++ b }
  else { g with blanks := #[], first? := some b }

end Gap

open Scan

/-- Reads white space. On later lines a tab left of the column `indent` is refused. -/
def takeGapFrom (indent : Nat) : Nat → Gap → Scan Gap
  | 0, g => pure g
  | fuel + 1, g => do
    need 1
    let c ← get
    match c.next with
    | none => pure g
    | some ch =>
      if isBreak ch then do
        let b ← takeBreak
        takeGapFrom indent fuel (g.addBreak b)
      else if !isBlank ch then pure g
      else if g.crossesLine then
        if ch = '\t' && c.column < indent then failure
        else do
          skip 1
          takeGapFrom indent fuel g
      else do
        skip 1
        takeGapFrom indent fuel { g with blanks := g.blanks.push ch }

/-- Reads white space that goes on a gap. -/
def takeGap (indent : Nat) (g : Gap) : Scan Gap := do takeGapFrom indent ((← get).size + 1) g

/-- Whether a plain scalar ends before the character `ch` that `next` follows. -/
def endsPlain (flow : Bool) (ch : Char) (next : Option Char) : Bool :=
  isSpace ch || (ch = ':' && isGap? next) ||
    (flow && (ch = ',' || ch = '?' || ch = '[' || ch = ']' || ch = '\x7b' || ch = '\x7d'))

/-- Reads the next word of a plain scalar. -/
def plainWord (flow : Bool) : Nat → Array Char → Scan (Array Char)
  | 0, word => pure word
  | fuel + 1, word => do
    match (← get).ahead with
    | [] => pure word
    | ch :: later =>
      if endsPlain flow ch later.head? then pure word
      else do
        skip 1
        need 2
        plainWord flow fuel (word.push ch)

/-- Reads a plain scalar, and tells whether it ended after a line break. It goes on over lines that
are indented to `indent`, or over any line in flow style. -/
def plainScalarFrom (flow : Bool) (indent : Nat) : Nat → Array Char → Gap → Scan (Bytes × Bool)
  | 0, text, g => return (bytesOf text.toList, g.crossesLine)
  | fuel + 1, text, g => do
    need 4
    let c ← get
    if c.atDocumentMark || c.sees '#' then return (bytesOf text.toList, g.crossesLine)
    else
      let word ← plainWord flow (c.size + 1) #[]
      let text := if word.isEmpty then text else text ++ g.text ++ word
      let g := if word.isEmpty then g else .none
      if ← seesAny isSpace then
        let g ← takeGap indent g
        if !flow && (← get).column < indent then return (bytesOf text.toList, g.crossesLine)
        else plainScalarFrom flow indent fuel text g
      else return (bytesOf text.toList, g.crossesLine)

/-- Reads a plain scalar inside a block that is indented to `parent`. -/
def plainScalar (flow : Bool) (parent : Int) : Scan (Bytes × Bool) := do
  plainScalarFrom flow (parent + 1).toNat ((← get).size + 1) #[] .none

/-- The character that follows a backslash in double quotes, by what it stands for. -/
def simpleEscape? : Char → Option Char
  | '0' => some '\x00'
  | 'a' => some '\x07'
  | 'b' => some '\x08'
  | 't' => some '\t'
  | '\t' => some '\t'
  | 'n' => some '\n'
  | 'v' => some '\x0B'
  | 'f' => some '\x0C'
  | 'r' => some '\r'
  | 'e' => some '\x1B'
  | ' ' => some ' '
  | '"' => some '"'
  | '\'' => some '\''
  | '\\' => some '\\'
  | 'N' => some '\u0085'
  | '_' => some '\u00A0'
  | 'L' => some '\u2028'
  | 'P' => some '\u2029'
  | _ => none

/-- How many hexadecimal digits an escape of a code point has. -/
def escapeDigits? : Char → Option Nat
  | 'x' => some 2
  | 'u' => some 4
  | 'U' => some 8
  | _ => none

/-- The character with the given hexadecimal digits. -/
def codePoint? (digits : List Char) : Option Char := do
  let n ← Numeral.value? 16 (bytesOf digits)
  if n.isValidChar then some (Char.ofNat n) else none

/-- Reads an escape, the backslash included. -/
def escape : Scan Char := do
  let ch ← ((← get).ahead[1]? : Option Char)
  skip 2
  match simpleEscape? ch with
  | some e => return e
  | none =>
    let count ← (escapeDigits? ch : Option Nat)
    need count
    let digits := (← get).ahead.take count
    if digits.length < count then failure
    else
      let e ← (codePoint? digits : Option Char)
      skip count
      return e

/-- Reads quoted text up to white space, the closing quote, or a line break that a backslash
escapes; the last is told. -/
def quotedRun (single : Bool) : Nat → Array Char → Scan (Array Char × Bool)
  | 0, text => return (text, false)
  | fuel + 1, text => do
    match (← get).ahead with
    | [] => return (text, false)
    | ch :: later =>
      if isSpace ch then return (text, false)
      else if single && ch = '\'' then
        if later.head? = some '\'' then
          skip 2
          need 2
          quotedRun single fuel (text.push '\'')
        else return (text, false)
      else if !single && ch = '"' then return (text, false)
      else if !single && ch = '\\' then
        if later.head?.any isBreak then
          need 3
          skip 1
          let _ ← takeBreak
          return (text, true)
        else
          let e ← escape
          need 2
          quotedRun single fuel (text.push e)
      else
        skip 1
        need 2
        quotedRun single fuel (text.push ch)

/-- Reads a quoted scalar after its opening quote, with the closing one. -/
def quotedScalarFrom (single : Bool) : Nat → Array Char → Scan Bytes
  | 0, _ => failure
  | fuel + 1, text => do
    need 4
    let c ← get
    if c.atDocumentMark || c.next.isNone then failure
    else
      let (text, escaped) ← quotedRun single (c.size + 1) text
      need 1
      if ← sees (if single then '\'' else '"') then
        skip 1
        return bytesOf text.toList
      else
        let g ← takeGap 0 (if escaped then .escaped else .none)
        quotedScalarFrom single fuel (text ++ g.text)

/-- Reads a quoted scalar, the quotes included. -/
def quotedScalar (single : Bool) : Scan Bytes := do
  skip 1
  quotedScalarFrom single ((← get).size + 1) #[]

/-- What happens to the line breaks at the end of a block scalar. -/
inductive Chomping where
  | clip
  | strip
  | keep
deriving DecidableEq, Repr

/-- The sign for the line breaks at the end, if there is one. -/
def chomping? : Scan (Option Chomping) := do
  need 1
  if ← sees '+' then
    skip 1
    return some .keep
  else if ← sees '-' then
    skip 1
    return some .strip
  else return none

/-- The digit for the indentation, zero if there is none; it may not be zero itself. -/
def indentDigit : Scan Nat := do
  need 1
  match (← get).next with
  | some ch =>
    if ch = '0' then failure
    else if ch.isDigit then
      skip 1
      return ch.toNat - 48
    else return 0
  | none => return 0

/-- The signs at the head of a block scalar, in either order. -/
def blockHead : Scan (Chomping × Nat) := do
  match ← chomping? with
  | some chomp => return (chomp, ← indentDigit)
  | none =>
    let n ← indentDigit
    if n = 0 then return (.clip, 0)
    else return ((← chomping?).getD .clip, n)

/-- Goes over spaces up to the column `indent`, or over all of them if it is zero. -/
def skipIndent (indent : Nat) : Nat → Scan Unit
  | 0 => pure ()
  | fuel + 1 => do
    need 1
    let c ← get
    if (indent = 0 || c.column < indent) && c.sees ' ' then
      skip 1
      skipIndent indent fuel

/-- Reads indentation and empty lines. An `indent` of zero is not known yet. Gives the breaks and
the deepest indentation. -/
def blockBreaksFrom (indent : Nat) : Nat → Array Char → Nat → Scan (Array Char × Nat)
  | 0, breaks, deepest => return (breaks, deepest)
  | fuel + 1, breaks, deepest => do
    skipIndent indent ((← get).size + 1)
    let c ← get
    let deepest := max deepest c.column
    if (indent = 0 || c.column < indent) && c.sees '\t' then failure
    else if c.seesAny isBreak then
      let b ← takeBreak
      blockBreaksFrom indent fuel (breaks ++ b) deepest
    else return (breaks, deepest)

def blockBreaks (indent : Nat) : Scan (Array Char × Nat) := do
  blockBreaksFrom indent ((← get).size + 1) #[] 0

/-- The parts of a block scalar read so far: its text, the break after the last line, the empty
lines after that, and whether the last line started with a blank. -/
structure BlockText where
  text : Array Char
  lastBreak : List Char
  empties : Array Char
  blankStart : Bool

namespace BlockText

/-- What joins the last line to the next one. Without `literal`, a single break between lines that
start with no blank reads as a space. -/
def joint (t : BlockText) (literal blank : Bool) : List Char :=
  if !literal && !t.blankStart && !blank && t.lastBreak = ['\n'] then
    if t.empties.isEmpty then [' '] else []
  else t.lastBreak

/-- The whole text, with what is kept of the breaks at its end. -/
def close (t : BlockText) : Chomping → Array Char
  | .strip => t.text
  | .clip => t.text ++ t.lastBreak
  | .keep => t.text ++ t.lastBreak ++ t.empties

end BlockText

/-- Reads the lines of a block scalar. -/
def blockLines (literal : Bool) (indent : Nat) : Nat → BlockText → Scan BlockText
  | 0, t => pure t
  | fuel + 1, t => do
    need 1
    let c ← get
    if c.column = indent && c.next.isSome then
      let blank := c.seesAny isBlank
      let line ← takeWhile fun ch => !isBreak ch
      let b ← takeBreak
      let (empties, _) ← blockBreaks indent
      blockLines literal indent fuel
        ⟨t.text ++ t.joint literal blank ++ t.empties ++ line, b, empties, blank⟩
    else pure t

/-- Reads a block scalar, its first sign included, inside a block that is indented to `parent`. -/
def blockScalar (literal : Bool) (parent : Int) : Scan Bytes := do
  skip 1
  let (chomp, increment) ← blockHead
  endLine
  let given := if increment = 0 then 0 else (max parent 0).toNat + increment
  let (empties, deepest) ← blockBreaks given
  let indent := if given = 0 then max (max deepest (parent + 1).toNat) 1 else given
  let t ← blockLines literal indent ((← get).size + 1) ⟨#[], [], empties, false⟩
  return bytesOf (t.close chomp).toList

end LuaCompact.Yaml
