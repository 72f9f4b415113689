import LuaCompact.Yaml.ScalarText

namespace LuaCompact.Yaml

/-- The units of a document. The starts and ends of blocks come from indentation. -/
inductive Token where
  | streamEnd
  | version (major minor : Nat)
  | tagDirective (handle target : Bytes)
  | documentStart
  | documentEnd
  | blockSequenceStart
  | blockMappingStart
  | blockEnd
  | flowSequenceStart
  | flowSequenceEnd
  | flowMappingStart
  | flowMappingEnd
  | blockEntry
  | flowEntry
  | key
  | value
  | reference (name : Bytes)
  | anchor (name : Bytes)
  | tag (handle suffix : Bytes)
  | scalar (text : Bytes) (plain : Bool)
deriving DecidableEq, Repr

namespace Token

open Scan

/-- Reads the name of an anchor or an alias, its sign included. -/
def nodeName : Scan Bytes := do
  skip 1
  let name ← takeWhile isWord
  let next := (← get).next
  let ends := isGap? next || next.any ['?', ':', ',', ']', '\x7d', '%', '@', '\x60'].contains
  if name = [] || !ends then failure else return bytesOf name

/-- The characters of a tag. -/
def isTagChar (c : Char) : Bool :=
  isWord c || [';', '/', '?', ':', '@', '&', '=', '+', '$', ',', '.', '!', '~', '*', '\'', '(',
    ')', '[', ']', '%'].contains c

/-- Reads a byte that is written as a percent sign and two hexadecimal digits. -/
def escapedByte : Scan UInt8 := do
  need 3
  match (← get).ahead with
  | '%' :: a :: b :: _ =>
    let n ← (Numeral.value? 16 (bytesOf [a, b]) : Option Nat)
    skip 3
    return n.toUInt8
  | _ => failure

/-- Reads the `n` last bytes of a character that is written byte by byte. -/
def escapedTail : Nat → Scan Bytes
  | 0 => return []
  | n + 1 => do
    let b ← escapedByte
    if Utf8.isTail b then return b :: (← escapedTail n) else failure

/-- Reads a character that is written byte by byte. The first byte tells how many there are. -/
def escapedChar : Scan Bytes := do
  let b ← escapedByte
  if Encoding.width b = 0 then failure else return b :: (← escapedTail (Encoding.width b - 1))

/-- The characters of a tag, after those in `text`. -/
def tagTextFrom : Nat → Array UInt8 → Scan (Array UInt8)
  | 0, text => pure text
  | fuel + 1, text => do
    need 1
    match (← get).next with
    | some ch =>
      if ch = '%' then do
        let bs ← escapedChar
        tagTextFrom fuel (text ++ bs)
      else if isTagChar ch then do
        skip 1
        tagTextFrom fuel (text ++ Utf8.encode ch)
      else pure text
    | none => pure text

/-- Reads the rest of a tag. -/
def tagText : Scan Bytes := do return (← tagTextFrom ((← get).size + 1) #[]).toList

/-- Reads the handle that a tag starts with: exclamation marks around a word, or one before it. -/
def tagHandle : Scan Bytes := do
  skip 1
  let word ← takeWhile isWord
  if ← sees '!' then
    skip 1
    return bytesOf ('!' :: (word ++ ['!']))
  else return bytesOf ('!' :: word)

/-- The handle of one exclamation mark. -/
def bang : Bytes := utf8 "!"

/-- Whether a handle ends with an exclamation mark of its own. -/
def isClosedHandle (handle : Bytes) : Bool := 1 < handle.length && bang.isSuffixOf handle

/-- Reads a tag whose text stands between angle brackets. -/
def verbatimTag : Scan Token := do
  skip 2
  let text ← tagText
  if text ≠ [] && (← sees '>') then
    skip 1
    return tag [] text
  else failure

/-- Reads a tag with a handle. A lone exclamation mark is a text without one. -/
def shortTag : Scan Token := do
  let handle ← tagHandle
  let text ← tagText
  if isClosedHandle handle then
    if text = [] then failure else return tag handle text
  else if handle.tail ++ text = [] then return tag [] bang
  else return tag bang (handle.tail ++ text)

/-- Reads a tag. White space follows it. -/
def nodeTag : Scan Token := do
  need 2
  let t ← if (← get).ahead[1]? = some '<' then verbatimTag else shortTag
  need 1
  if isGap? (← get).next then return t else failure

/-- Reads a number of a version, which has one or two digits. -/
def versionNumber : Scan Nat := do
  let digits ← takeWhile Char.isDigit
  if 2 < digits.length then failure
  else (Numeral.value? 10 (bytesOf digits) : Option Nat)

/-- Reads the version of the format. -/
def versionDirective : Scan Token := do
  skipWhile isBlank
  let major ← versionNumber
  if ← sees '.' then
    skip 1
    return version major (← versionNumber)
  else failure

/-- Reads a handle for tags and what it stands for. -/
def handleDirective : Scan Token := do
  skipWhile isBlank
  if ← sees '!' then
    let handle ← tagHandle
    need 1
    if (handle = bang || isClosedHandle handle) && (← seesAny isBlank) then
      skipWhile isBlank
      let target ← tagText
      if target ≠ [] && isGap? (← get).next then return tagDirective handle target else failure
    else failure
  else failure

/-- Reads a directive with its line. -/
def directive : Scan Token := do
  skip 1
  let name ← takeWhile isWord
  if isGap? (← get).next then
    let t ←
      if name = ['Y', 'A', 'M', 'L'] then versionDirective
      else if name = ['T', 'A', 'G'] then handleDirective
      else failure
    endLine
    return t
  else failure

end Token

end LuaCompact.Yaml
