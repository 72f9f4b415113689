import LuaCompact.Terminal.Cluster

namespace LuaCompact.Terminal

/-- Where a terminal stands while it reads: in text, or inside a control sequence. -/
inductive Mode where
  | ground
  | escape
  | escapeIntermediate
  | csiEntry
  | csiParameter
  | csiIntermediate
  | dcsEntry
  | dcsParameter
  | dcsIntermediate
  | dcsString
  | oscString
  | otherString
deriving DecidableEq, Repr

/-- Whether a byte starts a character of several bytes. -/
def isLead (b : UInt8) : Bool := 0xC2 ≤ b && b ≤ 0xF4

/-- Whether characters of several bytes are shown. Inside the two kinds of string that carry text
of their own they are not. -/
def Mode.showsText : Mode → Bool
  | dcsString | oscString => false
  | _ => true

/-- The control characters that leave most sequences as they are. -/
def isMute (b : UInt8) : Bool := b ≤ 0x17 || b = 0x19 || (0x1C ≤ b && b ≤ 0x1F)

/-- Where the bytes lead that mean the same everywhere. -/
def Mode.anywhere? (b : UInt8) : Option Mode :=
  if b = 0x1B then some escape
  else if b = 0x18 || b = 0x1A then some ground
  else if b = 0x90 then some dcsEntry
  else if b = 0x98 || b = 0x9E || b = 0x9F then some otherString
  else if b = 0x9B then some csiEntry
  else if b = 0x9D then some oscString
  else if 0x80 ≤ b then some ground
  else none

/-- Where a terminal stands after one more byte. -/
def Mode.step (mode : Mode) (b : UInt8) : Mode :=
  match mode with
  | oscString =>
    if b = 0x1B then escape
    else if b = 0x07 || b = 0x18 || b = 0x1A || b = 0x9C then ground
    else oscString
  | dcsString =>
    if b = 0x1B then escape
    else if b = 0x18 || b = 0x1A || b = 0x9C then ground
    else dcsString
  | dcsEntry =>
    if b = 0x1B then dcsString
    else match anywhere? b with
      | some m => m
      | none =>
        if 0x08 ≤ b && b ≤ 0x0D then dcsString
        else if isMute b || b = 0x7F then dcsEntry
        else if b ≤ 0x2F then dcsIntermediate
        else if b ≤ 0x3F then dcsParameter
        else dcsString
  | _ =>
    match anywhere? b with
    | some m => m
    | none =>
      match mode with
      | escape =>
        if isMute b || b = 0x7F then escape
        else if b ≤ 0x2F then escapeIntermediate
        else if b = 0x58 || b = 0x5E || b = 0x5F then otherString
        else if b = 0x5B then csiEntry
        else if b = 0x50 then dcsEntry
        else if b = 0x5D then oscString
        else ground
      | escapeIntermediate =>
        if isMute b || b = 0x7F || b ≤ 0x2F then escapeIntermediate else ground
      | csiEntry | csiParameter =>
        if isMute b || b = 0x7F then mode
        else if b ≤ 0x2F then csiIntermediate
        else if b ≤ 0x3F then csiParameter
        else ground
      | csiIntermediate =>
        if isMute b || b = 0x7F || b ≤ 0x2F then csiIntermediate else ground
      | dcsParameter =>
        if isMute b || b = 0x7F then dcsParameter
        else if b ≤ 0x2F then dcsIntermediate
        else if b ≤ 0x3F then dcsParameter
        else dcsString
      | dcsIntermediate =>
        if isMute b || b = 0x7F || b ≤ 0x2F then dcsIntermediate else dcsString
      | otherString => otherString
      | _ => ground

/-- The cells of a text that is read from a mode. -/
def widthFrom (mode : Mode) (s : Bytes) : Nat :=
  match s with
  | [] => 0
  | b :: t =>
    if mode.showsText && isLead b then
      (cluster (b :: t)).1 + widthFrom .ground (cluster (b :: t)).2
    else
      (if mode = .ground && 0x20 ≤ b && b ≤ 0x7E then 1 else 0) + widthFrom (mode.step b) t
termination_by s.length
decreasing_by
  · exact cluster_rest_length b t
  · simp

/-- The cells of one line. Control sequences take none. -/
def lineWidth (s : Bytes) : Nat := widthFrom .ground s

/-- The cells of the widest line of a text. -/
def width (s : Bytes) : Nat := ((Bytes.lines s).map lineWidth).foldl max 0

end LuaCompact.Terminal
