import LuaCompact.Segment

namespace LuaCompact.LineStrip

/-- The marker that opens a block comment. -/
def blockOpener : Bytes := utf8 "--[["

/-- The marker that closes a block comment. -/
def blockCloser : Bytes := utf8 "]]"

theorem blockOpener_eq :
    blockOpener = [Byte.dash, Byte.dash, Byte.openBracket, Byte.openBracket] := by decide

theorem blockCloser_eq : blockCloser = [Byte.closeBracket, Byte.closeBracket] := by decide

/-- What one line comes to: the text left of it, whether the next line starts inside a block
comment, and whether the line is kept. -/
structure Step where
  line : Bytes
  inside : Bool
  keep : Bool
deriving DecidableEq, Repr

/-- Drops the end of a block comment that earlier lines opened; none if the line does not end
it. -/
def leaveBlock (inside : Bool) (line : Bytes) : Option Bytes :=
  if inside then (Bytes.cut blockCloser line).map Prod.snd else some line

/-- Drops the first block comment of a line, and tells whether it stays open. -/
def dropBlock (line : Bytes) : Bytes × Bool :=
  match Bytes.cut blockOpener line with
  | none => (line, false)
  | some (before, after) =>
    match Bytes.cut blockCloser after with
    | some (_, rest) => (before ++ rest, false)
    | none => (before, true)

/-- Drops what follows the first comment marker. -/
def dropLineComment (line : Bytes) : Bytes :=
  match Bytes.cut Token.commentMark line with
  | some (before, _) => before
  | none => line

/-- Strips one line. Markers are found by plain search, inside literals as well. -/
def step (inside : Bool) (line : Bytes) : Step :=
  match leaveBlock inside line with
  | none => ⟨[], true, false⟩
  | some line =>
    let (line, open_) := dropBlock line
    let line := if open_ then line else dropLineComment line
    ⟨line, open_, !isBlank line⟩

/-- Strips lines in turn, each starting where the last one left off. -/
def steps (inside : Bool) : List Bytes → List Step
  | [] => []
  | line :: ls => step inside line :: steps (step inside line).inside ls

/-- The segments of a text whose comments are found line by line. -/
def strip (s : Bytes) : List Segment :=
  Segment.ofCode (Bytes.joinLines
    (((steps false (Bytes.lines s)).filter Step.keep).map Step.line))

end LuaCompact.LineStrip
