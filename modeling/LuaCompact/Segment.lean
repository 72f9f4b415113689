import LuaCompact.Token
import LuaCompact.Blank

namespace LuaCompact

/-- A run of comment-free source: code whose white space may change, or a literal that is copied. -/
inductive Segment where
  | code (text : Bytes)
  | literal (text : Bytes)
deriving DecidableEq, Repr

namespace Segment

def text : Segment → Bytes
  | code t => t
  | literal t => t

/-- The text of a list of segments. -/
def join (segs : List Segment) : Bytes := segs.flatMap text

/-- The lines of a list of segments; an empty text has none. -/
def lines (segs : List Segment) : List Bytes :=
  if join segs = [] then [] else Bytes.lines (join segs)

/-- One code segment, or none for an empty text. -/
def ofCode (t : Bytes) : List Segment := if t = [] then [] else [code t]

/-- Puts code in front, as one segment with the code that is there. -/
def consCode (t : Bytes) : List Segment → List Segment
  | code u :: segs => code (t ++ u) :: segs
  | segs => if t = [] then segs else code t :: segs

/-- What is left of a block comment. It still separates its neighbours, by a line break if it held
one; one that never closes has no right neighbour and leaves nothing. -/
def separator (body : Bracket.Body) : Bytes :=
  if body.closed then
    if Byte.lf ∈ body.text then [Byte.lf] else [Byte.space]
  else []

/-- The segments of a list of tokens: literals stay apart, comments go. -/
def ofTokens : List Token → List Segment
  | [] => []
  | .shebang line :: ts => literal line :: ofTokens ts
  | .shortString t :: ts => literal t :: ofTokens ts
  | .longString body :: ts => literal body.bytes :: ofTokens ts
  | .blockComment body :: ts => consCode (separator body) (ofTokens ts)
  | .lineComment _ :: ts => ofTokens ts
  | .code b :: ts => consCode [b] (ofTokens ts)

/-- The pieces of a code segment without its blank lines. A piece goes only if all of its line
lies in this segment: the first needs `ownsStart`, the last `ownsEnd`. -/
def keepPieces (ownsStart ownsEnd : Bool) : List Bytes → List Bytes
  | [] => []
  | [p] => if ownsStart && ownsEnd && isBlank p then [] else [p]
  | p :: q :: ps =>
    if ownsStart && isBlank p then keepPieces true ownsEnd (q :: ps)
    else p :: keepPieces true ownsEnd (q :: ps)

/-- The code without its blank lines. -/
def dropBlankPieces (ownsStart ownsEnd : Bool) (t : Bytes) : Bytes :=
  Bytes.joinLines (keepPieces ownsStart ownsEnd (Bytes.lines t))

/-- Removes blank lines from code segments. `first` tells whether the list starts the text. -/
def dropBlankFrom (first : Bool) : List Segment → List Segment
  | [] => []
  | literal t :: segs => literal t :: dropBlankFrom false segs
  | code t :: segs =>
    ofCode (dropBlankPieces first segs.isEmpty t) ++ dropBlankFrom false segs

/-- Removes the lines that hold only white space. A piece of code that shares its line with a
literal stays, as its line has content. -/
def dropBlankLines (segs : List Segment) : List Segment := dropBlankFrom true segs

end Segment

end LuaCompact
