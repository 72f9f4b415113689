import LuaCompact.Bytes

namespace LuaCompact.Path

/-- The name of the directory itself. -/
abbrev here : Bytes := [46]

/-- The name of the directory above. -/
abbrev up : Bytes := [46, 46]

/-- Whether a path starts at the root. -/
def isRooted (path : Bytes) : Bool := path.head? = some Byte.slash

/-- What the slashes of a path divide. -/
def elements (path : Bytes) : List Bytes := path.splitOn Byte.slash

/-- The path with the given elements. -/
def ofElements (es : List Bytes) : Bytes := List.intercalate [Byte.slash] es

/-- Adds an element to a cleaned path, given from its last element to its first. An element that
goes up takes back the one before it; above the root there is only the root. -/
def push (rooted : Bool) (stack : List Bytes) (e : Bytes) : List Bytes :=
  if e = [] ∨ e = here then stack
  else if e = up then
    match stack with
    | [] => if rooted then [] else [up]
    | top :: rest => if top = up then up :: stack else rest
  else e :: stack

/-- The shortest path that names the same place, as far as its text alone can tell. -/
def clean (path : Bytes) : Bytes :=
  let body := ofElements ((elements path).foldl (push (isRooted path)) []).reverse
  if isRooted path then Byte.slash :: body
  else if body = [] then here
  else body

/-- One path below another, cleaned. -/
def join (dir path : Bytes) : Bytes :=
  if dir = [] then if path = [] then [] else clean path
  else clean (dir ++ Byte.slash :: path)

/-- The path up to and with its last slash, and what follows. -/
def split (path : Bytes) : Bytes × Bytes :=
  let file := (path.reverse.takeWhile (· != Byte.slash)).reverse
  (path.take (path.length - file.length), file)

/-- The directory of a path, cleaned. -/
def dir (path : Bytes) : Bytes := clean (split path).1

/-- The last element of a path. -/
def base (path : Bytes) : Bytes :=
  if path = [] then here
  else
    let name := (split (path.reverse.dropWhile (· == Byte.slash)).reverse).2
    if name = [] then [Byte.slash] else name

/-- Two lists without the elements that they share at their start. -/
def dropShared : List Bytes → List Bytes → List Bytes × List Bytes
  | a :: s, b :: t => if a = b then dropShared s t else (a :: s, b :: t)
  | s, t => (s, t)

/-- The elements below the root or the working directory. -/
def steps (path : Bytes) : List Bytes :=
  let body := if isRooted path then path.tail else path
  if body = [] then [] else elements body

/-- The path that leads from one place to another. None if one starts at the root and the other
does not, or if the way back through the first is unknown. -/
def relative? (origin target : Bytes) : Option Bytes :=
  let source := clean origin
  let goal := clean target
  if source = goal then some here
  else if isRooted source != isRooted goal then none
  else
    match dropShared (if source = here then [] else steps source) (steps goal) with
    | ([], rest) => some (ofElements rest)
    | (e :: es, rest) =>
      if e = up ∧ rest ≠ [] then none
      else some (ofElements (List.replicate (es.length + 1) up ++ rest))

end LuaCompact.Path
