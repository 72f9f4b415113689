import LuaCompact.Path

namespace LuaCompact

/-- A point in time, in seconds and nanoseconds from the epoch. -/
structure Time where
  sec : Int
  nsec : Int
deriving DecidableEq, Repr

namespace Time

/-- Before every modification time: the first of January of the year one. -/
def zero : Time := ⟨-62135596800, 0⟩

/-- The time that lies some seconds and nanoseconds from the epoch. The nanoseconds may make up
whole seconds, forward or back. -/
def after (sec nsec : Int) : Time := ⟨sec + nsec / 1000000000, nsec % 1000000000⟩

def isBefore (s t : Time) : Bool := s.sec < t.sec || (s.sec = t.sec && s.nsec < t.nsec)

end Time

/-- The names that lead from the root to a place, none of them a link or a dot. -/
abbrev Location := List Bytes

/-- What a name in a directory stands for. -/
inductive Node where
  | file (content : Bytes) (modified : Time)
  | directory (modified : Time)
  | link (target : Bytes)
deriving DecidableEq, Repr

namespace Node

def isDirectory : Node → Bool
  | directory _ => true
  | _ => false

/-- When the node was last changed; a link is never asked. -/
def modified : Node → Time
  | file _ t => t
  | directory t => t
  | link _ => .zero

end Node

/-- Why a call on a path fails. -/
inductive Fault where
  | missing
  | notDirectory
  | isDirectory
  | alreadyExists
  | nameTooLong
  | invalid
  | tooManyLinks
deriving DecidableEq, Repr

def Fault.message : Fault → Bytes
  | missing => utf8 "no such file or directory"
  | notDirectory => utf8 "not a directory"
  | isDirectory => utf8 "is a directory"
  | alreadyExists => utf8 "file exists"
  | nameTooLong => utf8 "file name too long"
  | invalid => utf8 "invalid argument"
  | tooManyLinks => utf8 "too many levels of symbolic links"

/-- The calls that can fail. -/
inductive Call where
  | openFile
  | read
  | stat
  | mkdir
deriving DecidableEq, Repr

def Call.name : Call → Bytes
  | openFile => utf8 "open"
  | read => utf8 "read"
  | stat => utf8 "stat"
  | mkdir => utf8 "mkdir"

/-- A failed call on a path. -/
structure PathError where
  call : Call
  path : Bytes
  fault : Fault
deriving DecidableEq, Repr

def PathError.message (e : PathError) : Bytes :=
  e.call.name ++ utf8 " " ++ e.path ++ utf8 ": " ++ e.fault.message

/-- A file system as a program sees it: the nodes below the root by their locations, the place
that relative paths start from, and the time that new content gets. -/
structure FileSystem where
  nodes : List (Location × Node)
  cwd : Location
  clock : Time
deriving Repr

namespace FileSystem

/-- The node at a location. The root is always there. -/
def get? (fs : FileSystem) (loc : Location) : Option Node :=
  if loc = [] then some (.directory fs.clock) else fs.nodes.lookup loc

/-- Puts a node at a location, in place of what was there. -/
def put (fs : FileSystem) (loc : Location) (node : Node) : FileSystem :=
  { fs with nodes := (loc, node) :: fs.nodes.filter (·.1 ≠ loc) }

/-- Removes a location and all beneath it. -/
def erase (fs : FileSystem) (loc : Location) : FileSystem :=
  { fs with nodes := fs.nodes.filter fun (l, _) => !loc.isPrefixOf l }

/-- The nodes directly beneath a location, in byte order of their names. -/
def children (fs : FileSystem) (loc : Location) : List (Bytes × Node) :=
  (fs.nodes.filterMap fun (l, node) =>
    match l.getLast? with
    | some name => if l.dropLast = loc then some (name, node) else none
    | none => none).mergeSort fun a b => Bytes.le a.1 b.1

end FileSystem

end LuaCompact
