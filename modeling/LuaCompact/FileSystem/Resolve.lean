import LuaCompact.FileSystem.Basic

namespace LuaCompact.FileSystem

/-- What a path is resolved for: the named node even if it is a link, what it leads to, or a file
that may have to be made there. -/
inductive Purpose where
  | itself
  | target
  | creation
deriving DecidableEq, Repr

/-- Where a path leads: a location, and the node there if there is one. The directory that would
hold a missing node exists. -/
structure Place where
  location : Location
  node? : Option Node
deriving Repr

/-- How many links one path may lead through. -/
def linkLimit : Nat := 40

/-- The longest name. -/
def nameLimit : Nat := 255

/-- The longest path. -/
def pathLimit : Nat := 4095

/-- Whether what is left of a path is slashes only. -/
def onlySlashes (todo : List Bytes) : Bool := todo.all (· = [])

/-- Follows the elements of a path from a directory. Each element is looked up in turn, links
included, so that going up leads out of the directory that a link has led to. -/
def walk (fs : FileSystem) (purpose : Purpose) (links : Nat) (loc : Location) (todo : List Bytes) :
    Except Fault Place :=
  match todo with
  | [] => .ok ⟨loc, fs.get? loc⟩
  | e :: rest =>
    if e = [] ∨ e = Path.here then walk fs purpose links loc rest
    else if e = Path.up then walk fs purpose links loc.dropLast rest
    else if nameLimit < e.length then .error .nameTooLong
    else if purpose = .creation ∧ rest ≠ [] ∧ onlySlashes rest then .error .isDirectory
    else
      match fs.get? (loc ++ [e]) with
      | none => if onlySlashes rest then .ok ⟨loc ++ [e], none⟩ else .error .missing
      | some (.directory _) => walk fs purpose links (loc ++ [e]) rest
      | some (.file content modified) =>
        if rest = [] then .ok ⟨loc ++ [e], some (.file content modified)⟩
        else .error .notDirectory
      | some (.link goal) =>
        if rest = [] ∧ purpose = .itself then .ok ⟨loc ++ [e], some (.link goal)⟩
        else
          match links with
          | 0 => .error .tooManyLinks
          | links + 1 =>
            if goal = [] then .error .missing
            else walk fs purpose links (if Path.isRooted goal then [] else loc)
              (Path.elements goal ++ rest)
termination_by (links, todo.length)

/-- Where a path leads. -/
def resolve (fs : FileSystem) (purpose : Purpose) (path : Bytes) : Except Fault Place :=
  if 0 ∈ path then .error .invalid
  else if path = [] then .error .missing
  else if pathLimit < path.length then .error .nameTooLong
  else walk fs purpose linkLimit (if Path.isRooted path then [] else fs.cwd) (Path.elements path)

/-- The node that a path leads to. -/
def lookup (fs : FileSystem) (purpose : Purpose) (path : Bytes) : Except Fault Node :=
  match fs.resolve purpose path with
  | .error fault => .error fault
  | .ok place =>
    match place.node? with
    | some node => .ok node
    | none => .error .missing

/-- The node that a path leads to, through links. -/
def stat (fs : FileSystem) (path : Bytes) : Except PathError Node :=
  (fs.lookup .target path).mapError fun fault => ⟨.stat, path, fault⟩

/-- The content of a file. -/
def readFile (fs : FileSystem) (path : Bytes) : Except PathError Bytes :=
  match fs.lookup .target path with
  | .error fault => .error ⟨.openFile, path, fault⟩
  | .ok (.file content _) => .ok content
  | .ok _ => .error ⟨.read, path, .isDirectory⟩

/-- The entries of a directory in byte order; nothing can be listed where none is. -/
def list (fs : FileSystem) (path : Bytes) : List (Bytes × Node) :=
  match fs.resolve .target path with
  | .ok ⟨loc, some (.directory _)⟩ => fs.children loc
  | _ => []

end LuaCompact.FileSystem
