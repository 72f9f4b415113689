import LuaCompact.FileSystem.Resolve

namespace LuaCompact.FileSystem

/-- Makes one directory, in a directory that exists. -/
def makeDirectory (fs : FileSystem) (path : Bytes) : Except Fault FileSystem :=
  match fs.resolve .itself path with
  | .error fault => .error fault
  | .ok place =>
    match place.node? with
    | some _ => .error .alreadyExists
    | none => .ok (fs.put place.location (.directory fs.clock))

/-- A path without its last element and the slash before it. -/
def parentPath (path : Bytes) : Bytes :=
  (((path.reverse.dropWhile (· == Byte.slash)).dropWhile (· != Byte.slash)).drop 1).reverse

theorem length_parentPath_le (path : Bytes) : (parentPath path).length ≤ path.length - 1 := by
  have h : ((path.reverse.dropWhile (· == Byte.slash)).dropWhile (· != Byte.slash)).length
      ≤ path.length := by
    have a := (List.dropWhile_suffix (l := path.reverse.dropWhile (· == Byte.slash))
      (· != Byte.slash)).length_le
    have b := (List.dropWhile_suffix (l := path.reverse) (· == Byte.slash)).length_le
    simp at b
    omega
  simp only [parentPath, List.length_reverse, List.length_drop]
  omega

/-- Makes a directory and the directories above it that are missing. What has been made stays
even if a later step fails. -/
def makeDirectories (fs : FileSystem) (path : Bytes) : FileSystem × Except PathError Unit :=
  match fs.lookup .target path with
  | .ok node =>
    (fs, if node.isDirectory then .ok () else .error ⟨.mkdir, path, .notDirectory⟩)
  | .error _ =>
    if _h : parentPath path = [] then makeLast fs path
    else
      match makeDirectories fs (parentPath path) with
      | (fs, .ok _) => makeLast fs path
      | (fs, .error e) => (fs, .error e)
termination_by path.length
decreasing_by
  have := length_parentPath_le path
  have : (parentPath path).length ≠ 0 := fun h => _h (List.length_eq_zero_iff.mp h)
  omega
where
  makeLast (fs : FileSystem) (path : Bytes) : FileSystem × Except PathError Unit :=
    match fs.makeDirectory path with
    | .ok made => (made, .ok ())
    | .error fault =>
      match fs.lookup .itself path with
      | .ok (.directory _) => (fs, .ok ())
      | _ => (fs, .error ⟨.mkdir, path, fault⟩)

/-- Gives a file new content, and makes the file if it is missing. -/
def writeFile (fs : FileSystem) (path content : Bytes) : Except PathError FileSystem :=
  match fs.resolve .creation path with
  | .error fault => .error ⟨.openFile, path, fault⟩
  | .ok place =>
    match place.node? with
    | some (.directory _) => .error ⟨.openFile, path, .isDirectory⟩
    | _ => .ok (fs.put place.location (.file content fs.clock))

/-- Removes what a path names and all beneath it; what is missing is no failure. -/
def remove (fs : FileSystem) (path : Bytes) : FileSystem :=
  match fs.resolve .itself path with
  | .ok place => fs.erase place.location
  | .error _ => fs

/-- Sets the time at which a file or a directory was last changed. -/
def setModified (fs : FileSystem) (path : Bytes) (time : Time) : FileSystem :=
  match fs.resolve .target path with
  | .ok ⟨loc, some (.file content _)⟩ => fs.put loc (.file content time)
  | .ok ⟨loc, some (.directory _)⟩ => fs.put loc (.directory time)
  | _ => fs

/-- Puts a link where a path leads, in place of what is there. -/
def placeLink (fs : FileSystem) (path target : Bytes) : FileSystem :=
  match fs.resolve .itself path with
  | .ok place => (fs.erase place.location).put place.location (.link target)
  | .error _ => fs

/-- All nodes beneath a location, in byte order of their paths from there. -/
def descendants (fs : FileSystem) (loc : Location) : List (Bytes × Node) :=
  (fs.nodes.filterMap fun (l, node) =>
    if loc.isPrefixOf l && l ≠ loc then some (Path.ofElements (l.drop loc.length), node)
    else none).mergeSort fun a b => Bytes.le a.1 b.1

end LuaCompact.FileSystem
