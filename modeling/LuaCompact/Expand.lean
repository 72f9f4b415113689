import LuaCompact.FileSystem.Resolve
import LuaCompact.Selection

namespace LuaCompact.Expand

/-- A malformed pattern. -/
structure BadPattern where
deriving DecidableEq, Repr

def BadPattern.message (_ : BadPattern) : Bytes := utf8 "syntax error in pattern"

/-- The entries of a directory that match the last element of a pattern, in byte order. A fault in
the pattern counts only if an entry leads to it. -/
def inDirectory (fs : FileSystem) (dir pattern : Bytes) : Except BadPattern (List Bytes) :=
  let p := Pattern.parse pattern
  let names := (fs.list dir).map Prod.fst
  if names.any fun name => (p.accepts? name).isNone then .error ⟨⟩
  else .ok ((names.filter fun name => p.accepts? name = some true).map (Path.join dir))

/-- The directory part of a pattern, as a path of its own. -/
def patternDirectory (pattern : Bytes) : Bytes :=
  let dir := (Path.split pattern).1
  if dir = [] then Path.here
  else if dir = [Byte.slash] then dir
  else dir.dropLast

/-- The paths that a pattern without any-depth mark stands for. Directories are matched element by
element from the left. A fault that the empty name leads to counts in any case. -/
def paths (fs : FileSystem) (pattern : Bytes) : Except BadPattern (List Bytes) :=
  if ((Pattern.parse pattern).accepts? []).isNone then .error ⟨⟩
  else if !Pattern.hasMeta pattern then
    match fs.lookup .itself pattern with
    | .ok _ => .ok [pattern]
    | .error _ => .ok []
  else
    let dir := patternDirectory pattern
    let file := (Path.split pattern).2
    if !Pattern.hasMeta dir then inDirectory fs dir file
    else if _h : dir.length < pattern.length then do
      let dirs ← paths fs dir
      let found ← dirs.mapM fun d => inDirectory fs d file
      return found.flatten
    else .error ⟨⟩
termination_by pattern.length

/-- The regular files beneath a directory, each directory in byte order, down to a depth. Links are
not followed. -/
def filesBeneath (fs : FileSystem) : Nat → Bytes → List Bytes
  | 0, _ => []
  | depth + 1, path =>
    (fs.list path).flatMap fun (name, node) =>
      match node with
      | .file _ _ => [Path.join path name]
      | .directory _ => filesBeneath fs depth (Path.join path name)
      | .link _ => []

/-- The path itself if it leads to a file, or the files beneath it if it is a directory. No tree is
deeper than the file system has nodes. -/
def files (fs : FileSystem) (path : Bytes) : List Bytes :=
  match fs.lookup .target path with
  | .error _ => []
  | .ok node =>
    if node.isDirectory then
      match fs.lookup .itself path with
      | .ok (.directory _) => filesBeneath fs (fs.nodes.length + 1) path
      | _ => []
    else [path]

/-- The files beneath `base` that a pattern selects, as paths from `base`. A selected directory
stands for every file beneath it. -/
def glob (fs : FileSystem) (base pattern : Bytes) : Except BadPattern (List Bytes) :=
  match Selection.splitDepth? pattern with
  | some (before, after) =>
    let start := if before = [] then base else Path.join base before
    let found := (files fs start).filter fun path =>
      after = [] || Selection.matchesAfter start path after
    .ok (found.filterMap (Path.relative? base))
  | none => do
    let found ← paths fs (Path.join base pattern)
    return (found.flatMap (files fs)).filterMap (Path.relative? base)

/-- The paths kept so far, with one more at their end if it is new and no exclude pattern takes it
out. -/
def keep (exclude : List Bytes) (kept : List Bytes) (path : Bytes) : List Bytes :=
  if kept.contains path || Selection.isExcluded path exclude then kept else kept ++ [path]

/-- The files that the include patterns select and no exclude pattern takes out, each once, in byte
order. The patterns are expanded in turn; the first that is malformed ends it. -/
def includes (fs : FileSystem) (base : Bytes) (include_ exclude : List Bytes) :
    Except BadPattern (List Bytes) := do
  let kept ← include_.foldlM (fun kept pattern => do
    let found ← glob fs base pattern
    return found.foldl (keep exclude) kept) []
  return kept.mergeSort Bytes.le

end LuaCompact.Expand
