import LuaCompact.Command.Run

namespace LuaCompact.Disk

/-- A text as a string; names that are no UTF-8 cannot be passed on. -/
def string (s : Bytes) : String := (String.fromUTF8? ⟨s.toArray⟩).getD ""

/-- The path of a location. -/
def pathText (loc : Location) : String := string (Byte.slash :: Path.ofElements loc)

/-- The location that a path names, as far as its text alone can tell. -/
def location (cwd : Location) (path : Bytes) : Location :=
  let full := if Path.isRooted path then path else
    Byte.slash :: Path.ofElements cwd ++ Byte.slash :: path
  Path.steps (Path.clean full)

/-- What the disk holds at a location. -/
def node? (loc : Location) : IO (Option Node) := do
  let path := (← IO.currentDir) / pathText loc
  try
    let info ← path.symlinkMetadata
    let time : Time := ⟨info.modified.sec, info.modified.nsec.toNat⟩
    match info.type with
    | .dir => return some (.directory time)
    | .symlink => return some (.link (utf8 (← IO.FS.realPath path).toString))
    | _ => return some (.file (← IO.FS.readBinFile path).data.toList time)
  catch _ => return none

/-- The names that a directory of the disk holds. -/
def names (loc : Location) : IO (List Bytes) := do
  let entries ← ((← IO.currentDir) / pathText loc).readDir
  return entries.toList.map fun e => utf8 e.fileName

/-- What has been taken up from the disk: the files, and the locations taken up with all beneath
them. -/
structure Taken where
  fs : FileSystem
  whole : List Location

/-- Takes up a location with all beneath it, and what its links lead to. -/
partial def takeTree (taken : Taken) (loc : Location) : IO Taken := do
  if loc ∈ taken.whole then return taken
  match ← node? loc with
  | none => return taken
  | some node =>
    let taken := ⟨if loc = [] then taken.fs else taken.fs.put loc node, loc :: taken.whole⟩
    match node with
    | .directory _ => (← names loc).foldlM (fun taken name => takeTree taken (loc ++ [name])) taken
    | .link target => takeTree taken (location [] target)
    | .file _ _ => return taken

/-- Takes up the directories on the way to a path, and what is there. -/
def takePath (taken : Taken) (path : Bytes) : IO Taken := do
  let loc := location taken.fs.cwd path
  let taken ← (List.range loc.length).foldlM (fun taken n => do
    let above := loc.take n
    if (taken.fs.get? above).isSome then return taken
    match ← node? above with
    | some (.link _) => takeTree taken above
    | some node => return { taken with fs := taken.fs.put above node }
    | none => return taken) taken
  takeTree taken loc

/-- The files that arguments can be about. New content is told by a time that no file has. -/
def snapshot (args : List Bytes) : IO FileSystem := do
  let cwd := location [] (utf8 (← IO.currentDir).toString)
  let paths := Settings.fileName :: args.filter Options.isPlain
  return (← paths.foldlM takePath ⟨⟨[], cwd, .zero⟩, []⟩).fs

/-- Brings the disk up to date with the files after a command. -/
def writeBack (before after : FileSystem) : IO Unit := do
  let here ← IO.currentDir
  let changed := after.nodes.filter fun (loc, node) => before.get? loc ≠ some node
  for (loc, node) in changed.mergeSort fun a b => a.1.length ≤ b.1.length do
    match node with
    | .directory _ => IO.FS.createDir (here / pathText loc)
    | .file content _ => IO.FS.writeBinFile (here / pathText loc) ⟨content.toArray⟩
    | .link _ => pure ()

def print (s : Bytes) : IO Unit := do
  let out ← IO.getStdout
  out.write ⟨s.toArray⟩
  out.flush

/-- The present, by the time of a file that has just been made. -/
def now : IO Time := do
  let (_, path) ← IO.FS.createTempFile
  let info ← path.metadata
  IO.FS.removeFile path
  return ⟨info.modified.sec, info.modified.nsec.toNat⟩

/-- Looks at a file again and again. -/
partial def watch (policy : Policy) (input output : Bytes) (last : Time) : IO Unit := do
  let fs ← snapshot [input, output]
  let result := Watch.poll fs .plain (Watch.timeOfDay (← now)) policy input output last
  writeBack fs result.fs
  print result.output
  IO.sleep 500
  watch policy input output result.last

/-- The variables that settings are read from, and the one that names the working directory. -/
def environment : IO Environment := do
  let keys := [Settings.Key.mode, .include_, .exclude, .quiet]
  (Command.directoryVariable :: keys.map (·.variable_)).filterMapM fun name => do
    return (← IO.getEnv (string name)).map fun value => (name, utf8 value)

end LuaCompact.Disk
