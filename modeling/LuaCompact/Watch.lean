import LuaCompact.Build

namespace LuaCompact.Watch

/-- One look at a watched file: the state of the files, the modification time to compare with next,
and what was printed. -/
structure Poll where
  fs : FileSystem
  last : Time
  output : Bytes

/-- The time of day of a point in time, in hours, minutes and seconds. -/
def timeOfDay (t : Time) : Bytes :=
  let second := (t.sec % 86400).toNat
  Numeral.digitsFixed 10 2 (second / 3600) ++ utf8 ":" ++
    Numeral.digitsFixed 10 2 (second / 60 % 60) ++ utf8 ":" ++
    Numeral.digitsFixed 10 2 (second % 60)

/-- What is printed after a build, at the time of day `clock`. -/
def builtNotice (palette : Terminal.Palette) (clock : Bytes) (r : Report) : Bytes :=
  Terminal.Notice.success.print palette
    (clock ++ utf8 "  " ++ byteCount r.before.toInt ++ utf8 " → " ++ byteCount r.after.toInt ++
      utf8 " (" ++ percentage r.reduction.toBits ++ utf8 ")")

/-- Builds the output anew. -/
def rebuild (fs : FileSystem) (palette : Terminal.Palette) (clock : Bytes) (policy : Policy)
    (input output : Bytes) : FileSystem × Bytes :=
  match Build.file fs policy input output with
  | (fs, .error e) =>
    (fs, Terminal.Notice.error.print palette (utf8 "Minification failed: " ++ e.message))
  | (fs, .ok r) => (fs, builtNotice palette clock r)

/-- Builds the output anew if the input has changed since `last`. An input that cannot be seen is
reported and left for the next time. -/
def poll (fs : FileSystem) (palette : Terminal.Palette) (clock : Bytes) (policy : Policy)
    (input output : Bytes) (last : Time) : Poll :=
  match fs.stat input with
  | .error e =>
    ⟨fs, last, Terminal.Notice.warning.print palette
      (utf8 "Cannot stat " ++ input ++ utf8 ", retrying: " ++ e.message)⟩
  | .ok node =>
    if last.isBefore node.modified then
      let (fs, printed) := rebuild fs palette clock policy input output
      ⟨fs, node.modified, printed⟩
    else ⟨fs, last, []⟩

end LuaCompact.Watch
