import LuaCompact.Disk

open LuaCompact

def main (args : List String) : IO UInt32 := do
  let args := args.map utf8
  let fs ← Disk.snapshot args
  let outcome := Command.run fs (← Disk.environment) args
  Disk.writeBack fs outcome.fs
  Disk.print outcome.output
  match outcome.ending with
  | .exit code => return code.toUInt32
  | .watching policy input output =>
    Disk.watch policy input output .zero
    return 0
