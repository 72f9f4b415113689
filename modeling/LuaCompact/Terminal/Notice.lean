import LuaCompact.Terminal.Style
import LuaCompact.Report

namespace LuaCompact.Terminal

/-- The kinds of message that the program prints. -/
inductive Notice where
  | success
  | info
  | error
  | warning
deriving DecidableEq, Repr

namespace Notice

def style : Notice → Style
  | success => .success
  | info => .info
  | error => .error
  | warning => .warning

/-- The sign in front of a message. -/
def sign : Notice → Bytes
  | success => utf8 "✓ "
  | info => utf8 "• "
  | error => utf8 "✗ "
  | warning => utf8 "⚠ "

/-- A message as printed, with the line feed at its end. -/
def print (kind : Notice) (palette : Palette) (text : Bytes) : Bytes :=
  kind.style.render palette (kind.sign ++ text) ++ [Byte.lf]

end Notice

/-- The rows of a report, every value in the same column. -/
def statLines (palette : Palette) (stats : List Stat) : List Bytes :=
  let column := (stats.map fun s => width s.label + 1).foldl max 0
  stats.map fun s =>
    let label := s.label ++ utf8 ":"
    utf8 "  " ++ Style.statLabel.render palette label ++
      List.replicate (column - width label) Byte.space ++ utf8 " " ++
      Style.statValue.render palette s.value

/-- The rows of a report as printed. -/
def printStats (palette : Palette) (stats : List Stat) : Bytes :=
  (statLines palette stats).flatMap (· ++ [Byte.lf])

/-- The name of the program in large letters. -/
def banner (palette : Palette) : Bytes :=
  Style.banner.render palette (utf8
    ("\n █   █  █ █▀▄▀█ ▀█▀ █▄  █" ++
      "\n █   █  █ █ ▀ █  █  █ ▀▄█" ++
      "\n ▀▀▀ ▀▀▀▀ ▀   ▀ ▀▀▀ ▀   ▀"))

/-- A line across. -/
def divider (palette : Palette) : Bytes :=
  Style.divider.render palette ((List.replicate 41 (utf8 "─")).flatten)

/-- The banner between two lines, with the version. -/
def header (palette : Palette) (version : Bytes) : Bytes :=
  Bytes.joinLines [[], divider palette, banner palette,
    Style.statValue.render palette (utf8 " Version: " ++ version), [], divider palette, [], []]

end LuaCompact.Terminal
