import LuaCompact.Terminal.Width

namespace LuaCompact.Terminal

/-- Whether output carries colour. -/
inductive Palette where
  | plain
  | trueColor
deriving DecidableEq, Repr

/-- How a text is shown, by the codes that switch it on. -/
structure Style where
  codes : String

namespace Style

def banner : Style := ⟨"1;38;2;59;130;246"⟩
def success : Style := ⟨"1;38;2;16;185;129"⟩
def error : Style := ⟨"1;38;2;239;68;68"⟩
def warning : Style := ⟨"38;2;245;158;11"⟩
def info : Style := ⟨"38;2;59;130;246"⟩
def divider : Style := ⟨"38;2;107;113;128"⟩
def statLabel : Style := ⟨"1;38;2;0;0;128"⟩
def statValue : Style := ⟨"38;2;229;231;235"⟩

/-- One line between the codes that switch the style on and off. -/
def line (style : Style) (palette : Palette) (s : Bytes) : Bytes :=
  match palette with
  | .plain => s
  | .trueColor => utf8 ("\x1b[" ++ style.codes ++ "m") ++ s ++ utf8 "\x1b[0m"

/-- Makes lines equally wide by spaces at their ends. -/
def pad (ls : List Bytes) : List Bytes :=
  let widest := (ls.map lineWidth).foldl max 0
  ls.map fun l => l ++ List.replicate (widest - lineWidth l) Byte.space

/-- A text with its tabs as four spaces and its line breaks as line feeds. -/
def plainBreaks (s : Bytes) : Bytes :=
  Bytes.replace [Byte.cr, Byte.lf] [Byte.lf]
    (Bytes.replace [Byte.tab] (List.replicate 4 Byte.space) s)

/-- A text in a style, line by line, several lines padded to the same width. -/
def render (style : Style) (palette : Palette) (s : Bytes) : Bytes :=
  Bytes.joinLines (pad ((Bytes.lines (plainBreaks s)).map (style.line palette)))

end Style

end LuaCompact.Terminal
