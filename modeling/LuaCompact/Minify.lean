import LuaCompact.Gap
import LuaCompact.LineStrip
import LuaCompact.Policy

namespace LuaCompact

/-- Comment-free source in which string literals are told apart from code. -/
def stripLiteralAware (s : Bytes) : List Segment :=
  Segment.dropBlankLines (Segment.ofTokens (Token.lex s))

/-- Comment-free source without blank lines, as the policy finds comments. -/
def strip (policy : Policy) (s : Bytes) : List Segment :=
  match policy with
  | .faithful => LineStrip.strip s
  | _ => stripLiteralAware s

/-- Removes comments and redundant white space. -/
def minify (policy : Policy) (s : Bytes) : Bytes := Gap.normalize (strip policy s)

end LuaCompact
