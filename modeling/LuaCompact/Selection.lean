import LuaCompact.Path
import LuaCompact.Pattern

namespace LuaCompact.Selection

/-- The mark for any number of directories. -/
def anyDepth : Bytes := [Pattern.star, Pattern.star]

/-- The parts of a pattern before and after its first any-depth mark, without the slashes that
join them to it. -/
def splitDepth? (pattern : Bytes) : Option (Bytes × Bytes) :=
  (Bytes.cut anyDepth pattern).map fun (before, after) =>
    (Bytes.dropEnd [Byte.slash] before, Bytes.dropStart [Byte.slash] after)

/-- Whether a path is excluded by a pattern without any-depth mark: it matches as a whole or by
its last element, or it lies beneath the directory that a pattern without wildcards names. -/
def matchesFlat (path pattern : Bytes) : Bool :=
  Pattern.admits pattern path ||
    (!Pattern.hasWildcard pattern &&
      (Bytes.dropEnd [Byte.slash] pattern ++ [Byte.slash]).isPrefixOf path) ||
    Pattern.admits pattern (Path.base path)

/-- Whether a path is excluded by a pattern with an any-depth mark between `before` and `after`. -/
def matchesDeep (path before after : Bytes) : Bool :=
  (before = [] || (before ++ [Byte.slash]).isPrefixOf path ||
      Pattern.admits (before ++ [Byte.slash, Pattern.star]) path) &&
    (after = [] || Pattern.admits after (Path.base path) ||
      (Byte.slash :: after).isSuffixOf path)

/-- Whether a path is excluded by a pattern. -/
def matchesPattern (path pattern : Bytes) : Bool :=
  match splitDepth? pattern with
  | none => matchesFlat path pattern
  | some (before, after) => matchesDeep path before after

/-- Whether a path is excluded by one of the patterns. -/
def isExcluded (path : Bytes) (excludes : List Bytes) : Bool := excludes.any (matchesPattern path)

/-- Whether a file below `start` fits what follows an any-depth mark, by its name or by its path
from `start`. -/
def matchesAfter (start path after : Bytes) : Bool :=
  Pattern.admits after (Path.base path) ||
    match Path.relative? start path with
    | some rel => Pattern.admits after rel
    | none => false

end LuaCompact.Selection
