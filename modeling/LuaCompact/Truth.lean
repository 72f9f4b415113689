import LuaCompact.Bytes

namespace LuaCompact

/-- The words for yes and no. -/
def truths : List (String × Bool) :=
  [("1", true), ("t", true), ("T", true), ("true", true), ("True", true), ("TRUE", true),
    ("0", false), ("f", false), ("F", false), ("false", false), ("False", false),
    ("FALSE", false)]

/-- What a word for yes or no says. -/
def truth? (s : Bytes) : Option Bool :=
  (truths.find? fun (word, _) => utf8 word = s).map (·.2)

end LuaCompact
