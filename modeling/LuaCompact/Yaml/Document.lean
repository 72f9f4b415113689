import LuaCompact.Yaml.Decoding
import LuaCompact.Unicode.LowerCase

namespace LuaCompact.Yaml

namespace Value

/-- Insertion into a list that is sorted by keys, in place of what the key had. -/
def insertKey (k : Bytes) (v : Value) : List (Bytes × Value) → List (Bytes × Value)
  | [] => [(k, v)]
  | (l, w) :: ps =>
    if k = l then (k, v) :: ps
    else if Bytes.le k l then (k, v) :: (l, w) :: ps
    else (l, w) :: insertKey k v ps

/-- Pairs with their keys in lower case, in byte order. A key that changes goes before an equal one
that does not. -/
def lowerKeys (pairs : List (Bytes × Value)) : List (Bytes × Value) :=
  let (same, changed) := pairs.partition fun (k, _) => Unicode.lowerCase k = k
  (same ++ changed).foldl (fun ps (k, v) => insertKey (Unicode.lowerCase k) v ps) []

mutual

/-- A value whose maps and tables are maps with keys in lower case, those inside lists not. -/
def foldMaps : Value → Value
  | map pairs => map (lowerKeys (foldMapsPairs pairs))
  | table pairs => map (lowerKeys (foldMapsRows pairs))
  | v => v

def foldMapsPairs : List (Bytes × Value) → List (Bytes × Value)
  | [] => []
  | (k, v) :: ps => (k, v.foldMaps) :: foldMapsPairs ps

def foldMapsRows : List (Value × Value) → List (Bytes × Value)
  | [] => []
  | (k, v) :: ps => (k.settingText, v.foldMaps) :: foldMapsRows ps

end

mutual

/-- A value with the keys of its maps in lower case, those inside lists too. What lies inside a
table is folded without the lists there. -/
def foldCase : Value → Value
  | list items => list (foldCaseList items)
  | map pairs => map (lowerKeys (foldCasePairs pairs))
  | table pairs => (table pairs).foldMaps
  | v => v

def foldCaseList : List Value → List Value
  | [] => []
  | v :: vs => v.foldCase :: foldCaseList vs

def foldCasePairs : List (Bytes × Value) → List (Bytes × Value)
  | [] => []
  | (k, v) :: ps => (k, v.foldCase) :: foldCasePairs ps

end

end Value

/-- The settings of a text: the pairs of its first document, keys in lower case. A text without a
document or with an empty one has none. Fails if the document is malformed or its root no
mapping. -/
def settings? (s : Bytes) : Option (List (Bytes × Value)) := do
  let ts := tokens s
  match ← Document.ofTokens? ts with
  | none => return []
  | some d =>
    let es ← d.entries? ts.length
    return Value.lowerKeys (Value.foldCasePairs (es.map fun (k, v) => (k.text, v)))

end LuaCompact.Yaml
