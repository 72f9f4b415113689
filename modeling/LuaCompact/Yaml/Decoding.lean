import LuaCompact.Yaml.Value

namespace LuaCompact.Yaml

namespace Node

/-- What a key is compared by: two keys of one kind and one text are the same key. -/
def keyText : Node → Nat × Bytes
  | scalar _ text _ => (0, text)
  | sequence _ => (1, [])
  | mapping _ => (2, [])
  | reference _ name _ => (3, name)

/-- Whether no key occurs twice. -/
def keysDistinct : List (Node × Node) → Bool
  | [] => true
  | (k, _) :: ps => !(ps.any fun (q, _) => q.keyText = k.keyText) && keysDistinct ps

/-- The key that asks for the pairs of other mappings. -/
def mergeText : Bytes := utf8 "<<"

/-- Whether a key asks for the pairs of other mappings. -/
def isMerge : Node → Bool
  | scalar tag text plain =>
    text = mergeText && ((tag = [] && plain) || Value.tagName? tag = some (utf8 "merge"))
  | _ => false

/-- Whether a scalar is a string by itself. -/
def isString : Node → Bool
  | scalar tag text plain =>
    if tag = [] then !plain || (Value.ofPlain text).kind = "str"
    else [some (utf8 "str"), some (utf8 "merge")].contains (Value.tagName? tag)
  | _ => false

end Node

/-- How many nodes have been decoded, and how many of them for an alias. -/
structure Tally where
  nodes : Nat
  aliased : Nat
deriving DecidableEq, Repr

namespace Tally

def zero : Tally := ⟨0, 0⟩

/-- The unit of `aliasedShare`. -/
def wholeShare : Nat := 360000000

/-- How many of so many nodes may come from aliases: 99 of a hundred in small documents, ten in
large ones, and between the two the share falls evenly. -/
def aliasedShare (nodes : Nat) : Nat :=
  if nodes ≤ 400000 then 99 * 3600000
  else if 4000000 ≤ nodes then 10 * 3600000
  else 99 * 3600000 - 89 * (nodes - 400000)

/-- Whether too many nodes came from aliases. -/
def isExcessive (t : Tally) : Bool :=
  100 < t.aliased && 1000 < t.nodes && t.nodes * aliasedShare t.nodes < t.aliased * wholeShare

def add (aliased : Bool) (t : Tally) : Tally :=
  ⟨t.nodes + 1, if aliased then t.aliased + 1 else t.aliased⟩

end Tally

/-- A step of decoding. -/
abbrev Decoding := StateT Tally Option

/-- Pairs under keys of any kind. -/
abbrev Entries := List (Value × Value)

/-- Gives a key a value, in place of the one that it had. -/
def Entries.insert (k v : Value) : Entries → Entries
  | [] => [(k, v)]
  | (l, w) :: ps => if k.isSame l then (k, v) :: ps else (l, w) :: Entries.insert k v ps

namespace Decoding

/-- Counts a node, which is decoded for the aliases `within`. -/
def count (within : List Nat) : Decoding Unit := do
  modify (Tally.add !within.isEmpty)
  if (← get).isExcessive then failure

/-- The node that an alias stands for. Fails where the alias is decoded for itself. -/
def target (d : Document) (within : List Nat) (number goal : Nat) : Decoding Node :=
  if within.contains number then failure else (d.named.lookup goal : Option Node)

/-- Whether a key is a string by itself, or stands for one. -/
def isStringKey (d : Document) : Node → Bool
  | .reference _ _ goal => (d.named.lookup goal).any Node.isString
  | n => n.isString

/-- The key that a scalar names. Where all keys are strings it is the text as written, and null
names nothing. -/
def scalarKey? (strings : Bool) (text : Bytes) : Value → Option Value
  | .string s => some (.string s)
  | .null => if strings then none else some .null
  | v => some (if strings then .string text else v)

/-- The key of a pair, if it names one. -/
def key (d : Document) (strings : Bool) : Nat → List Nat → Node → Decoding (Option Value)
  | 0, _, _ => failure
  | fuel + 1, within, n => do
    count within
    match n with
    | .scalar tag text plain =>
      let v ← (Value.ofScalar? tag text plain : Option Value)
      return scalarKey? strings text v
    | .reference number _ goal =>
      key d strings fuel (number :: within) (← target d within number goal)
    | _ => failure

mutual

/-- The value of a node. -/
def value (d : Document) : Nat → List Nat → Node → Decoding Value
  | 0, _, _ => failure
  | fuel + 1, within, n => do
    count within
    match n with
    | .scalar tag text plain => (Value.ofScalar? tag text plain : Option Value)
    | .sequence items => return .list (← items.mapM (value d fuel within))
    | .mapping pairs =>
      let strings := pairs.all fun (k, _) => isStringKey d k
      let (es, _) ← entries d strings fuel within none [] pairs
      return if strings then .map (es.map fun (k, v) => (k.text, v)) else .table es
    | .reference number _ goal =>
      value d fuel (number :: within) (← target d within number goal)

/-- Adds the pairs of a mapping. While mappings are merged, `seen?` holds the keys that are settled,
and pairs under them are passed over. -/
def entries (d : Document) (strings : Bool) :
    Nat → List Nat → Option (List Value) → Entries → List (Node × Node) →
      Decoding (Entries × Option (List Value))
  | 0, _, _, _, _ => failure
  | fuel + 1, within, seen?, es, pairs => do
    if Node.keysDistinct pairs then
      let (es, seen?) ← pairs.foldlM (fun (es, seen?) (k, v) => do
        if k.isMerge then return (es, seen?)
        else
          match ← key d strings fuel within k with
          | none => return (es, seen?)
          | some k =>
            if seen?.any fun seen => seen.any k.isSame then return (es, seen?)
            else
              let v ← value d fuel within v
              return (Entries.insert k v es, seen?.map (k :: ·))) (es, seen?)
      match pairs.find? fun (k, _) => k.isMerge with
      | none => return (es, seen?)
      | some (_, source) =>
        let seen ← match seen? with
          | some seen => pure seen
          | none => pairs.mapM fun (k, _) => value d fuel within k
        let sources := match source with
          | .sequence items => items
          | n => [n]
        let (es, seen) ← sources.foldlM (fun (es, seen) n =>
          merge d strings fuel within seen es n) (es, seen)
        return (es, seen?.map fun _ => seen)
    else failure

/-- Adds the pairs of a merged mapping or of an alias for one. -/
def merge (d : Document) (strings : Bool) :
    Nat → List Nat → List Value → Entries → Node → Decoding (Entries × List Value)
  | 0, _, _, _, _ => failure
  | fuel + 1, within, seen, es, n => do
    count within
    match n with
    | .mapping pairs =>
      let (es, seen?) ← entries d strings fuel within (some seen) es pairs
      return (es, seen?.getD seen)
    | .reference number _ goal =>
      match ← target d within number goal with
      | .mapping pairs => merge d strings fuel (number :: within) seen es (.mapping pairs)
      | _ => failure
    | _ => failure

end

end Decoding

namespace Document

/-- The pairs at the root of a document; an empty one has none. Fails if the root is no mapping. A
path into the document goes through each of its nodes at most once for each alias, which bounds
its length. -/
def entries? (d : Document) (size : Nat) : Option Entries := do
  let fuel := 4 * (size + 2) * (size + 2)
  match d.root with
  | .mapping pairs =>
    let steps : Decoding (Entries × Option (List Value)) := do
      Decoding.count []
      Decoding.count []
      Decoding.entries d true fuel [] none [] pairs
    let ((es, _), _) ← steps Tally.zero
    return es
  | .scalar tag text plain =>
    match ← Value.ofScalar? tag text plain with
    | .null => return []
    | _ => none
  | _ => none

end Document

end LuaCompact.Yaml
