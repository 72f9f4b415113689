import LuaCompact.Yaml.Reading

namespace LuaCompact.Yaml

/-- A document as a tree. A tag is what was written, with its handle replaced. An alias has a number
of its own and the number of the node that it stands for. -/
inductive Node where
  | scalar (tag : Bytes) (text : Bytes) (plain : Bool)
  | sequence (items : List Node)
  | mapping (pairs : List (Node × Node))
  | reference (number : Nat) (name : Bytes) (target : Nat)

/-- A document: its root and the named nodes by their numbers. -/
structure Document where
  root : Node
  named : List (Nat × Node)

namespace Node

/-- What a missing node reads as. -/
def empty : Node := scalar [] [] true

/-- The handles for tags. -/
abbrev Handles := List (Bytes × Bytes)

/-- What is left to read, the numbers of the names known so far, the latest first, and the named
nodes that are complete. -/
structure State where
  tokens : List Token
  anchors : List (Bytes × Nat)
  named : List (Nat × Node)

namespace State

def head? (s : State) : Option Token := s.tokens.head?

def skip (s : State) : State := { s with tokens := s.tokens.tail }

/-- Whether the next token is one of the given ones; the end of the tokens is none. -/
def sees (s : State) (ts : List Token) : Bool := s.head?.any ts.contains

/-- A number that no other node of the text has: how many tokens are left. -/
def number (s : State) : Nat := s.tokens.length

end State

/-- The anchor and the tag in front of a node. An anchor has a name and a number. -/
structure Properties where
  anchor : Option (Bytes × Nat)
  tag : Option Bytes

/-- A tag with its handle replaced. -/
def fullTag (handles : Handles) (handle suffix : Bytes) : Option Bytes :=
  if handle = [] then some suffix else (handles.lookup handle).map (· ++ suffix)

/-- Reads an anchor and a tag, in either order. -/
def properties (handles : Handles) (s : State) : Option (Properties × State) :=
  match s.tokens with
  | .anchor a :: .tag h t :: ts => do
    return (⟨some (a, s.number), some (← fullTag handles h t)⟩, { s with tokens := ts })
  | .tag h t :: .anchor a :: ts => do
    return (⟨some (a, s.number), some (← fullTag handles h t)⟩, { s with tokens := ts })
  | .anchor a :: ts => some (⟨some (a, s.number), none⟩, { s with tokens := ts })
  | .tag h t :: ts => do return (⟨none, some (← fullTag handles h t)⟩, { s with tokens := ts })
  | _ => some (⟨none, none⟩, s)

/-- What a rule gives: a node and what is left. -/
abbrev Result := Option (Node × State)

/-- The tag of a scalar; a lone exclamation mark counts as none. -/
def scalarTag (p : Properties) : Bytes :=
  match p.tag with
  | some t => if t = Token.bang then [] else t
  | none => []

/-- Makes the name of a node known where the node starts. -/
def openName (p : Properties) (s : State) : State :=
  match p.anchor with
  | some a => { s with anchors := a :: s.anchors }
  | none => s

/-- Keeps a named node that has been read. -/
def keep (p : Properties) : Node × State → Node × State := fun (n, s) =>
  match p.anchor with
  | some (_, number) => (n, { s with named := (number, n) :: s.named })
  | none => (n, s)

/-- A node that has only an anchor or a tag is empty. -/
def absent (p : Properties) (s : State) : Result :=
  if p.anchor.isSome || p.tag.isSome then
    some (keep p (.scalar (scalarTag p) [] true, s))
  else none

mutual

/-- Reads a node. Block collections are read only with `block`, and a sequence without indentation
only with `indentless`, as the value of a key. -/
def node (handles : Handles) (block indentless : Bool) : Nat → State → Result
  | 0, _ => none
  | fuel + 1, s =>
    match s.tokens with
    | .reference name :: ts => do
      let target ← s.anchors.lookup name
      return (.reference s.number name target, { s with tokens := ts })
    | _ => do
      let (p, s) ← properties handles s
      let s := openName p s
      match s.head? with
      | some .blockEntry =>
        if indentless then
          let (items, s) ← indentlessItems handles fuel s
          return keep p (.sequence items, s)
        else absent p s
      | some (.scalar text plain) => return keep p (.scalar (scalarTag p) text plain, s.skip)
      | some .flowSequenceStart =>
        let (items, s) ← flowItems handles true fuel s.skip
        return keep p (.sequence items, s)
      | some .flowMappingStart =>
        let (pairs, s) ← flowPairs handles true fuel s.skip
        return keep p (.mapping pairs, s)
      | some .blockSequenceStart =>
        if block then
          let (items, s) ← blockItems handles fuel s.skip
          return keep p (.sequence items, s)
        else absent p s
      | some .blockMappingStart =>
        if block then
          let (pairs, s) ← blockPairs handles fuel s.skip
          return keep p (.mapping pairs, s)
        else absent p s
      | _ => absent p s

/-- A node, or an empty one before the given tokens. -/
def nodeOrEmpty (handles : Handles) (block indentless : Bool) (stops : List Token) :
    Nat → State → Result
  | 0, _ => none
  | fuel + 1, s =>
    if s.sees stops then some (.empty, s) else node handles block indentless fuel s

/-- The entries of a block sequence, with its end. -/
def blockItems (handles : Handles) : Nat → State → Option (List Node × State)
  | 0, _ => none
  | fuel + 1, s =>
    match s.head? with
    | some .blockEntry => do
      let (n, s) ← nodeOrEmpty handles true false [.blockEntry, .blockEnd] fuel s.skip
      let (ns, s) ← blockItems handles fuel s
      return (n :: ns, s)
    | some .blockEnd => some ([], s.skip)
    | _ => none

/-- The entries of a sequence that is not indented more than its key. -/
def indentlessItems (handles : Handles) : Nat → State → Option (List Node × State)
  | 0, _ => none
  | fuel + 1, s =>
    match s.head? with
    | some .blockEntry => do
      let (n, s) ← nodeOrEmpty handles true false [.blockEntry, .key, .value, .blockEnd] fuel s.skip
      let (ns, s) ← indentlessItems handles fuel s
      return (n :: ns, s)
    | _ => some ([], s)

/-- The pairs of a block mapping, with its end. -/
def blockPairs (handles : Handles) : Nat → State → Option (List (Node × Node) × State)
  | 0, _ => none
  | fuel + 1, s =>
    match s.head? with
    | some .key => do
      let (k, s) ← nodeOrEmpty handles true true [.key, .value, .blockEnd] fuel s.skip
      let (v, s) ← if s.sees [.value] then
          nodeOrEmpty handles true true [.key, .value, .blockEnd] fuel s.skip
        else some (.empty, s)
      let (ps, s) ← blockPairs handles fuel s
      return ((k, v) :: ps, s)
    | some .blockEnd => some ([], s.skip)
    | _ => none

/-- The entries of a flow sequence, with its end. A pair among them is a mapping of its own. -/
def flowItems (handles : Handles) (first : Bool) : Nat → State → Option (List Node × State)
  | 0, _ => none
  | fuel + 1, s =>
    if s.sees [.flowSequenceEnd] then some ([], s.skip)
    else do
      let s ← if first then some s else if s.sees [.flowEntry] then some s.skip else none
      match s.head? with
      | some .flowSequenceEnd => return ([], s.skip)
      | some .key =>
        let (n, s) ← flowPair handles fuel s.skip
        let (ns, s) ← flowItems handles false fuel s
        return (n :: ns, s)
      | _ =>
        let (n, s) ← node handles false false fuel s
        let (ns, s) ← flowItems handles false fuel s
        return (n :: ns, s)

/-- A pair that is an entry of a flow sequence. -/
def flowPair (handles : Handles) : Nat → State → Result
  | 0, _ => none
  | fuel + 1, s => do
    let (k, s) ← if s.sees [.value, .flowEntry, .flowSequenceEnd] then some (.empty, s.skip)
      else node handles false false fuel s
    let (v, s) ← if s.sees [.value] then
        nodeOrEmpty handles false false [.flowEntry, .flowSequenceEnd] fuel s.skip
      else some (.empty, s)
    return (.mapping [(k, v)], s)

/-- The pairs of a flow mapping, with its end. -/
def flowPairs (handles : Handles) (first : Bool) : Nat → State → Option (List (Node × Node) × State)
  | 0, _ => none
  | fuel + 1, s =>
    if s.sees [.flowMappingEnd] then some ([], s.skip)
    else do
      let s ← if first then some s else if s.sees [.flowEntry] then some s.skip else none
      match s.head? with
      | some .flowMappingEnd => return ([], s.skip)
      | some .key =>
        let (k, s) ←
          nodeOrEmpty handles false false [.value, .flowEntry, .flowMappingEnd] fuel s.skip
        let (v, s) ← if s.sees [.value] then
            nodeOrEmpty handles false false [.flowEntry, .flowMappingEnd] fuel s.skip
          else some (.empty, s)
        let (ps, s) ← flowPairs handles false fuel s
        return ((k, v) :: ps, s)
      | _ =>
        let (k, s) ← node handles false false fuel s
        let (ps, s) ← flowPairs handles false fuel s
        return ((k, .empty) :: ps, s)

end

end Node

namespace Document

/-- The handles that every document knows. -/
def defaultHandles : Node.Handles :=
  [(utf8 "!", utf8 "!"), (utf8 "!!", utf8 "tag:yaml.org,2002:")]

/-- The handles of a document, and its tokens after the directives. The version may be given once,
and a handle once. -/
def directives (version : Bool) (handles : Node.Handles) :
    List Token → Option (Node.Handles × List Token)
  | .version major minor :: ts =>
    if version || major ≠ 1 || minor ≠ 1 then none
    else directives true handles ts
  | .tagDirective handle target :: ts =>
    if (handles.lookup handle).isSome then none
    else directives version ((handle, target) :: handles) ts
  | ts => some (handles, ts)

/-- The tokens that stand around documents. -/
def isBoundary : Token → Bool
  | .version _ _ | .tagDirective _ _ | .documentStart | .documentEnd | .streamEnd => true
  | _ => false

/-- The document whose root starts with the given tokens. One token has to follow it. -/
def ofContent? (handles : Node.Handles) (ts : List Token) : Option Document := do
  let (root, s) ← Node.node handles true false (4 * (ts.length + 2)) ⟨ts, [], []⟩
  if s.tokens = [] then none else return ⟨root, s.named⟩

/-- The first document, from its tokens. `some none` if there is no document. -/
def ofTokens? (ts : List Token) : Option (Option Document) :=
  match ts with
  | [] => none
  | .streamEnd :: _ => some none
  | .version _ _ :: _ | .tagDirective _ _ :: _ | .documentStart :: _ =>
    match directives false [] ts with
    | some (handles, .documentStart :: t :: ts) =>
      if isBoundary t then some (some ⟨.empty, []⟩)
      else (ofContent? (handles ++ defaultHandles) (t :: ts)).map some
    | _ => none
  | ts => (ofContent? defaultHandles ts).map some

end Document

end LuaCompact.Yaml
