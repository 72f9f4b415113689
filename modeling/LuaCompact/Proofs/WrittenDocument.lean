import LuaCompact.Proofs.WrittenRun
import LuaCompact.Yaml.Node
import Mathlib

namespace LuaCompact.Yaml

/-- The node of a text in double quotes. -/
def quotedNode (cs : List Char) : Node := .scalar [] (bytesOf cs) false

namespace Node

variable {handles : Handles} {ts : List Token} {anchors : List (Bytes × Nat)}
  {named : List (Nat × Node)}

theorem flowItems_furtherTokens (items : List (List Char)) {fuel : Nat}
    (enough : items.length + 1 < fuel) :
    flowItems handles false fuel
        ⟨furtherTokens items ++ .flowSequenceEnd :: ts, anchors, named⟩ =
      some (items.map quotedNode, ⟨ts, anchors, named⟩) := by
  induction items generalizing fuel with
  | nil =>
    obtain ⟨fuel, rfl⟩ := Nat.exists_eq_succ_of_ne_zero (Nat.ne_of_gt (Nat.zero_lt_of_lt enough))
    rfl
  | cons item items ih =>
    obtain ⟨fuel, rfl⟩ : ∃ n, fuel = n + 2 := ⟨fuel - 2, by simp at enough; omega⟩
    have others : flowItems handles false (fuel + 1)
        ⟨furtherTokens items ++ .flowSequenceEnd :: ts, anchors, named⟩ = _ :=
      ih (by simpa using enough)
    exact congrArg (Option.bind · fun r => some (quotedNode item :: r.1, r.2)) others

theorem flowItems_itemTokens (items : List (List Char)) {fuel : Nat}
    (enough : items.length + 1 < fuel) :
    flowItems handles true fuel ⟨itemTokens items ++ .flowSequenceEnd :: ts, anchors, named⟩ =
      some (items.map quotedNode, ⟨ts, anchors, named⟩) := by
  obtain ⟨fuel, rfl⟩ : ∃ n, fuel = n + 2 := ⟨fuel - 2, by omega⟩
  cases items with
  | nil => rfl
  | cons item items =>
    have others : flowItems handles false (fuel + 1)
        ⟨furtherTokens items ++ .flowSequenceEnd :: ts, anchors, named⟩ = _ :=
      flowItems_furtherTokens items (by simpa using enough)
    exact congrArg (Option.bind · fun r => some (quotedNode item :: r.1, r.2)) others

theorem node_listed (block indentless : Bool) (items : List (List Char)) {fuel : Nat}
    (enough : items.length + 1 < fuel) :
    node handles block indentless (fuel + 1) ⟨.flowSequenceStart ::
        (itemTokens items ++ .flowSequenceEnd :: ts), anchors, named⟩ =
      some (.sequence (items.map quotedNode), ⟨ts, anchors, named⟩) := by
  have whole : flowItems handles true fuel
      ⟨itemTokens items ++ .flowSequenceEnd :: ts, anchors, named⟩ = _ :=
    flowItems_itemTokens items enough
  exact congrArg (Option.bind · fun r => some (Node.sequence r.1, r.2)) whole

/-- The root of an entry of one line is a mapping with one pair. -/
theorem node_entry (name : List Char) {value : Node} {fuel : Nat}
    (starts : State.sees ⟨ts, [], []⟩ [.key, .value, .blockEnd] = false)
    (reads : node handles true true (fuel + 1) ⟨ts, [], []⟩ =
      some (value, ⟨[.blockEnd, .streamEnd], [], []⟩)) :
    node handles true false (fuel + 4)
        ⟨.blockMappingStart :: .key :: quotedToken name :: .value :: ts, [], []⟩ =
      some (.mapping [(quotedNode name, value)], ⟨[.streamEnd], [], []⟩) := by
  have second : nodeOrEmpty handles true true [.key, .value, .blockEnd] (fuel + 2) ⟨ts, [], []⟩ =
      some (value, ⟨[.blockEnd, .streamEnd], [], []⟩) := by
    rw [nodeOrEmpty, starts]
    exact reads
  have pairs : blockPairs handles (fuel + 3)
      ⟨.key :: quotedToken name :: .value :: ts, [], []⟩ =
      some ([(quotedNode name, value)], ⟨[.streamEnd], [], []⟩) := by
    have read := congrArg (Option.bind · fun r =>
      (blockPairs handles (fuel + 2) r.2).bind fun q => some ((quotedNode name, r.1) :: q.1, q.2))
      second
    exact read
  exact congrArg (Option.bind · fun r => some (Node.mapping r.1, r.2)) pairs

end Node

namespace Document

variable {name : List Char}

theorem ofContent?_eq {handles : Node.Handles} {ts : List Token} {root : Node} {fuel : Nat}
    (whole : 4 * (ts.length + 2) = fuel)
    (reads : Node.node handles true false fuel ⟨ts, [], []⟩ =
      some (root, ⟨[.streamEnd], [], []⟩)) :
    ofContent? handles ts = some ⟨root, []⟩ := by
  rw [ofContent?, whole, reads]
  rfl

theorem ofTokens?_listed (items : List (List Char)) (short : (quoted name).length ≤ 1024) :
    ofTokens? (tokens (bytesOf (entry name (listed items)))) =
      some (some ⟨.mapping [(quotedNode name, .sequence (items.map quotedNode))], []⟩) := by
  have longer := length_le_itemTokens items
  obtain ⟨fuel, whole, enough⟩ : ∃ fuel, 4 * ((itemTokens items).length + 8 + 2) = fuel + 4 ∧
      items.length + 1 < fuel := ⟨4 * ((itemTokens items).length + 9), by omega, by omega⟩
  have reads : Node.node defaultHandles true true (fuel + 1) ⟨.flowSequenceStart ::
      (itemTokens items ++ [.flowSequenceEnd, .blockEnd, .streamEnd]), [], []⟩ = _ :=
    Node.node_listed true true items enough
  have content := ofContent?_eq (by rw [← whole]; simp) (Node.node_entry name rfl reads)
  rw [tokens_listed items short]
  exact congrArg (Option.map some) content

theorem ofTokens?_quoted (cs : List Char) (short : (quoted name).length ≤ 1024) :
    ofTokens? (tokens (bytesOf (entry name (quoted cs)))) =
      some (some ⟨.mapping [(quotedNode name, quotedNode cs)], []⟩) := by
  rw [tokens_quoted cs short]
  rfl

end Document

end LuaCompact.Yaml
