import LuaCompact.Proofs.WrittenDocument
import LuaCompact.Yaml.Document
import Mathlib

namespace LuaCompact.Yaml

/-- A list of steps that each keep a property of the state. -/
theorem gives_mapM {σ α β γ : Type} {f : β → StateT σ Option γ} {g : α → β} {h : α → γ}
    {holds : σ → Prop} (each : ∀ x s, holds s → Gives (f (g x)) s (h x) holds) (xs : List α)
    {s : σ} (start : holds s) : Gives ((xs.map g).mapM f) s (xs.map h) holds := by
  induction xs generalizing s with
  | nil => exact gives_pure start
  | cons x xs ih =>
    rw [List.map_cons, List.mapM_cons]
    refine (each x s start).bind fun t holds => (ih holds).bind fun u holds => ?_
    exact gives_pure holds

namespace Decoding

/-- Nothing has been decoded for an alias. -/
def NoAliases (t : Tally) : Prop := t.aliased = 0

variable {d : Document} {t : Tally}

theorem gives_count (none : NoAliases t) : Gives (count []) t () NoAliases := by
  have few : (t.add false).isExcessive = false := by
    rw [NoAliases] at none
    simp [Tally.isExcessive, Tally.add, none]
  refine gives_modify_bind (gives_get_bind ?_)
  simp only [List.isEmpty_nil, Bool.not_true, few]
  exact gives_pure none

theorem gives_value_quotedNode (fuel : Nat) (cs : List Char) (none : NoAliases t) :
    Gives (value d (fuel + 1) [] (quotedNode cs)) t (.string (bytesOf cs)) NoAliases := by
  rw [quotedNode, value]
  refine (gives_count none).bind fun u none => ?_
  exact ⟨u, rfl, none⟩

theorem gives_value_sequence (fuel : Nat) (items : List (List Char)) (none : NoAliases t) :
    Gives (value d (fuel + 2) [] (.sequence (items.map quotedNode))) t
      (.list (items.map fun cs => .string (bytesOf cs))) NoAliases := by
  rw [value]
  refine (gives_count none).bind fun u none => ?_
  have whole := gives_mapM (fun cs t none => gives_value_quotedNode (d := d) fuel cs none) items
    none
  refine whole.bind fun v none => ?_
  exact gives_pure none

theorem gives_key_quotedNode (fuel : Nat) (name : List Char) (none : NoAliases t) :
    Gives (key d true (fuel + 1) [] (quotedNode name)) t (some (.string (bytesOf name)))
      NoAliases := by
  rw [quotedNode, key]
  refine (gives_count none).bind fun u none => ?_
  exact ⟨u, rfl, none⟩

theorem not_isMerge_quotedNode (cs : List Char) : (quotedNode cs).isMerge = false := by
  have untagged : Value.tagName? [] = none := by decide
  simp [quotedNode, Node.isMerge, untagged]

/-- A mapping of one pair has the value of the pair under the key of the pair. -/
theorem gives_entries {n : Node} {v : Value} {fuel : Nat} {name : List Char}
    (reads : ∀ t, NoAliases t → Gives (value d (fuel + 1) [] n) t v NoAliases)
    (none : NoAliases t) :
    Gives (entries d true (fuel + 2) [] .none [] [(quotedNode name, n)]) t
      ([(.string (bytesOf name), v)], .none) NoAliases := by
  have distinct : Node.keysDistinct [(quotedNode name, n)] = true := rfl
  rw [entries, if_pos distinct]
  simp only [List.foldlM_cons, List.foldlM_nil, List.find?_cons, List.find?_nil,
    not_isMerge_quotedNode, Bool.false_eq_true, ↓reduceIte, Option.any_none]
  refine Gives.bind (a := ([(.string (bytesOf name), v)], .none)) ?_
    fun u (none : NoAliases u) => gives_pure none
  refine Gives.bind (a := ([(.string (bytesOf name), v)], .none)) ?_
    fun u (none : NoAliases u) => gives_pure none
  refine (gives_key_quotedNode fuel name none).bind fun u none => ?_
  exact (reads u none).bind fun w none => gives_pure none

end Decoding

theorem foldCase_strings (texts : List Bytes) :
    (Value.list (texts.map .string)).foldCase = .list (texts.map .string) := by
  have same : Value.foldCaseList (texts.map .string) = texts.map .string := by
    induction texts with
    | nil => rfl
    | cons text texts ih => exact congrArg (_ :: ·) ih
  rw [Value.foldCase, same]

variable {name : List Char}

theorem entries?_pair {n : Node} {v : Value} (size : Nat)
    (reads : ∀ fuel d t, Decoding.NoAliases t →
      Gives (Decoding.value d (fuel + 2) [] n) t v Decoding.NoAliases) :
    Document.entries? ⟨.mapping [(quotedNode name, n)], []⟩ size =
      some [(.string (bytesOf name), v)] := by
  have deep : 3 ≤ 4 * (size + 2) * (size + 2) :=
    Nat.le_trans (by omega) (Nat.le_mul_of_pos_right (4 * (size + 2)) (by omega))
  obtain ⟨fuel, whole⟩ := Nat.exists_eq_add_of_le' deep
  have steps : Gives (do
      Decoding.count []
      Decoding.count []
      Decoding.entries ⟨.mapping [(quotedNode name, n)], []⟩ true (fuel + 3) [] .none []
        [(quotedNode name, n)]) Tally.zero
      ([(.string (bytesOf name), v)], .none) Decoding.NoAliases :=
    Gives.bind (Decoding.gives_count rfl) fun t none =>
      (Decoding.gives_count none).bind fun u none => Decoding.gives_entries (reads fuel _) none
  obtain ⟨t, done, -⟩ := steps
  rw [Document.entries?]
  simp only [whole]
  rw [done]
  rfl

/-- The setting that a mapping of one pair amounts to. -/
theorem settings?_pair {text : Bytes} {n : Node} {v : Value}
    (document : Document.ofTokens? (tokens text) =
      some (some ⟨.mapping [(quotedNode name, n)], []⟩))
    (reads : ∀ fuel d t, Decoding.NoAliases t →
      Gives (Decoding.value d (fuel + 2) [] n) t v Decoding.NoAliases)
    (same : v.foldCase = v) :
    settings? text = some [(Unicode.lowerCase (bytesOf name), v)] := by
  have lower : Value.lowerKeys [(bytesOf name, v)] = [(Unicode.lowerCase (bytesOf name), v)] := by
    rw [Value.lowerKeys, List.partition_eq_filter_filter]
    by_cases low : Unicode.lowerCase (bytesOf name) = bytesOf name <;> simp [low, Value.insertKey]
  rw [settings?, document]
  simp only [Option.bind_eq_bind, Option.bind_some, entries?_pair _ reads]
  simp [Value.foldCasePairs, same, Value.text, lower]

/-- A line with a list in brackets is read as a setting with this list. -/
theorem settings?_listed (items : List (List Char)) (short : (quoted name).length ≤ 1024) :
    settings? (bytesOf (entry name (listed items))) =
      some [(Unicode.lowerCase (bytesOf name), .list ((items.map bytesOf).map .string))] := by
  refine settings?_pair (Document.ofTokens?_listed items short) (fun fuel d t none => ?_)
    (foldCase_strings _)
  rw [List.map_map]
  exact Decoding.gives_value_sequence fuel items none

/-- A line with a text in double quotes is read as a setting with this text. -/
theorem settings?_quoted (cs : List Char) (short : (quoted name).length ≤ 1024) :
    settings? (bytesOf (entry name (quoted cs))) =
      some [(Unicode.lowerCase (bytesOf name), .string (bytesOf cs))] :=
  settings?_pair (Document.ofTokens?_quoted cs short)
    (fun fuel _ _ none => Decoding.gives_value_quotedNode (fuel + 1) cs none) rfl

end LuaCompact.Yaml
