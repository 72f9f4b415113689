import LuaCompact.Bracket
import Mathlib.Data.List.Infix
import Mathlib.Data.List.TakeWhile

namespace LuaCompact

/-- `text` runs up to the first `mark`: put behind `text`, the mark occurs there and nowhere
earlier. -/
def Bytes.UpToFirst (mark text : Bytes) : Prop :=
  ∀ before after, text ++ mark = before ++ mark ++ after → after = []

theorem Bytes.UpToFirst.tail {mark text : Bytes} {c : UInt8}
    (first : UpToFirst mark (c :: text)) : UpToFirst mark text := by
  intro before after h
  exact first (c :: before) after (by simp [h])

theorem Bytes.cut_of_upToFirst {mark text : Bytes} (nonempty : mark ≠ [])
    (first : UpToFirst mark text) (rest : Bytes) :
    cut mark (text ++ mark ++ rest) = some (text, rest) := by
  induction text with
  | nil =>
    obtain ⟨c, mark, rfl⟩ := List.exists_cons_of_ne_nil nonempty
    simp [cut]
  | cons c text ih =>
    have later : ¬ mark <+: c :: (text ++ mark ++ rest) := by
      intro here
      have short : mark.length ≤ (c :: (text ++ mark)).length := by simp; omega
      obtain ⟨after, h⟩ : mark <+: c :: (text ++ mark) :=
        List.prefix_of_prefix_length_le here ⟨rest, by simp⟩ short
      have empty := first [] after (by simpa using h.symm)
      have := congrArg List.length h
      simp [empty] at this
      omega
    simp only [List.cons_append, cut, List.isPrefixOf_iff_prefix, later, if_false, ih first.tail,
      Option.map_some]

theorem Bytes.upToFirst_of_cut {mark s text rest : Bytes} (found : cut mark s = some (text, rest)) :
    s = text ++ mark ++ rest ∧ UpToFirst mark text := by
  induction s generalizing text with
  | nil =>
    simp only [cut] at found
    split at found
    next empty =>
      cases Option.some.inj found
      refine ⟨by simp [empty], ?_⟩
      intro before after h
      simp_all
    next => simp at found
  | cons c s ih =>
    simp only [cut, List.isPrefixOf_iff_prefix] at found
    split at found
    next here =>
      obtain ⟨after, h⟩ := here
      simp only [Option.some.injEq, Prod.mk.injEq] at found
      obtain ⟨rfl, rfl⟩ := found
      refine ⟨by simp [← h], ?_⟩
      intro before after h
      have := congrArg List.length h
      simp at this
      exact List.eq_nil_of_length_eq_zero (by omega)
    next later =>
      obtain ⟨⟨text', rest'⟩, hcut, he⟩ := Option.map_eq_some_iff.mp found
      simp only [Prod.mk.injEq] at he
      obtain ⟨rfl, rfl⟩ := he
      obtain ⟨rfl, first⟩ := ih hcut
      refine ⟨by simp, ?_⟩
      intro before after h
      cases before with
      | nil =>
        refine absurd ⟨after ++ rest', ?_⟩ later
        calc mark ++ (after ++ rest') = ([] ++ mark ++ after) ++ rest' := by simp
          _ = c :: (text' ++ mark ++ rest') := by rw [← h]; simp
      | cons d before =>
        simp only [List.cons_append, List.cons.injEq] at h
        exact first before after h.2

theorem Bytes.cut_eq_none_iff {mark s : Bytes} (nonempty : mark ≠ []) :
    cut mark s = none ↔ ¬ mark <:+: s := by
  induction s with
  | nil => simp [cut, nonempty]
  | cons c s ih =>
    simp only [cut, List.isPrefixOf_iff_prefix, List.infix_cons_iff]
    split
    next here => simp [here]
    next later => simp [later, ih]

namespace Bracket

/-- What a long bracket spans before the text `rest`: up to the first closer of its level, or all
there is if no closer follows. -/
inductive Spans : Body → Bytes → Prop
  | closed {level text} (rest) :
    Bytes.UpToFirst (closer level) text → Spans ⟨level, text, true⟩ rest
  | unclosed {level text} : ¬ closer level <:+: text → Spans ⟨level, text, false⟩ []

theorem closer_ne_nil (level : Nat) : closer level ≠ [] := by simp [closer]

theorem length_opener (level : Nat) : (opener level).length = level + 2 := by simp [opener]

theorem Body.exists_bytes_eq_cons (body : Body) :
    ∃ tail, body.bytes = Byte.openBracket :: tail :=
  ⟨_, by simp [bytes, opener]; rfl⟩

theorem scan_of_spans {level : Nat} {text rest : Bytes} {closed : Bool}
    (spans : Spans ⟨level, text, closed⟩ rest) :
    scan level (text ++ (if closed then closer level else []) ++ rest) =
      (⟨level, text, closed⟩, rest) := by
  cases spans with
  | closed _ first =>
    simp only [scan, if_true, Bytes.cut_of_upToFirst (closer_ne_nil level) first rest]
  | unclosed absent =>
    simp [scan, (Bytes.cut_eq_none_iff (closer_ne_nil level)).mpr absent]

theorem spans_scan (level : Nat) (s : Bytes) :
    Spans (scan level s).1 (scan level s).2 ∧
      opener level ++ s = (scan level s).1.bytes ++ (scan level s).2 := by
  unfold scan
  split
  next text rest found =>
    obtain ⟨rfl, first⟩ := Bytes.upToFirst_of_cut found
    exact ⟨.closed rest first, by simp [Body.bytes]⟩
  next missing =>
    exact ⟨.unclosed ((Bytes.cut_eq_none_iff (closer_ne_nil level)).mp missing),
      by simp [Body.bytes]⟩

theorem level?_opener_append (level : Nat) (s : Bytes) :
    level? (opener level ++ s) = some level := by
  have run : ∀ b ∈ List.replicate level Byte.equals, (b == Byte.equals) = true := by
    intro b hb
    simp [List.eq_of_mem_replicate hb]
  have stop : (Byte.openBracket == Byte.equals) = false := by decide
  simp [level?, opener, List.takeWhile_append_of_pos run, List.dropWhile_append_of_pos run, stop]

theorem level?_eq_some_iff {s : Bytes} {level : Nat} :
    level? s = some level ↔ opener level <+: s := by
  constructor
  · intro h
    cases s with
    | nil => simp [level?] at h
    | cons c s =>
      simp only [level?] at h
      split at h
      next hc =>
        split at h
        next hopen =>
          obtain ⟨tail, htail⟩ := List.head?_eq_some_iff.mp hopen
          have run : s.takeWhile (· == Byte.equals) = List.replicate level Byte.equals := by
            apply List.eq_replicate_iff.mpr
            refine ⟨Option.some.inj h, ?_⟩
            intro b hb
            simpa using List.mem_takeWhile_imp hb
          refine ⟨tail, ?_⟩
          rw [← List.takeWhile_append_dropWhile (p := (· == Byte.equals)) (l := s), run, htail, hc]
          simp [opener]
        next => simp at h
      next => simp at h
  · rintro ⟨rest, rfl⟩
    exact level?_opener_append level rest

theorem level?_eq_none_iff {s : Bytes} : level? s = none ↔ ∀ level, ¬ opener level <+: s := by
  constructor
  · intro h level opens
    rw [level?_eq_some_iff.mpr opens] at h
    simp at h
  · intro h
    cases hl : level? s with
    | none => rfl
    | some level => exact absurd (level?_eq_some_iff.mp hl) (h level)

theorem read?_eq_some_iff {s rest : Bytes} {body : Body} :
    read? s = some (body, rest) ↔ Spans body rest ∧ s = body.bytes ++ rest := by
  constructor
  · intro h
    obtain ⟨level, hl, hscan⟩ := Option.map_eq_some_iff.mp h
    obtain ⟨tail, rfl⟩ := level?_eq_some_iff.mp hl
    rw [← length_opener level, List.drop_left] at hscan
    have := spans_scan level tail
    rwa [hscan] at this
  · rintro ⟨spans, rfl⟩
    obtain ⟨level, text, closed⟩ := body
    simp only [read?, Body.bytes, List.append_assoc, level?_opener_append, Option.map_some]
    rw [← length_opener level, List.drop_left, ← List.append_assoc, scan_of_spans spans]

theorem read?_eq_none_iff {s : Bytes} : read? s = none ↔ ∀ level, ¬ opener level <+: s := by
  simp [read?, level?_eq_none_iff]

end Bracket

end LuaCompact
