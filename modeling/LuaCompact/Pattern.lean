import LuaCompact.Utf8

namespace LuaCompact

/-- What one part of a file name pattern asks for. -/
inductive PatternItem where
  | byte (b : UInt8)
  | any
  | oneOf (negated : Bool) (ranges : List (Nat × Nat))
deriving DecidableEq, Repr

/-- A part of a written pattern. A fault is the place from which on it cannot be read. -/
inductive PatternPart where
  | star
  | item (i : PatternItem)
  | fault
deriving DecidableEq, Repr

/-- A run of items between stars; none if it is malformed. -/
abbrev PatternRun := Option (List PatternItem)

/-- A file name pattern: a run at the start, and runs that each follow a star. Nothing follows a
malformed run. -/
structure Pattern where
  head : PatternRun
  starred : List PatternRun
deriving DecidableEq, Repr

namespace Pattern

open Utf8

abbrev star : UInt8 := 42
abbrev question : UInt8 := 63
abbrev caret : UInt8 := 94

/-- A character of a class, which a backslash may escape. A class goes on after it. -/
def classChar? : Bytes → Option (Nat × Bytes)
  | [] => none
  | c :: s =>
    if c = Byte.dash ∨ c = Byte.closeBracket then none
    else
      match decode? (if c = Byte.backslash then s else c :: s) with
      | some (r, t) => if t = [] then none else some (r.toNat, t)
      | none => none

theorem classChar?_rest_length {s t : Bytes} {n : Nat} (read : classChar? s = some (n, t)) :
    t.length < s.length := by
  cases s with
  | nil => simp [classChar?] at read
  | cons c s =>
    simp only [classChar?] at read
    split at read
    · contradiction
    · split at read
      next decoded =>
        have h := decode?_rest_length decoded
        split at read
        · contradiction
        · simp only [Option.some.injEq, Prod.mk.injEq] at read
          obtain ⟨_, rfl⟩ := read
          split at h <;> simp at h ⊢ <;> omega
      next => contradiction

/-- One range of a class: a character, or two with a dash between them. -/
def range? (s : Bytes) : Option ((Nat × Nat) × Bytes) :=
  match classChar? s with
  | none => none
  | some (lo, t) =>
    match t with
    | [] => none
    | c :: u =>
      if c = Byte.dash then (classChar? u).map fun (hi, v) => ((lo, hi), v)
      else some ((lo, lo), t)

theorem range?_rest_length {s t : Bytes} {r : Nat × Nat} (read : range? s = some (r, t)) :
    t.length < s.length := by
  unfold range? at read
  split at read
  · contradiction
  next lo u low =>
    have h := classChar?_rest_length low
    split at read
    · contradiction
    next c v =>
      split at read
      · obtain ⟨⟨hi, w⟩, high, he⟩ := Option.map_eq_some_iff.mp read
        simp only [Prod.mk.injEq] at he
        obtain ⟨_, rfl⟩ := he
        have := classChar?_rest_length high
        simp at h
        omega
      · simp only [Option.some.injEq, Prod.mk.injEq] at read
        obtain ⟨_, rfl⟩ := read
        exact h

/-- The ranges of a class, at least one, up to the closing bracket. -/
def ranges? (s : Bytes) : Option (List (Nat × Nat) × Bytes) :=
  match _read : range? s with
  | none => none
  | some (r, t) =>
    if t.head? = some Byte.closeBracket then some ([r], t.tail)
    else (ranges? t).map fun (rs, u) => (r :: rs, u)
termination_by s.length
decreasing_by exact range?_rest_length _read

theorem ranges?_rest_length {s t : Bytes} {rs : List (Nat × Nat)}
    (read : ranges? s = some (rs, t)) : t.length < s.length := by
  fun_induction ranges? s generalizing rs t with
  | case1 => contradiction
  | case2 s r u low _ =>
    simp only [Option.some.injEq, Prod.mk.injEq] at read
    obtain ⟨_, rfl⟩ := read
    have := range?_rest_length low
    simp
    omega
  | case3 s r u low _ ih =>
    obtain ⟨⟨qs, v⟩, more, he⟩ := Option.map_eq_some_iff.mp read
    simp only [Prod.mk.injEq] at he
    obtain ⟨_, rfl⟩ := he
    have := range?_rest_length low
    have := ih more
    omega

/-- The class whose opening bracket has just been read. -/
def class? (s : Bytes) : Option (PatternItem × Bytes) :=
  let negated := s.head? = some caret
  (ranges? (if negated then s.tail else s)).map fun (rs, t) => (.oneOf negated rs, t)

theorem class?_rest_length {s t : Bytes} {i : PatternItem} (read : class? s = some (i, t)) :
    t.length < s.length := by
  obtain ⟨⟨rs, u⟩, more, he⟩ := Option.map_eq_some_iff.mp read
  simp only [Prod.mk.injEq] at he
  obtain ⟨_, rfl⟩ := he
  have h := ranges?_rest_length more
  split at h
  · simp at h; omega
  · exact h

/-- The parts of a pattern in order. A class that is empty, unclosed or ill-formed is a fault, and
so is a lone backslash at the end. -/
def parts (s : Bytes) : List PatternPart :=
  match s with
  | [] => []
  | c :: t =>
    if c = star then .star :: parts t
    else if c = question then .item .any :: parts t
    else if c = Byte.openBracket then
      match _read : class? t with
      | none => [.fault]
      | some (i, u) => .item i :: parts u
    else if c = Byte.backslash then
      match t with
      | [] => [.fault]
      | d :: u => .item (.byte d) :: parts u
    else .item (.byte c) :: parts t
termination_by s.length
decreasing_by
  · simp
  · simp
  · have := class?_rest_length _read
    simp only [List.length_cons]
    omega
  · simp only [List.length_cons]
    omega
  · simp

/-- Groups parts into the runs that stars divide. -/
def ofParts : List PatternPart → Pattern
  | [] => ⟨some [], []⟩
  | .star :: ps => ⟨some [], (ofParts ps).head :: (ofParts ps).starred⟩
  | .item i :: ps => ⟨(ofParts ps).head.map (i :: ·), (ofParts ps).starred⟩
  | .fault :: _ => ⟨none, []⟩

/-- Reads a pattern. -/
def parse (s : Bytes) : Pattern := ofParts (parts s)

/-- Whether a class holds a code point. -/
def inClass (negated : Bool) (ranges : List (Nat × Nat)) (n : Nat) : Bool :=
  (ranges.any fun (lo, hi) => lo ≤ n && n ≤ hi) != negated

/-- What is left of a text after the one item that it has to start with. -/
def matchItem (i : PatternItem) (s : Bytes) : Option Bytes :=
  match i, s with
  | _, [] => none
  | .byte b, c :: t => if b = c then some t else none
  | .any, c :: _ => if c = Byte.slash then none else (piece? s).map Prod.snd
  | .oneOf negated ranges, _ =>
    match piece? s with
    | some (p, t) => if inClass negated ranges p.code then some t else none
    | none => none

/-- What is left of a text after a run of items. -/
def matchRun : List PatternItem → Bytes → Option Bytes
  | [], s => some s
  | i :: is, s => (matchItem i s).bind (matchRun is)

/-- What is left of a text after a run of items; the last run of a pattern has to end the text. -/
def fitRun (run : List PatternItem) (last : Bool) (s : Bytes) : Option Bytes :=
  (matchRun run s).filter fun t => !last || t = []

/-- Looks for a run after as few bytes as possible, none of them a slash. -/
def skipTo (run : List PatternItem) (last : Bool) : Bytes → Option Bytes
  | [] => fitRun run last []
  | c :: s =>
    match fitRun run last (c :: s) with
    | some t => some t
    | none => if c = Byte.slash then none else skipTo run last s

/-- Matches the runs that follow stars, each where it first fits; none if that leads to a malformed
run. -/
def matchStarred? : List PatternRun → Bytes → Option Bool
  | [], s => some (s = [])
  | none :: _, _ => none
  | some run :: runs, s =>
    match skipTo run runs.isEmpty s with
    | some t => matchStarred? runs t
    | none => some false

/-- Whether a text as a whole matches a pattern; none if that leads to a malformed run. What comes
after a run that does not fit is not looked at. -/
def accepts? (p : Pattern) (s : Bytes) : Option Bool :=
  match p.head with
  | none => none
  | some run =>
    match matchRun run s with
    | some t => matchStarred? p.starred t
    | none => some false

/-- Whether a text matches a written pattern; a malformed one matches nothing. -/
def admits (pattern s : Bytes) : Bool := (parse pattern).accepts? s = some true

/-- Whether a pattern holds one of the characters that match more than themselves. -/
def hasWildcard (pattern : Bytes) : Bool :=
  pattern.any fun b => b = star || b = question || b = Byte.openBracket

/-- Whether a pattern holds a character that does not stand for itself. -/
def hasMeta (pattern : Bytes) : Bool := hasWildcard pattern || List.elem Byte.backslash pattern

end Pattern

end LuaCompact
