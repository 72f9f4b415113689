import LuaCompact.Utf8
import LuaCompact.Unicode.Ranges

namespace LuaCompact.Terminal

open Utf8 Unicode

/-- The part that a code point plays where characters join into one visible cluster. -/
inductive Role where
  | other
  | cr
  | lf
  | control
  | extend
  | joiner
  | spacingMark
  | prepend
  | leading
  | vowel
  | trailing
  | syllable
  | closedSyllable
  | regional
  | pictograph
deriving DecidableEq, Repr

/-- The role of a code point. -/
def roleOf (n : Nat) : Role :=
  if n = 13 then .cr
  else if n = 10 then .lf
  else if inRanges controls n then .control
  else if n < 0x300 then if inRanges pictographs n then .pictograph else .other
  else if n = 0x200D then .joiner
  else if inRanges extenders n then .extend
  else if 0x1F1E6 ≤ n && n ≤ 0x1F1FF then .regional
  else if (0x1100 ≤ n && n ≤ 0x115F) || (0xA960 ≤ n && n ≤ 0xA97C) then .leading
  else if (0x1160 ≤ n && n ≤ 0x11A7) || (0xD7B0 ≤ n && n ≤ 0xD7C6) then .vowel
  else if (0x11A8 ≤ n && n ≤ 0x11FF) || (0xD7CB ≤ n && n ≤ 0xD7FB) then .trailing
  else if 0xAC00 ≤ n && n ≤ 0xD7A3 then
    if (n - 0xAC00) % 28 = 0 then .syllable else .closedSyllable
  else if inRanges spacingMarks n then .spacingMark
  else if inRanges prepended n then .prepend
  else if inRanges pictographs n then .pictograph
  else .other

/-- What the characters read so far allow to follow inside the same cluster. -/
inductive Bond where
  | plain
  | afterCr
  | afterControl
  | leading
  | vowel
  | trailing
  | prepend
  | pictograph
  | joinedPictograph
  | oddRegional
  | evenRegional
deriving DecidableEq, Repr

/-- The bond after a character that starts a cluster. -/
def Bond.start : Role → Bond
  | .cr => afterCr
  | .lf | .control => afterControl
  | .leading => leading
  | .vowel | .syllable => vowel
  | .trailing | .closedSyllable => trailing
  | .prepend => prepend
  | .pictograph => pictograph
  | .regional => oddRegional
  | _ => plain

/-- The bond after one more character of the same cluster; none if a new cluster starts. -/
def Bond.extend? : Bond → Role → Option Bond
  | afterCr, .lf => some afterControl
  | afterCr, _ => none
  | afterControl, _ => none
  | _, .cr => none
  | _, .lf => none
  | _, .control => none
  | leading, .leading => some leading
  | leading, .vowel => some vowel
  | leading, .syllable => some vowel
  | leading, .closedSyllable => some trailing
  | vowel, .vowel => some vowel
  | vowel, .trailing => some trailing
  | trailing, .trailing => some trailing
  | pictograph, .extend => some pictograph
  | pictograph, .joiner => some joinedPictograph
  | joinedPictograph, .pictograph => some pictograph
  | _, .extend => some plain
  | _, .joiner => some plain
  | _, .spacingMark => some plain
  | prepend, role => some (start role)
  | oddRegional, .regional => some evenRegional
  | _, _ => none

/-- The cells that a code point fills. -/
def cells (n : Nat) (role : Role) : Nat :=
  match role with
  | .control | .cr | .lf | .extend | .joiner => 0
  | .regional => 2
  | .pictograph => if inRanges emoji n then 2 else 1
  | _ =>
    if n = 0x2E3A then 3
    else if n = 0x2E3B then 4
    else if inRanges wide n then 2
    else 1

/-- The cells of a cluster with one more character. Flags and leading consonants take up what
their first character does, and a pictograph what its last selector asks for. -/
def growCells (first : Role) (n : Nat) (role : Role) (width : Nat) : Nat :=
  match first with
  | .pictograph => if n = 0xFE0E then 1 else if n = 0xFE0F then 2 else width
  | .regional | .leading => width
  | _ => width + cells n role

theorem piece?_rest_length {s t : Bytes} {p : Piece} (read : piece? s = some (p, t)) :
    t.length < s.length := by
  cases s with
  | nil => simp [piece?] at read
  | cons b s =>
    simp only [piece?] at read
    split at read
    next c r decoded =>
      simp only [Option.some.injEq, Prod.mk.injEq] at read
      obtain ⟨_, rfl⟩ := read
      exact decode?_rest_length decoded
    next =>
      simp only [Option.some.injEq, Prod.mk.injEq] at read
      obtain ⟨_, rfl⟩ := read
      simp

/-- Reads the rest of a cluster and adds up its cells. -/
def clusterRest (first : Role) (bond : Bond) (width : Nat) (s : Bytes) : Nat × Bytes :=
  match _read : piece? s with
  | none => (width, s)
  | some (p, t) =>
    match bond.extend? (roleOf p.code) with
    | none => (width, s)
    | some bond => clusterRest first bond (growCells first p.code (roleOf p.code) width) t
termination_by s.length
decreasing_by exact piece?_rest_length _read

theorem clusterRest_length (first : Role) (bond : Bond) (width : Nat) (s : Bytes) :
    (clusterRest first bond width s).2.length ≤ s.length := by
  fun_induction clusterRest first bond width s with
  | case1 => simp
  | case2 => simp
  | case3 bond width s p t read _ _ ih =>
    have := piece?_rest_length read
    omega

/-- The cells of the first cluster of a text, and the rest. -/
def cluster (s : Bytes) : Nat × Bytes :=
  match piece? s with
  | none => (0, [])
  | some (p, t) =>
    let role := roleOf p.code
    clusterRest role (.start role) (cells p.code role) t

/-- A cluster takes at least one byte. -/
theorem cluster_rest_length (b : UInt8) (s : Bytes) :
    (cluster (b :: s)).2.length < s.length + 1 := by
  unfold cluster
  split
  · simp
  next p t read =>
    have := piece?_rest_length read
    have := clusterRest_length (roleOf p.code) (.start (roleOf p.code))
      (cells p.code (roleOf p.code)) t
    simp at *
    omega

end LuaCompact.Terminal
