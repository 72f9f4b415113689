import LuaCompact.Segment

namespace LuaCompact

theorem length_dropWhile_le {α : Type} (p : α → Bool) (s : List α) :
    (s.dropWhile p).length ≤ s.length :=
  (List.dropWhile_suffix p).length_le

namespace Gap

/-- What a run of white space comes to: a line feed if it crosses a line, a space if not. -/
def collapsed (run : Bytes) : UInt8 :=
  if run.any fun b => b = Byte.lf || b = Byte.cr then Byte.lf else Byte.space

/-- Turns each run of white space into one byte. -/
def collapse (s : Bytes) : Bytes :=
  match s with
  | [] => []
  | c :: t =>
    if isGap c then collapsed (c :: t.takeWhile isGap) :: collapse (t.dropWhile isGap)
    else c :: collapse t
termination_by s.length
decreasing_by
  · exact Nat.lt_succ_of_le (length_dropWhile_le isGap t)
  · simp

/-- Drops the white space after every semicolon. -/
def tightenSemicolons (s : Bytes) : Bytes :=
  match s with
  | [] => []
  | c :: t =>
    if c = Byte.semicolon then c :: tightenSemicolons (t.dropWhile isGap)
    else c :: tightenSemicolons t
termination_by s.length
decreasing_by
  · exact Nat.lt_succ_of_le (length_dropWhile_le isGap t)
  · simp

/-- The operators and parentheses that stand without spaces. -/
def isOperator (b : UInt8) : Bool := List.elem b (utf8 "=+-*/<>()")

/-- The white space inside a line. -/
def isInline (b : UInt8) : Bool := b = Byte.space || b = Byte.tab

/-- What stays of the space after an operator: two minus signs keep one space between them, so
that they never read as a comment. -/
def afterOperator (op : UInt8) (s : Bytes) : Bytes :=
  if op = Byte.dash ∧ s.head?.any isInline ∧ (s.dropWhile isInline).head? = some Byte.dash then
    [Byte.space]
  else []

/-- Drops the spaces and tabs around operators and parentheses. -/
def tightenOperators (s : Bytes) : Bytes :=
  match s with
  | [] => []
  | c :: t =>
    if isOperator c then
      c :: (afterOperator c t ++ tightenOperators (t.dropWhile isInline))
    else if isInline c && (t.dropWhile isInline).head?.any isOperator then
      tightenOperators (t.dropWhile isInline)
    else c :: tightenOperators t
termination_by s.length
decreasing_by
  · exact Nat.lt_succ_of_le (length_dropWhile_le isInline t)
  · exact Nat.lt_succ_of_le (length_dropWhile_le isInline t)
  · simp

/-- Leaves one line feed after every semicolon and every line feed, and no other white space. -/
def breakStatements (s : Bytes) : Bytes :=
  match s with
  | [] => []
  | c :: t =>
    if c = Byte.semicolon then c :: Byte.lf :: breakStatements (t.dropWhile isGap)
    else if c = Byte.lf then c :: breakStatements (t.dropWhile isGap)
    else c :: breakStatements t
termination_by s.length
decreasing_by
  · exact Nat.lt_succ_of_le (length_dropWhile_le isGap t)
  · exact Nat.lt_succ_of_le (length_dropWhile_le isGap t)
  · simp

/-- The rules for white space, in the order in which they run. -/
def rules : List (Bytes → Bytes) :=
  [collapse, tightenSemicolons, tightenOperators, breakStatements]

/-- All rules, one after the other. -/
def tighten (s : Bytes) : Bytes := rules.foldl (fun t rule => rule t) s

/-- Tightens the code of a list of segments; `first` tells whether the list starts the text. The
two ends of the text are trimmed where they are code. -/
def normalizeFrom (first : Bool) : List Segment → Bytes
  | [] => []
  | .literal t :: segs => t ++ normalizeFrom false segs
  | .code t :: segs =>
    let body := tighten t
    let body := if first then trimStart body else body
    let body := if segs.isEmpty then trimEnd body else body
    body ++ normalizeFrom false segs

/-- The text of comment-free source with its white space brought to a minimum. -/
def normalize (segs : List Segment) : Bytes := normalizeFrom true segs

end Gap

end LuaCompact
