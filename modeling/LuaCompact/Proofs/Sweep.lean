import LuaCompact.Proofs.Atom
import LuaCompact.Proofs.Offsets

namespace LuaCompact

namespace Sweep

/-- What the sweep is in the middle of. -/
inductive Mode where
  | code
  | lineComment
  | blockComment
  | shortString
  | longString
deriving DecidableEq, Repr

/-- Whether a literal has been opened. -/
def Mode.isLiteral : Mode → Bool
  | shortString | longString => true
  | code | lineComment | blockComment => false

/-- What the sweep gives out. -/
inductive Part where
  | code (text : Bytes)
  | literal (span : Span)
deriving DecidableEq, Repr

namespace Part

/-- The offsets of a literal. -/
def span? : Part → Option Span
  | code _ => none
  | literal span => some span

/-- A part with its text. -/
def segment (src : Bytes) : Part → Segment
  | code t => .code t
  | literal span => .literal (between src span.start span.stop)

end Part

/-- One sweep over a text: where it stands and what it has there, the code gathered since the last
literal, and the parts given out. `level` belongs to the last long bracket, `quote` to the last
short string, `start` to the last literal. -/
structure State where
  pos : Nat := 0
  mode : Mode := .code
  level : Nat := 0
  quote : UInt8 := 0
  start : Nat := 0
  code : Bytes := []
  parts : List Part := []
deriving DecidableEq, Repr

namespace State

/-- Gives out the code gathered so far. -/
def flush (st : State) : State :=
  if st.code = [] then st else { st with code := [], parts := st.parts ++ [.code st.code] }

/-- Gives out a literal. -/
def emit (src : Bytes) (start stop : Nat) (st : State) : Checked State := do
  let _ ← slice src start stop
  .ok { st with parts := st.parts ++ [.literal ⟨start, stop⟩] }

/-- Gives out the literal that ends here. -/
def close (src : Bytes) (st : State) : Checked State := do
  let st ← st.emit src st.start st.pos
  .ok { st with mode := .code }

/-- Takes one byte of code. -/
def take (c : UInt8) (st : State) : State := { st with code := st.code ++ [c], pos := st.pos + 1 }

end State

/-- A turn in code: takes a byte, or finds that a comment or a literal starts. -/
def readCode (src : Bytes) (st : State) : Checked State := do
  let c ← read src st.pos
  let tail ← slice src st.pos src.length
  if Token.commentMark.isPrefixOf tail then do
    let offset := st.pos + Token.commentMark.length
    match ← levelAt src offset with
    | some level => .ok { st with level, pos := offset + (level + 2), mode := .blockComment }
    | none => .ok { st with pos := offset, mode := .lineComment }
  else if Token.isQuote c then
    .ok { st.flush with start := st.pos, quote := c, pos := st.pos + 1, mode := .shortString }
  else if c = Byte.openBracket then do
    match ← levelAt src st.pos with
    | some level =>
      .ok { st.flush with start := st.pos, level, pos := st.pos + (level + 2), mode := .longString }
    | none => .ok (st.take c)
  else .ok (st.take c)

/-- A turn in a line comment: goes to the end of the line. -/
def skipLine (src : Bytes) (st : State) : Checked State := do
  let tail ← slice src st.pos src.length
  match index? [Byte.lf] tail with
  | some i => .ok { st with pos := st.pos + i, mode := .code }
  | none => .ok { st with pos := src.length, mode := .code }

/-- A turn in a block comment: goes behind its closer and leaves a separator, or goes to the end. -/
def skipBlock (src : Bytes) (st : State) : Checked State := do
  let tail ← slice src st.pos src.length
  match index? (Bracket.closer st.level) tail with
  | some i => do
    let body ← slice src st.pos (st.pos + i)
    let left := if Byte.lf ∈ body then Byte.lf else Byte.space
    .ok { st with
      code := st.code ++ [left], pos := st.pos + (i + (Bracket.closer st.level).length),
      mode := .code }
  | none => .ok { st with pos := src.length, mode := .code }

/-- A turn in a short string: goes to where it stops, which is within the text. -/
def readQuoted (src : Bytes) (st : State) : Checked State := do
  let (stop, ended) ← quotedFrom src st.quote st.pos
  State.close src { st with pos := if ended then stop else src.length }

/-- A turn in a long string: goes behind its closer, or to the end. -/
def readLong (src : Bytes) (st : State) : Checked State := do
  let tail ← slice src st.pos src.length
  match index? (Bracket.closer st.level) tail with
  | some i => State.close src { st with pos := st.pos + (i + (Bracket.closer st.level).length) }
  | none => State.close src { st with pos := src.length }

/-- One turn of the sweep. -/
def turn (src : Bytes) (st : State) : Checked State :=
  match st.mode with
  | .code => readCode src st
  | .lineComment => skipLine src st
  | .blockComment => skipBlock src st
  | .shortString => readQuoted src st
  | .longString => readLong src st

/-- The state in which the sweep starts: behind the first line if that is a shebang. -/
def begin (src : Bytes) : Checked State :=
  if Token.shebangMark.isPrefixOf src then do
    let stop := (index? [Byte.lf] src).getD src.length
    let st ← State.emit src 0 stop {}
    .ok { st with pos := stop }
  else .ok {}

/-- The parts when the sweep is over: a literal that has only been opened ends here. -/
def finish (src : Bytes) (st : State) : Checked (List Part) := do
  let st ← if st.mode.isLiteral then st.close src else .ok st
  .ok st.flush.parts

/-- The turns from one state to another, where the whole text has been read. -/
inductive Runs (src : Bytes) : Nat → State → State → Prop
  | beyond {st} : src.length ≤ st.pos → Runs src 0 st st
  | turn {n st next last} : st.pos < src.length → turn src st = .ok next → Runs src n next last →
    Runs src (n + 1) st last

variable {src : Bytes}

/-- The offset that no literal given out has passed. -/
def State.free (st : State) : Nat := if st.mode.isLiteral then st.start else st.pos

/-- Literals given out, one after the other and all of them before an offset. -/
structure InOrder (limit : Nat) (spans : List Span) : Prop where
  within : ∀ span ∈ spans, span.start ≤ span.stop ∧ span.stop ≤ limit
  apart : spans.Pairwise fun a b => a.stop ≤ b.start

/-- What holds from turn to turn. -/
structure State.Sound (src : Bytes) (st : State) : Prop where
  inside : st.pos ≤ src.length
  opened : st.mode.isLiteral → st.start ≤ st.pos ∧ st.code = []
  order : InOrder st.free (st.parts.filterMap Part.span?)

/-- The segments that are still to come. -/
def State.ahead (src : Bytes) (st : State) : List Segment :=
  let tail := src.drop st.pos
  match st.mode with
  | .code => Segment.consCode st.code (Segment.ofTokens (Token.scan tail))
  | .lineComment =>
    Segment.consCode st.code (Segment.ofTokens (Token.scan (tail.dropWhile (· != Byte.lf))))
  | .blockComment =>
    let (body, rest) := Bracket.scan st.level tail
    Segment.consCode (st.code ++ Segment.separator body) (Segment.ofTokens (Token.scan rest))
  | .shortString =>
    let (text, rest) := Token.quoted st.quote tail
    .literal (between src st.start st.pos ++ text) :: Segment.ofTokens (Token.scan rest)
  | .longString =>
    let (body, rest) := Bracket.scan st.level tail
    .literal (between src st.start st.pos ++ body.text ++
      if body.closed then Bracket.closer st.level else []) :: Segment.ofTokens (Token.scan rest)

/-- All segments, those given out and those still to come. -/
def State.segments (src : Bytes) (st : State) : List Segment :=
  st.parts.map (Part.segment src) ++ st.ahead src

/-- How much the sweep has before it. A turn may leave the offset and change the mode alone. -/
def State.left (src : Bytes) (st : State) : Nat :=
  2 * (src.length - st.pos) + if st.mode = .code then 0 else 1

/-- What a turn does: it keeps the state sound and the segments the same, and leaves less to do. -/
structure Advances (src : Bytes) (st next : State) : Prop where
  sound : next.Sound src
  same : next.segments src = st.segments src
  less : next.left src < st.left src

theorem InOrder.mono {limit limit' : Nat} {spans : List Span} (order : InOrder limit spans)
    (le : limit ≤ limit') : InOrder limit' spans :=
  ⟨fun span mem => ⟨(order.within span mem).1, (order.within span mem).2.trans le⟩, order.apart⟩

theorem InOrder.concat {limit stop : Nat} {spans : List Span} (order : InOrder limit spans)
    (le : limit ≤ stop) : InOrder stop (spans ++ [⟨limit, stop⟩]) := by
  refine ⟨?_, ?_⟩
  · intro span mem
    rcases List.mem_append.mp mem with mem | mem
    · exact (order.mono le).within span mem
    · rw [List.mem_singleton.mp mem]
      exact ⟨le, Nat.le_refl stop⟩
  · refine List.pairwise_append.mpr ⟨order.apart, List.pairwise_singleton _ _, ?_⟩
    intro span mem last hlast
    rw [List.mem_singleton.mp hlast]
    exact (order.within span mem).2

@[simp] theorem State.flush_pos (st : State) : st.flush.pos = st.pos := by
  unfold flush; split <;> rfl

@[simp] theorem State.flush_mode (st : State) : st.flush.mode = st.mode := by
  unfold flush; split <;> rfl

@[simp] theorem State.flush_code (st : State) : st.flush.code = [] := by
  unfold flush; split <;> simp_all

@[simp] theorem State.filterMap_flush (st : State) :
    st.flush.parts.filterMap Part.span? = st.parts.filterMap Part.span? := by
  unfold flush; split <;> simp [Part.span?]

/-- What is given out and the code gathered, before a literal or the end. -/
theorem State.map_flush (st : State) {segs : List Segment}
    (start : segs = [] ∨ ∃ t rest, segs = .literal t :: rest) :
    st.flush.parts.map (Part.segment src) ++ segs =
      st.parts.map (Part.segment src) ++ Segment.consCode st.code segs := by
  unfold flush
  rcases start with rfl | ⟨t, rest, rfl⟩
  · split
    next empty => simp [Segment.consCode, empty]
    next nonempty => simp [Segment.consCode, nonempty, Part.segment]
  · split
    next empty => simp [Segment.consCode, empty]
    next nonempty => simp [Segment.consCode, nonempty, Part.segment]

/-- A literal is closed at an offset in the text. -/
theorem State.close_eq {st : State} (order : st.start ≤ st.pos) (inside : st.pos ≤ src.length) :
    st.close src =
      .ok { st with parts := st.parts ++ [.literal ⟨st.start, st.pos⟩], mode := .code } := by
  rw [close, emit, slice_of_le order inside]
  rfl

theorem State.free_eq_pos {st : State} (closed : st.mode.isLiteral = false) : st.free = st.pos :=
  if_neg (by simp [closed])

/-- A turn outside of literals that gives out nothing. -/
theorem advances_of_parts_eq {st next : State} (sound : st.Sound src)
    (before : st.mode.isLiteral = false) (after : next.mode.isLiteral = false)
    (on : st.pos ≤ next.pos) (within : next.pos ≤ src.length) (parts : next.parts = st.parts)
    (same : next.ahead src = st.ahead src) (less : next.left src < st.left src) :
    Advances src st next := by
  refine ⟨⟨within, by simp [after], ?_⟩, ?_, less⟩
  · rw [parts]
    refine sound.order.mono ?_
    rwa [State.free_eq_pos before, State.free_eq_pos after]
  · rw [State.segments, State.segments, parts, same]

theorem advances_skipLine {st : State} (sound : st.Sound src) (mode : st.mode = .lineComment) :
    ∃ next, skipLine src st = .ok next ∧ Advances src st next := by
  have whole : src.drop st.pos = (src.drop st.pos).takeWhile (· != Byte.lf) ++
      (src.drop st.pos).dropWhile (· != Byte.lf) := List.takeWhile_append_dropWhile.symm
  have within := le_length_of_drop sound.inside whole
  have line := getD_index?_lf (src.drop st.pos)
  refine ⟨{ st with
    pos := st.pos + ((src.drop st.pos).takeWhile (· != Byte.lf)).length, mode := .code }, ?_, ?_⟩
  · rw [skipLine, slice_tail sound.inside, ← line]
    simp only [bind, Except.bind]
    split
    next i found => rw [found]; rfl
    next missing => rw [missing, Option.getD_none, add_length_drop sound.inside]
  · refine advances_of_parts_eq sound (by rw [mode]; rfl) rfl (by simp) within rfl ?_ ?_
    · simp only [State.ahead, mode, drop_of_drop whole]
    · simp only [State.left, mode, if_true, reduceCtorEq, if_false]
      omega

theorem advances_skipBlock {st : State} (sound : st.Sound src) (mode : st.mode = .blockComment) :
    ∃ next, skipBlock src st = .ok next ∧ Advances src st next := by
  have inside := sound.inside
  have before : st.mode.isLiteral = false := by rw [mode]; rfl
  rw [skipBlock, slice_tail inside]
  simp only [bind, Except.bind]
  split
  next i found =>
    obtain ⟨text, rest, scanned, rfl, whole⟩ := scan_of_index?_eq_some found
    have body : slice src st.pos (st.pos + text.length) = .ok text := by
      rw [slice_of_le (by omega) (le_length_of_drop inside whole),
        between_add (Nat.le_refl _) inside whole, between_self, List.nil_append]
    rw [← List.append_assoc] at whole
    have behind := drop_of_drop whole
    have within := le_length_of_drop inside whole
    rw [List.length_append] at behind within
    rw [body]
    refine ⟨_, rfl, advances_of_parts_eq sound before rfl (by simp) within rfl ?_ ?_⟩
    · simp only [State.ahead, mode, scanned, behind, Segment.separator, if_true]
      split <;> rfl
    · simp only [State.left, mode, if_true, reduceCtorEq, if_false]
      omega
  next missing =>
    have scanned := scan_of_index?_eq_none missing
    refine ⟨_, rfl, advances_of_parts_eq sound before rfl inside (Nat.le_refl _) rfl ?_ ?_⟩
    · simp [State.ahead, mode, scanned, Segment.separator]
    · simp only [State.left, mode, if_true, reduceCtorEq, if_false]
      omega

/-- A literal that is closed as far as it has been read. -/
theorem advances_close {st : State} (sound : st.Sound src) (opened : st.mode.isLiteral)
    {text rest : Bytes} (whole : src.drop st.pos = text ++ rest)
    (ahead : st.ahead src = .literal (between src st.start st.pos ++ text) ::
      Segment.ofTokens (Token.scan rest)) :
    ∃ next, State.close src { st with pos := st.pos + text.length } = .ok next ∧
      Advances src st next := by
  obtain ⟨inside, begun, order⟩ := sound
  obtain ⟨started, bare⟩ := begun opened
  have free : st.free = st.start := if_pos opened
  have within := le_length_of_drop inside whole
  have literal := between_add started inside whole
  have busy : st.mode ≠ .code := by
    rintro code
    simp [code, Mode.isLiteral] at opened
  refine ⟨_, State.close_eq (by simp; omega) within, ⟨within, by simp [Mode.isLiteral], ?_⟩, ?_, ?_⟩
  · rw [free] at order
    have placed := order.concat (show st.start ≤ st.pos + text.length by omega)
    simpa [State.free, Mode.isLiteral, Part.span?] using placed
  · rw [State.segments, State.segments, ahead]
    simp only [State.ahead, drop_of_drop whole, bare, List.map_append, List.map_cons, List.map_nil,
      Part.segment, literal, Segment.consCode_nil]
    simp
  · simp only [State.left, busy, if_true, if_false]
    omega

theorem advances_readQuoted {st : State} (sound : st.Sound src) (mode : st.mode = .shortString) :
    ∃ next, readQuoted src st = .ok next ∧ Advances src st next := by
  obtain ⟨stop, ended, run, same⟩ := quotedFrom_eq st.quote sound.inside rfl
  have whole := (Token.quoted_quoted st.quote (src.drop st.pos)).2
  obtain ⟨next, closed, advances⟩ := advances_close sound (by rw [mode]; rfl) whole
    (by simp only [State.ahead, mode])
  refine ⟨next, ?_, advances⟩
  rw [readQuoted, run]
  simp only [bind, Except.bind, same, closed]

theorem advances_readLong {st : State} (sound : st.Sound src) (mode : st.mode = .longString) :
    ∃ next, readLong src st = .ok next ∧ Advances src st next := by
  have opened : st.mode.isLiteral := by rw [mode]; rfl
  rw [readLong, slice_tail sound.inside]
  simp only [bind, Except.bind]
  split
  next i found =>
    obtain ⟨text, rest, scanned, rfl, whole⟩ := scan_of_index?_eq_some found
    rw [← List.append_assoc] at whole
    have closed := advances_close sound opened whole (by simp [State.ahead, mode, scanned])
    rwa [List.length_append] at closed
  next missing =>
    have scanned := scan_of_index?_eq_none missing
    have closed := advances_close sound opened (List.append_nil (src.drop st.pos)).symm
      (by simp [State.ahead, mode, scanned])
    rwa [add_length_drop sound.inside] at closed

/-- A byte of code is taken. -/
theorem advances_take {st : State} (sound : st.Sound src) (mode : st.mode = .code) {c : UInt8}
    {s : Bytes} (rest : src.drop st.pos = c :: s)
    (next : Token.next c s = (Token.code c, s)) : Advances src st (st.take c) := by
  obtain ⟨inside, here, later⟩ := read_of_drop rest
  have closed : st.mode.isLiteral = false := by rw [mode]; rfl
  refine advances_of_parts_eq sound closed closed (by simp [State.take]) inside rfl ?_ ?_
  · simp only [State.ahead, State.take, mode, rest, later]
    rw [Token.scan, next]
    simp [Segment.ofTokens, Segment.consCode_consCode]
  · simp only [State.left, State.take, mode, if_true]
    omega

theorem State.exists_ahead_eq {st : State} (opened : st.mode.isLiteral) :
    ∃ t rest, st.ahead src = .literal t :: rest := by
  cases mode : st.mode with
  | code | lineComment | blockComment => simp [mode, Mode.isLiteral] at opened
  | shortString | longString => exact ⟨_, _, by simp only [State.ahead, mode]; rfl⟩

/-- A literal is opened behind the code gathered so far. -/
theorem advances_open {st next : State} (sound : st.Sound src) (mode : st.mode = .code)
    (opened : next.mode.isLiteral) (start : next.start = st.pos) (further : st.pos < next.pos)
    (within : next.pos ≤ src.length) (bare : next.code = []) (parts : next.parts = st.flush.parts)
    (same : next.ahead src = Segment.ofTokens (Token.scan (src.drop st.pos))) :
    Advances src st next := by
  have free : st.free = st.pos := State.free_eq_pos (by rw [mode]; rfl)
  refine ⟨⟨within, fun _ => ⟨by omega, bare⟩, ?_⟩, ?_, ?_⟩
  · rw [parts, State.filterMap_flush, State.free, if_pos opened, start, ← free]
    exact sound.order
  · rw [State.segments, parts, State.map_flush st (.inr (State.exists_ahead_eq opened)), same]
    simp only [State.segments, State.ahead, mode]
  · simp only [State.left, mode, if_true]
    split <;> omega

/-- A comment is opened behind the code gathered so far. -/
theorem advances_comment {st next : State} (sound : st.Sound src) (mode : st.mode = .code)
    (opened : next.mode.isLiteral = false) (further : st.pos < next.pos)
    (within : next.pos ≤ src.length) (parts : next.parts = st.parts)
    (same : next.ahead src = st.ahead src) : Advances src st next := by
  have before : st.mode.isLiteral = false := by rw [mode]; rfl
  refine advances_of_parts_eq sound before opened (Nat.le_of_lt further) within parts same ?_
  simp only [State.left, mode, if_true]
  split <;> omega

/-- Behind a long bracket that opens at an offset the text goes on. -/
theorem drop_of_level? {offset level : Nat} (inside : offset ≤ src.length)
    (found : Bracket.level? (src.drop offset) = some level) :
    offset + (level + 2) ≤ src.length ∧
      src.drop (offset + (level + 2)) = (src.drop offset).drop (level + 2) ∧
      src.drop offset = Bracket.opener level ++ (src.drop offset).drop (level + 2) := by
  obtain ⟨tail, whole⟩ := Bracket.level?_eq_some_iff.mp found
  have length := Bracket.length_opener level
  have within := le_length_of_drop inside whole.symm
  refine ⟨by omega, by rw [List.drop_drop], ?_⟩
  rw [← whole, ← length, List.drop_left]

theorem scan_commentMark (s : Bytes) : Token.scan (Token.commentMark ++ s) =
    (Token.comment s).1 :: Token.scan (Token.comment s).2 := by
  simp [Token.commentMark, Token.scan, Token.next]

theorem readCode_of_mark {st : State} {s : Bytes} (inside : st.pos < src.length)
    (whole : src.drop st.pos = Token.commentMark ++ s) : readCode src st =
      .ok (match Bracket.level? s with
        | some level =>
          { st with level, pos := st.pos + 2 + (level + 2), mode := .blockComment }
        | none => { st with pos := st.pos + 2, mode := .lineComment }) := by
  obtain ⟨-, here, -⟩ := read_of_drop whole
  have behind : src.drop (st.pos + 2) = s := drop_of_drop whole
  have mark : Token.commentMark.isPrefixOf (Token.commentMark ++ s) := by simp
  rw [readCode, here, slice_tail (Nat.le_of_lt inside), whole]
  simp only [bind, Except.bind, mark, if_true]
  rw [levelAt_eq]
  have two : Token.commentMark.length = 2 := rfl
  rw [two, behind]
  cases Bracket.level? s <;> rfl

/-- A turn that finds a comment. -/
theorem advances_of_mark {st : State} (sound : st.Sound src) (mode : st.mode = .code) {s : Bytes}
    (inside : st.pos < src.length) (whole : src.drop st.pos = Token.commentMark ++ s) :
    ∃ next, readCode src st = .ok next ∧ Advances src st next := by
  have behind : src.drop (st.pos + 2) = s := drop_of_drop whole
  have within : st.pos + 2 ≤ src.length := le_length_of_drop sound.inside whole
  have ahead : st.ahead src = Segment.consCode st.code
      (Segment.ofTokens ((Token.comment s).1 :: Token.scan (Token.comment s).2)) := by
    simp only [State.ahead, mode, whole, scan_commentMark]
  rw [readCode_of_mark inside whole]
  cases level : Bracket.level? s with
  | none =>
    refine ⟨_, rfl, advances_comment sound mode rfl ?_ within rfl ?_⟩
    · simp
    · rw [ahead, Token.comment, Bracket.read?, level]
      simp only [State.ahead, behind]
      rfl
  | some level =>
    obtain ⟨end_, drop, -⟩ := drop_of_level? within (behind ▸ level)
    rw [behind] at drop
    refine ⟨_, rfl, advances_comment sound mode rfl ?_ end_ rfl ?_⟩
    · simp only
      omega
    · rw [ahead, Token.comment, Bracket.read?, level]
      simp only [State.ahead, drop, Option.map_some, Segment.ofTokens, Segment.consCode_consCode]

theorem level_scan (level : Nat) (s : Bytes) : (Bracket.scan level s).1.level = level := by
  unfold Bracket.scan
  split <;> rfl

/-- A turn that finds a long bracket. -/
theorem advances_of_opener {st : State} (sound : st.Sound src) (mode : st.mode = .code)
    {level : Nat} (found : Bracket.level? (src.drop st.pos) = some level)
    (lexed : Token.scan (src.drop st.pos) =
      .longString (Bracket.scan level ((src.drop st.pos).drop (level + 2))).1 ::
        Token.scan (Bracket.scan level ((src.drop st.pos).drop (level + 2))).2) :
    Advances src st { st.flush with
      start := st.pos, level, pos := st.pos + (level + 2), mode := .longString } := by
  obtain ⟨within, drop, whole⟩ := drop_of_level? sound.inside found
  have opener := between_add (Nat.le_refl _) sound.inside whole
  rw [between_self, List.nil_append, Bracket.length_opener] at opener
  refine advances_open sound mode rfl rfl ?_ within (by simp) rfl ?_
  · simp only
    omega
  · rw [lexed]
    simp only [State.ahead, drop, opener, Segment.ofTokens, Bracket.Body.bytes, level_scan]

/-- A turn that finds no comment. -/
theorem advances_of_unmarked {st : State} (sound : st.Sound src) (mode : st.mode = .code)
    {c : UInt8} {s : Bytes} (rest : src.drop st.pos = c :: s)
    (unmarked : ¬ Token.commentMark <+: c :: s) :
    ∃ next, readCode src st = .ok next ∧ Advances src st next := by
  obtain ⟨inside, here, later⟩ := read_of_drop rest
  have dashes : ¬ (c = Byte.dash ∧ s.head? = some Byte.dash) := by
    rwa [← Token.commentMark_prefix_cons_iff]
  have lexed : Token.scan (src.drop st.pos) =
      (Token.next c s).1 :: Token.scan (Token.next c s).2 := by rw [rest, Token.scan]
  rw [readCode, here, slice_tail sound.inside, rest]
  simp only [bind, Except.bind, List.isPrefixOf_iff_prefix, unmarked, if_false]
  by_cases quote : Token.isQuote c
  · rw [Token.next, if_neg dashes, if_pos quote] at lexed
    rw [if_pos quote]
    refine ⟨_, rfl, advances_open sound mode rfl rfl (by simp) inside (by simp) rfl ?_⟩
    have only := between_add (Nat.le_refl _) sound.inside (s := [c]) (t := s) rest
    rw [between_self, List.nil_append, List.length_singleton] at only
    rw [lexed]
    simp only [State.ahead, later, only]
    rfl
  · rw [if_neg quote, levelAt_eq, rest]
    cases found : Bracket.level? (c :: s) with
    | some level =>
      have bracket : c = Byte.openBracket := by
        by_contra other
        simp [Bracket.level?, other] at found
      rw [if_pos bracket]
      refine ⟨_, rfl, advances_of_opener sound mode (by rw [rest, found]) ?_⟩
      rw [lexed, Token.next, if_neg dashes, if_neg quote, Bracket.read?, found, rest]
      rfl
    | none =>
      have taken : Token.next c s = (.code c, s) := by
        rw [Token.next, if_neg dashes, if_neg quote, Bracket.read?, found]
        rfl
      refine ⟨st.take c, ?_, advances_take sound mode rest taken⟩
      split <;> rfl

/-- Every turn finds the offsets it needs, and gets on. -/
theorem advances_turn {st : State} (sound : st.Sound src) (inside : st.pos < src.length) :
    ∃ next, turn src st = .ok next ∧ Advances src st next := by
  cases mode : st.mode with
  | lineComment => simpa only [turn, mode] using advances_skipLine sound mode
  | blockComment => simpa only [turn, mode] using advances_skipBlock sound mode
  | shortString => simpa only [turn, mode] using advances_readQuoted sound mode
  | longString => simpa only [turn, mode] using advances_readLong sound mode
  | code =>
    simp only [turn, mode]
    by_cases mark : Token.commentMark <+: src.drop st.pos
    · obtain ⟨s, whole⟩ := mark
      exact advances_of_mark sound mode inside whole.symm
    · obtain ⟨c, s, rest⟩ : ∃ c s, src.drop st.pos = c :: s :=
        List.exists_cons_of_ne_nil (by simpa [List.drop_eq_nil_iff] using inside)
      exact advances_of_unmarked sound mode rest (rest ▸ mark)

/-- From a sound state the sweep comes to its end, in as many turns as there is left at most. -/
theorem exists_runs {st : State} (sound : st.Sound src) :
    ∃ turns last, Runs src turns st last ∧ turns ≤ st.left src ∧ last.Sound src ∧
      last.pos = src.length ∧ last.segments src = st.segments src := by
  induction hn : st.left src using Nat.strong_induction_on generalizing st with
  | _ n ih =>
    by_cases inside : st.pos < src.length
    · obtain ⟨next, step, advances⟩ := advances_turn sound inside
      obtain ⟨turns, last, runs, few, final, pos, same⟩ :=
        ih (next.left src) (hn ▸ advances.less) advances.sound rfl
      have := advances.less
      exact ⟨turns + 1, last, .turn inside step runs, by omega, final, pos,
        same.trans advances.same⟩
    · have pos : st.pos = src.length := Nat.le_antisymm sound.inside (Nat.not_lt.mp inside)
      exact ⟨0, st, .beyond (by omega), Nat.zero_le _, sound, pos, rfl⟩

/-- At the end of the text nothing is left ahead but the literal or the code at hand. -/
theorem finish_eq {st : State} (sound : st.Sound src) (pos : st.pos = src.length) :
    ∃ parts, finish src st = .ok parts ∧ InOrder src.length (parts.filterMap Part.span?) ∧
      parts.map (Part.segment src) = st.segments src := by
  have rest : src.drop st.pos = [] := List.drop_eq_nil_iff.mpr (by omega)
  have lexed : Segment.ofTokens (Token.scan []) = [] := by rw [Token.scan]; rfl
  by_cases opened : st.mode.isLiteral
  · obtain ⟨started, bare⟩ := sound.opened opened
    have ahead : st.ahead src = [.literal (between src st.start st.pos)] := by
      cases mode : st.mode with
      | code | lineComment | blockComment => simp [mode, Mode.isLiteral] at opened
      | shortString => simp [State.ahead, mode, rest, lexed, Token.quoted]
      | longString =>
        have none : Bracket.scan st.level [] = (⟨st.level, [], false⟩, []) := rfl
        simp [State.ahead, mode, rest, lexed, none]
    have order := sound.order
    rw [State.free, if_pos opened] at order
    refine ⟨st.parts ++ [.literal ⟨st.start, st.pos⟩], ?_, ?_, ?_⟩
    · rw [finish, if_pos opened, State.close_eq started sound.inside]
      simp [bind, Except.bind, State.flush, bare]
    · simpa [Part.span?, pos] using order.concat started
    · simp [State.segments, ahead, Part.segment]
  · have ahead : st.ahead src = Segment.consCode st.code [] := by
      cases mode : st.mode with
      | shortString | longString => simp [mode, Mode.isLiteral] at opened
      | code | lineComment => simp [State.ahead, mode, rest, lexed]
      | blockComment =>
        have none : Bracket.scan st.level [] = (⟨st.level, [], false⟩, []) := rfl
        simp [State.ahead, mode, rest, lexed, none, Segment.separator]
    have order := sound.order
    rw [State.free, if_neg opened, pos] at order
    refine ⟨st.flush.parts, ?_, by simpa using order, ?_⟩
    · rw [finish, if_neg opened]
      rfl
    · have same : st.flush.parts.map (Part.segment src) ++ [] = _ := st.map_flush (.inl rfl)
      rwa [List.append_nil, ← ahead] at same

/-- The sweep begins with all segments ahead of it, or with the shebang behind it. -/
theorem begin_eq (src : Bytes) : ∃ st, begin src = .ok st ∧ st.Sound src ∧
    st.left src ≤ 2 * src.length ∧ st.segments src = Segment.ofTokens (Token.lex src) := by
  by_cases mark : Token.shebangMark.isPrefixOf src
  · have stop := getD_index?_lf src
    have whole : src = src.takeWhile (· != Byte.lf) ++ src.dropWhile (· != Byte.lf) :=
      List.takeWhile_append_dropWhile.symm
    have begun : src.drop 0 = _ := whole
    have within : (src.takeWhile (· != Byte.lf)).length ≤ src.length :=
      (List.takeWhile_prefix _).length_le
    have line := between_add (Nat.le_refl 0) (Nat.zero_le _) begun
    have behind := drop_of_drop begun
    rw [Nat.zero_add] at line behind
    refine ⟨{ pos := (src.takeWhile (· != Byte.lf)).length,
              parts := [.literal ⟨0, (src.takeWhile (· != Byte.lf)).length⟩] }, ?_, ?_, ?_, ?_⟩
    · simp only [begin, if_pos mark, stop, State.emit]
      rw [slice_of_le (Nat.zero_le _) within]
      rfl
    · refine ⟨within, by simp [Mode.isLiteral], ?_⟩
      exact (show InOrder 0 [] from ⟨by simp, .nil⟩).concat (Nat.zero_le _)
    · simp only [State.left, if_true]
      omega
    · simp only [State.segments, State.ahead, behind, List.map_cons, List.map_nil, Part.segment,
        line]
      rw [Token.lex, if_pos mark]
      simp [between, Segment.ofTokens, Segment.consCode_nil]
  · refine ⟨{}, by rw [begin, if_neg mark], ⟨Nat.zero_le _, by simp [Mode.isLiteral], ?_⟩, ?_, ?_⟩
    · exact ⟨by simp, .nil⟩
    · simp [State.left]
    · rw [Token.lex, if_neg mark]
      simp [State.segments, State.ahead, Segment.consCode_nil]

theorem turn_of_line {st : State} (mode : st.mode = .lineComment)
    (feed : src[st.pos]? = some Byte.lf) : turn src st = .ok { st with mode := .code } := by
  obtain ⟨s, rest⟩ : ∃ s, src.drop st.pos = Byte.lf :: s :=
    List.head?_eq_some_iff.mp (by rw [List.head?_drop, feed])
  obtain ⟨inside, -, -⟩ := read_of_drop rest
  have here : index? [Byte.lf] (Byte.lf :: s) = some 0 := by simp [index?, Bytes.cut]
  simp only [turn, mode, skipLine]
  rw [slice_tail (Nat.le_of_lt inside), rest]
  simp only [bind, Except.bind, here, Nat.add_zero]

example : begin (utf8 "--\n") = .ok {} ∧
    turn (utf8 "--\n") {} = .ok { pos := 2, mode := .lineComment } ∧
    turn (utf8 "--\n") { pos := 2, mode := .lineComment } = .ok { pos := 2 } := by
  decide

theorem turn_of_quoted_line {st : State} (mode : st.mode = .shortString)
    (quote : Token.isQuote st.quote) (started : st.start ≤ st.pos)
    (feed : src[st.pos]? = some Byte.lf) : turn src st =
      .ok { st with parts := st.parts ++ [.literal ⟨st.start, st.pos⟩], mode := .code } := by
  obtain ⟨s, rest⟩ : ∃ s, src.drop st.pos = Byte.lf :: s :=
    List.head?_eq_some_iff.mp (by rw [List.head?_drop, feed])
  obtain ⟨inside, here, -⟩ := read_of_drop rest
  have other : Byte.lf ≠ st.quote := (Token.ne_of_isQuote quote (by decide)).symm
  have stops : quotedFrom src st.quote st.pos = .ok (st.pos, true) := by
    rw [quotedFrom, dif_pos inside, here]
    simp [bind, Except.bind, other, show Byte.lf ≠ Byte.backslash by decide]
  simp only [turn, mode, readQuoted]
  rw [stops]
  exact State.close_eq started (Nat.le_of_lt inside)

theorem quotedFrom_of_last_backslash (quote : UInt8) {offset : Nat}
    (last : offset + 1 = src.length) (backslash : src[offset]? = some Byte.backslash) :
    quotedFrom src quote offset = .ok (src.length + 1, false) := by
  obtain ⟨s, rest⟩ : ∃ s, src.drop offset = Byte.backslash :: s :=
    List.head?_eq_some_iff.mp (by rw [List.head?_drop, backslash])
  obtain ⟨-, -, later⟩ := read_of_drop rest
  rw [List.drop_eq_nil_iff.mpr (by omega)] at later
  have alone : Token.escapedLength [] = 1 := rfl
  rw [quotedFrom_of_backslash quote rest, ← later, alone, quotedFrom_of_beyond quote (by omega)]
  congr 2
  omega

end Sweep

/-- A sweep over a text finds every offset that it needs, comes to its end in at most twice as many
turns as there are bytes, and stands at the end of the text then. The literals that it has given out
are parts of the text one after the other, and its parts are the segments of the tokens. For all
that, a turn at the end of a line may leave the offset where it is, and a backslash that ends the
text leads beyond it. -/
theorem sweep_in_bounds (src : Bytes) :
    (∃ first turns last parts, Sweep.begin src = .ok first ∧ Sweep.Runs src turns first last ∧
      turns ≤ 2 * src.length ∧ last.pos = src.length ∧ Sweep.finish src last = .ok parts ∧
      Sweep.InOrder src.length (parts.filterMap Sweep.Part.span?) ∧
      parts.map (Sweep.Part.segment src) = Segment.ofTokens (Token.lex src)) ∧
    (∀ st : Sweep.State, src[st.pos]? = some Byte.lf →
      (st.mode = .lineComment ∨
        st.mode = .shortString ∧ Token.isQuote st.quote ∧ st.start ≤ st.pos) →
      ∃ next, Sweep.turn src st = .ok next ∧ next.pos = st.pos ∧ next.mode = .code) ∧
    ∀ quote offset, offset + 1 = src.length → src[offset]? = some Byte.backslash →
      Sweep.quotedFrom src quote offset = .ok (src.length + 1, false) := by
  refine ⟨?_, ?_, ?_⟩
  · obtain ⟨first, begins, sound, few, same⟩ := Sweep.begin_eq src
    obtain ⟨turns, last, runs, fewer, final, pos, kept⟩ := Sweep.exists_runs sound
    obtain ⟨parts, finishes, order, segments⟩ := Sweep.finish_eq final pos
    exact ⟨first, turns, last, parts, begins, runs, fewer.trans few, pos, finishes, order,
      segments.trans (kept.trans same)⟩
  · rintro st feed (mode | ⟨mode, quote, started⟩)
    · exact ⟨_, Sweep.turn_of_line mode feed, rfl, rfl⟩
    · exact ⟨_, Sweep.turn_of_quoted_line mode quote started feed, rfl, rfl⟩
  · exact fun quote _ last backslash => Sweep.quotedFrom_of_last_backslash quote last backslash

end LuaCompact
