import LuaCompact.Numeral

namespace LuaCompact.Csv

abbrev comma : UInt8 := 44

/-- A place in a text, by line and byte, both from one. -/
structure Position where
  line : Nat
  column : Nat
deriving DecidableEq, Repr

namespace Position

def forward (pos : Position) (n : Nat) : Position := { pos with column := pos.column + n }

def nextLine (pos : Position) : Position := ⟨pos.line + 1, 1⟩

end Position

/-- What is wrong with a field. -/
inductive Fault where
  | bareQuote
  | unmatchedQuote
deriving DecidableEq, Repr

def Fault.message : Fault → Bytes
  | bareQuote => utf8 "bare \" in non-quoted-field"
  | unmatchedQuote => utf8 "extraneous or missing \" in quoted-field"

/-- Why a text has no first record. -/
inductive Error where
  | noRecord
  | badField (startLine : Nat) (pos : Position) (fault : Fault)
deriving DecidableEq, Repr

def Error.message : Error → Bytes
  | noRecord => utf8 "EOF"
  | badField startLine pos fault =>
    (if startLine = pos.line then []
      else utf8 "record on line " ++ Numeral.ofNat startLine ++ utf8 "; ") ++
    utf8 "parse error on line " ++ Numeral.ofNat pos.line ++ utf8 ", column " ++
      Numeral.ofNat pos.column ++ utf8 ": " ++ fault.message

/-- Whether a byte ends a field that is not quoted. -/
def endsField (c : UInt8) : Bool := c = comma || c = Byte.lf

/-- A quoted field after its opening quote: its text, and the place and the text behind its closing
quote. A quote inside is written twice. -/
def quoted (pos : Position) : Bytes → Except (Position × Fault) (Bytes × Position × Bytes)
  | [] => .error (pos, .unmatchedQuote)
  | c :: s =>
    if c = Byte.doubleQuote then
      match s with
      | [] => .ok ([], pos.forward 1, [])
      | d :: t =>
        if d = Byte.doubleQuote then
          (quoted (pos.forward 2) t).map fun (field, rest) => (c :: field, rest)
        else if endsField d then .ok ([], pos.forward 1, d :: t)
        else .error (pos, .unmatchedQuote)
    else
      let next := if c = Byte.lf ∧ s ≠ [] then pos.nextLine else pos.forward 1
      (quoted next s).map fun (field, rest) => (c :: field, rest)

theorem exists_of_map_eq_ok {ε α β : Type} {f : α → β} {x : Except ε α} {b : β}
    (h : x.map f = .ok b) : ∃ a, x = .ok a ∧ f a = b := by
  cases x with
  | error e => cases h
  | ok a => exact ⟨a, rfl, Except.ok.inj h⟩

theorem length_quoted_le {s field rest : Bytes} {pos next : Position}
    (h : quoted pos s = .ok (field, next, rest)) : rest.length ≤ s.length := by
  fun_induction quoted pos s generalizing field
  case case3 ih =>
    obtain ⟨⟨f, n, u⟩, hq, he⟩ := exists_of_map_eq_ok h
    cases he
    have := ih hq
    simp only [List.length_cons]
    omega
  case case6 ih =>
    obtain ⟨⟨f, n, u⟩, hq, he⟩ := exists_of_map_eq_ok h
    cases he
    have := ih hq
    simp only [List.length_cons]
    omega
  all_goals cases h <;> simp

/-- The fields of the record at a place, up to the end of its line. -/
def fields (pos : Position) (s : Bytes) : Except (Position × Fault) (List Bytes) :=
  if s.head? = some Byte.doubleQuote then
    match _hq : quoted (pos.forward 1) s.tail with
    | .error e => .error e
    | .ok (field, _, []) => .ok [field]
    | .ok (field, next, d :: rest) =>
      if d = comma then (fields (next.forward 1) rest).map (field :: ·) else .ok [field]
  else
    let field := s.takeWhile fun b => !endsField b
    match field.findIdx? (· == Byte.doubleQuote) with
    | some i => .error (pos.forward i, .bareQuote)
    | none =>
      match hd : s.dropWhile fun b => !endsField b with
      | [] => .ok [field]
      | d :: rest =>
        if d = comma then (fields (pos.forward (field.length + 1)) rest).map (field :: ·)
        else .ok [field]
termination_by s.length
decreasing_by
  · have := length_quoted_le _hq
    simp only [List.length_cons, List.length_tail] at this
    omega
  · have := (List.dropWhile_suffix (l := s) fun b => !endsField b).length_le
    simp only [hd, List.length_cons] at this
    omega

/-- A text with its line breaks as line feeds, without a carriage return at its end. -/
def plainBreaks (s : Bytes) : Bytes :=
  Bytes.replace [Byte.cr, Byte.lf] [Byte.lf] (Bytes.dropEnd [Byte.cr] s)

/-- The first record of a text. Empty lines before it are skipped, and an empty text is a record
without fields. -/
def record (s : Bytes) : Except Error (List Bytes) :=
  if s = [] then .ok []
  else
    let text := plainBreaks s
    let body := text.dropWhile (· == Byte.lf)
    let startLine := text.length - body.length + 1
    if body = [] then .error .noRecord
    else (fields ⟨startLine, 1⟩ body).mapError fun (pos, fault) => .badField startLine pos fault

end LuaCompact.Csv
