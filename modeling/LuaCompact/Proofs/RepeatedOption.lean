import LuaCompact.Settings
import LuaCompact.Proofs.NoticeKind
import Mathlib

namespace LuaCompact

namespace Bytes

theorem replace_of_notMem {first : UInt8} {rest new s : Bytes} (absent : first ∉ s) :
    replace (first :: rest) new s = s := by
  conv_lhs => rw [← List.append_nil s, replace_append_of_notMem absent, replace, List.append_nil]

theorem dropEnd_of_notMem {b : UInt8} {s : Bytes} (absent : b ∉ s) : dropEnd [b] s = s := by
  refine if_neg fun found => absent ?_
  exact (List.isSuffixOf_iff_suffix.mp found).subset (List.mem_singleton_self b)

end Bytes

namespace Csv

/-- A text that is a field without quotes, and the whole of its record. -/
structure IsField (s : Bytes) : Prop where
  ne_nil : s ≠ []
  comma_notMem : comma ∉ s
  quote_notMem : Byte.doubleQuote ∉ s
  cr_notMem : Byte.cr ∉ s
  lf_notMem : Byte.lf ∉ s

theorem IsField.not_endsField {s : Bytes} (isField : IsField s) : ∀ b ∈ s, !endsField b := by
  intro b mem
  have noComma : b ≠ comma := fun same => isField.comma_notMem (same ▸ mem)
  have noFeed : b ≠ Byte.lf := fun same => isField.lf_notMem (same ▸ mem)
  simp [endsField, noComma, noFeed]

theorem IsField.fields_eq {s : Bytes} (isField : IsField s) (pos : Position) :
    fields pos s = .ok [s] := by
  have unquoted : s.head? ≠ some Byte.doubleQuote := fun first =>
    isField.quote_notMem (List.mem_of_head? first)
  have whole : (s.takeWhile fun b => !endsField b) = s :=
    List.takeWhile_eq_self_iff.mpr isField.not_endsField
  have rest : (s.dropWhile fun b => !endsField b) = [] :=
    List.dropWhile_eq_nil_iff.mpr isField.not_endsField
  have plain : s.findIdx? (· == Byte.doubleQuote) = none := by
    rw [List.findIdx?_eq_none_iff]
    intro b mem
    simpa using fun same : b = Byte.doubleQuote => isField.quote_notMem (same ▸ mem)
  rw [fields, if_neg unquoted]
  simp only [whole, plain]
  split
  next => rfl
  next found => simp [rest] at found

theorem IsField.record_eq {s : Bytes} (isField : IsField s) : record s = .ok [s] := by
  have plain : plainBreaks s = s := by
    rw [plainBreaks, Bytes.dropEnd_of_notMem isField.cr_notMem,
      Bytes.replace_of_notMem isField.cr_notMem]
  obtain ⟨b, t, rfl⟩ := List.exists_cons_of_ne_nil isField.ne_nil
  have body : (b :: t).dropWhile (· == Byte.lf) = b :: t := by
    refine List.dropWhile_cons_of_neg ?_
    simpa using fun same : b = Byte.lf => isField.lf_notMem (same ▸ List.mem_cons_self)
  rw [record, if_neg isField.ne_nil]
  simp only [plain, body, if_neg isField.ne_nil, isField.fields_eq]
  rfl

end Csv

/-- The settings that are lists. -/
inductive ListKey where
  | includes
  | excludes
deriving DecidableEq, Repr

namespace ListKey

/-- The key of a list in the environment and in a file. -/
def key : ListKey → Settings.Key
  | includes => .include_
  | excludes => .exclude

/-- The option that adds to a list. -/
def switch : ListKey → Switch
  | includes => .include_
  | excludes => .exclude

/-- A list as it was loaded. -/
def ofSettings : ListKey → Settings → List Bytes
  | includes, s => s.includes
  | excludes, s => s.excludes

/-- A list as the options give it. -/
def ofOptions : ListKey → Options → Option (List Bytes)
  | includes, o => o.includes?
  | excludes, o => o.excludes?

/-- The options with another list. -/
def put : ListKey → Option (List Bytes) → Options → Options
  | includes, l?, o => { o with includes? := l? }
  | excludes, l?, o => { o with excludes? := l? }

@[simp] theorem ofOptions_put (k : ListKey) (l? : Option (List Bytes)) (o : Options) :
    k.ofOptions (k.put l? o) = l? := by
  cases k <;> rfl

@[simp] theorem put_put (k : ListKey) (l? m? : Option (List Bytes)) (o : Options) :
    k.put m? (k.put l? o) = k.put m? o := by
  cases k <;> rfl

/-- A list with more items; the first one makes a list where there was none. -/
def extend (l? : Option (List Bytes)) (items : List Bytes) : Option (List Bytes) :=
  if items = [] then l? else some (l?.getD [] ++ items)

theorem extend_cons (l? : Option (List Bytes)) (item : Bytes) (items : List Bytes) :
    extend (extend l? [item]) items = extend l? (item :: items) := by
  cases items <;> simp [extend]

end ListKey

namespace Options

/-- An option with its name, as the start of an argument. -/
def flag (s : Switch) : Bytes := endMark ++ s.name

/-- Arguments that give the option of a list for one item after the other, the item as the next
argument or behind an equals sign; `rest` are the other arguments, which do not give that option. -/
inductive Repeats (known : List Switch) (s : Switch) :
    (items rest args : List Bytes) → Prop
  | nil : Repeats known s [] [] []
  | endMark (args : List Bytes) : Repeats known s [] (endMark :: args) (endMark :: args)
  | plain {arg : Bytes} {items rest args : List Bytes} (isPlain : isPlain arg)
      (repeats : Repeats known s items rest args) :
      Repeats known s items (arg :: rest) (arg :: args)
  | other {arg : Bytes} {given : List (Switch × Bytes)} {items rest args : List Bytes}
      (isOption : ¬ isPlain arg) (goesOn : arg ≠ Options.endMark)
      (reads : read known arg = .ok ⟨given, none⟩) (differ : ∀ p ∈ given, p.1 ≠ s)
      (repeats : Repeats known s items rest args) :
      Repeats known s items (arg :: rest) (arg :: args)
  | otherWithNext {arg value : Bytes} {given : List (Switch × Bytes)} {t : Switch} {e : Error}
      {items rest args : List Bytes} (isOption : ¬ isPlain arg) (goesOn : arg ≠ Options.endMark)
      (reads : read known arg = .ok ⟨given, some (t, e)⟩) (differ : ∀ p ∈ given, p.1 ≠ s)
      (differs : t ≠ s) (repeats : Repeats known s items rest args) :
      Repeats known s items (arg :: value :: rest) (arg :: value :: args)
  | apart (item : Bytes) {items rest args : List Bytes} (repeats : Repeats known s items rest args) :
      Repeats known s (item :: items) rest (flag s :: item :: args)
  | joined (item : Bytes) {items rest args : List Bytes}
      (repeats : Repeats known s items rest args) :
      Repeats known s (item :: items) rest ((flag s ++ Byte.equals :: item) :: args)

theorem name_injective : Function.Injective Switch.name := by
  intro s t same
  revert same
  cases s <;> cases t <;> decide

theorem find?_name {known : List Switch} {s : Switch} (listed : s ∈ known) :
    known.find? (·.name = s.name) = some s := by
  cases found : known.find? (·.name = s.name) with
  | none => exact absurd (List.find?_eq_none.mp found s listed) (by simp)
  | some t =>
    have same : t.name = s.name := by simpa using List.find?_some found
    rw [name_injective same]

theorem equals_notMem_name (s : Switch) : ∀ b ∈ s.name, b != Byte.equals := by
  cases s <;> exact List.all_eq_true.mp (by decide)

section

variable (s : Switch) (tail : Bytes)

theorem isPlain_flag : isPlain (flag s ++ tail) = false := by
  simp [isPlain, flag, endMark]

theorem flag_ne_endMark : flag s ++ tail ≠ endMark := by
  have nonempty : s.name ≠ [] := by cases s <;> decide
  simp [flag, nonempty]

theorem read_flag (known : List Switch) :
    read known (flag s ++ tail) = readName known (s.name ++ tail) := by
  have named : ∃ c rest, s.name = c :: rest ∧ c ≠ Byte.dash ∧ c ≠ Byte.equals := by
    cases s <;> exact ⟨_, _, rfl, by decide, by decide⟩
  obtain ⟨c, rest, name, dash, equals⟩ := named
  simp [read, flag, endMark, name, dash, equals]

end

variable {known : List Switch} {k : ListKey}

/-- A list needs a value. -/
theorem implied?_switch (k : ListKey) : k.switch.implied? = none := by
  cases k <;> rfl

theorem read_apart (listed : k.switch ∈ known) :
    read known (flag k.switch) = .ok ⟨[], some (k.switch, .missingValue k.switch.name)⟩ := by
  have whole := List.takeWhile_eq_self_iff.mpr (equals_notMem_name k.switch)
  have rest := List.dropWhile_eq_nil_iff.mpr (equals_notMem_name k.switch)
  have reads := read_flag k.switch [] known
  simp only [List.append_nil] at reads
  simp only [reads, readName, whole, rest, find?_name listed, implied?_switch]

theorem read_joined (listed : k.switch ∈ known) (value : Bytes) :
    read known (flag k.switch ++ Byte.equals :: value) = .ok ⟨[(k.switch, value)], none⟩ := by
  have name : (k.switch.name ++ Byte.equals :: value).takeWhile (· != Byte.equals) =
      k.switch.name := by
    rw [List.takeWhile_append_of_pos (equals_notMem_name k.switch)]
    simp
  have rest : (k.switch.name ++ Byte.equals :: value).dropWhile (· != Byte.equals) =
      Byte.equals :: value := by
    rw [List.dropWhile_append_of_pos (equals_notMem_name k.switch)]
    simp
  simp only [read_flag, readName, name, rest, find?_name listed]

theorem take_of_read {arg : Bytes} {request : Request} (reads : read known arg = .ok request)
    (o : Options) :
    take known o arg = (o.setAll request.given).map fun o => (o, request.waiting?) := by
  rw [take, reads]
  rfl

theorem parse_plain {arg : Bytes} (isPlain : isPlain arg) (o : Options) (rest : List Bytes) :
    parse known o (arg :: rest) =
      (parse known o rest).map fun (o, plain) => (o, arg :: plain) := by
  rw [parse.eq_def]
  exact if_pos isPlain

theorem parse_endMark (o : Options) (rest : List Bytes) :
    parse known o (endMark :: rest) = .ok (o, rest) := by
  rw [parse.eq_def]
  exact (if_neg (by decide)).trans (if_pos rfl)

section

variable {arg : Bytes} {given : List (Switch × Bytes)} (isOption : ¬ isPlain arg)
  (goesOn : arg ≠ endMark)

include isOption goesOn

theorem parse_option (reads : read known arg = .ok ⟨given, none⟩) (o : Options)
    (rest : List Bytes) :
    parse known o (arg :: rest) = (o.setAll given).bind fun o => parse known o rest := by
  rw [parse.eq_def]
  simp only [if_neg isOption, if_neg goesOn, take_of_read reads]
  cases o.setAll given <;> rfl

theorem parse_optionWithNext {t : Switch} {e : Error}
    (reads : read known arg = .ok ⟨given, some (t, e)⟩) (o : Options) (value : Bytes)
    (rest : List Bytes) :
    parse known o (arg :: value :: rest) =
      (o.setAll given).bind fun o => (o.set t value).bind fun o => parse known o rest := by
  rw [parse.eq_def]
  simp only [if_neg isOption, if_neg goesOn, take_of_read reads]
  cases o.setAll given with
  | error e => rfl
  | ok o =>
    simp only [Except.map, Except.bind]
    cases o.set t value <;> rfl

end

theorem set_item {item : Bytes} (isField : Csv.IsField item) (o : Options) :
    o.set k.switch item = .ok (k.put (ListKey.extend (k.ofOptions o) [item]) o) := by
  cases k <;> simp only [ListKey.switch, set, list, isField.record_eq] <;> rfl

/-- Another option does not touch the list, nor does it depend on it. -/
theorem set_put {t : Switch} (differs : t ≠ k.switch) (l? : Option (List Bytes)) (o : Options)
    (value : Bytes) : (k.put l? o).set t value = (o.set t value).map (k.put l?) := by
  cases k <;> cases t <;> first
    | exact absurd rfl differs
    | rfl
    | (simp only [set, ListKey.put]; cases truth _ value <;> rfl)
    | (simp only [set, ListKey.put]; cases list _ value <;> rfl)

theorem setAll_put {given : List (Switch × Bytes)} (differ : ∀ p ∈ given, p.1 ≠ k.switch)
    (l? : Option (List Bytes)) (o : Options) :
    (k.put l? o).setAll given = (o.setAll given).map (k.put l?) := by
  induction given generalizing o with
  | nil => rfl
  | cons p given ih =>
    obtain ⟨t, value⟩ := p
    obtain ⟨differs, differ⟩ := List.forall_mem_cons.mp differ
    change ((k.put l? o).set t value).bind (setAll · given) =
      ((o.set t value).bind (setAll · given)).map (k.put l?)
    rw [set_put differs]
    cases o.set t value with
    | error e => rfl
    | ok o => exact ih differ o

/-- Repeating the option of a list adds its items to the list, and the arguments are read as they
are without it. -/
theorem parse_repeats {items rest args : List Bytes} (listed : k.switch ∈ known)
    (areFields : ∀ item ∈ items, Csv.IsField item)
    (repeats : Repeats known k.switch items rest args) (l? : Option (List Bytes)) (o : Options) :
    parse known (k.put l? o) args =
      (parse known o rest).map fun (o, plain) => (k.put (ListKey.extend l? items) o, plain) := by
  induction repeats generalizing l? o with
  | nil => rfl
  | endMark args => rw [parse_endMark, parse_endMark]; rfl
  | @plain arg items rest args isPlain repeats ih =>
    rw [parse_plain isPlain, parse_plain isPlain, ih areFields]
    cases parse known o rest <;> rfl
  | @other arg given items rest args isOption goesOn reads differ repeats ih =>
    rw [parse_option isOption goesOn reads, parse_option isOption goesOn reads, setAll_put differ]
    cases o.setAll given with
    | error e => rfl
    | ok o => exact ih areFields l? o
  | @otherWithNext arg value given t e items rest args isOption goesOn reads differ differs repeats ih =>
    rw [parse_optionWithNext isOption goesOn reads, parse_optionWithNext isOption goesOn reads,
      setAll_put differ]
    cases o.setAll given with
    | error e => rfl
    | ok o =>
      change ((k.put l? o).set t value).bind _ = ((o.set t value).bind _).map _
      rw [set_put differs]
      cases o.set t value with
      | error e => rfl
      | ok o => exact ih areFields l? o
  | @apart item items rest args repeats ih =>
    obtain ⟨isField, areFields⟩ := List.forall_mem_cons.mp areFields
    have isOption := isPlain_flag k.switch []
    have goesOn := flag_ne_endMark k.switch []
    rw [List.append_nil] at isOption goesOn
    rw [parse_optionWithNext (by simp [isOption]) goesOn (read_apart listed)]
    change ((k.put l? o).set k.switch item).bind _ = _
    rw [set_item isField, ListKey.ofOptions_put, ListKey.put_put, ← ListKey.extend_cons l? item items]
    exact ih areFields _ o
  | @joined item items rest args repeats ih =>
    obtain ⟨isField, areFields⟩ := List.forall_mem_cons.mp areFields
    have isOption := isPlain_flag k.switch (Byte.equals :: item)
    have goesOn := flag_ne_endMark k.switch (Byte.equals :: item)
    rw [parse_option (by simp [isOption]) goesOn (read_joined listed item)]
    have added : (k.put l? o).setAll [(k.switch, item)] =
        .ok (k.put (ListKey.extend l? [item]) o) := by
      change ((k.put l? o).set k.switch item).bind .ok = _
      rw [set_item isField, ListKey.ofOptions_put, ListKey.put_put]
      rfl
    rw [added, ← ListKey.extend_cons l? item items]
    exact ih areFields _ o

end Options

end LuaCompact
