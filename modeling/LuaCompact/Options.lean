import LuaCompact.Csv
import LuaCompact.Quoted
import LuaCompact.Switch
import LuaCompact.Truth

namespace LuaCompact

/-- The options that a command line sets. A list is the lists of all its options one after the
other; elsewhere the last one counts. -/
structure Options where
  mode? : Option Bytes
  quiet? : Option Bool
  includes? : Option (List Bytes)
  excludes? : Option (List Bytes)
  help : Bool
deriving DecidableEq, Repr

namespace Options

def empty : Options := ⟨none, none, none, none, false⟩

/-- Why arguments cannot be read. -/
inductive Error where
  | malformed (arg : Bytes)
  | unknown (name : Bytes)
  | unknownLetter (letter : UInt8) (group : Bytes)
  | missingValue (name : Bytes)
  | missingLetterValue (letter : UInt8)
  | badTruth (switch : Switch) (value : Bytes)
  | badList (switch : Switch) (value : Bytes) (cause : Csv.Error)
  | helpRequested
deriving DecidableEq, Repr

/-- A letter in quotes, as the character with its number. -/
def quotedLetter (letter : UInt8) : Bytes := Quoted.quoteChar (Char.ofNat letter.toNat)

/-- The start of a message about the value of an option. -/
def badValue (switch : Switch) (value : Bytes) : Bytes :=
  utf8 "invalid argument " ++ Quoted.quote value ++ utf8 " for " ++ Quoted.quote switch.title ++
    utf8 " flag: "

def Error.message : Error → Bytes
  | malformed arg => utf8 "bad flag syntax: " ++ arg
  | unknown name => utf8 "unknown flag: --" ++ name
  | unknownLetter letter group =>
    utf8 "unknown shorthand flag: " ++ quotedLetter letter ++ utf8 " in -" ++ group
  | missingValue name => utf8 "flag needs an argument: --" ++ name
  | missingLetterValue letter =>
    utf8 "flag needs an argument: " ++ quotedLetter letter ++ utf8 " in -" ++ [letter]
  | badTruth switch value =>
    badValue switch value ++ utf8 "strconv.ParseBool: parsing " ++ Quoted.quote value ++
      utf8 ": invalid syntax"
  | badList switch value cause => badValue switch value ++ cause.message
  | helpRequested => utf8 "pflag: help requested"

/-- The truth value of an option. -/
def truth (switch : Switch) (value : Bytes) : Except Error Bool :=
  match truth? value with
  | some b => .ok b
  | none => .error (.badTruth switch value)

/-- The list value of an option. -/
def list (switch : Switch) (value : Bytes) : Except Error (List Bytes) :=
  (Csv.record value).mapError (.badList switch value)

/-- Sets an option. -/
def set (o : Options) (switch : Switch) (value : Bytes) : Except Error Options :=
  match switch with
  | .mode => .ok { o with mode? := some value }
  | .quiet => (truth switch value).map fun b => { o with quiet? := some b }
  | .help => (truth switch value).map fun b => { o with help := b }
  | .include_ =>
    (list switch value).map fun xs => { o with includes? := some (o.includes?.getD [] ++ xs) }
  | .exclude =>
    (list switch value).map fun xs => { o with excludes? := some (o.excludes?.getD [] ++ xs) }

/-- What one argument asks for: options with their values, or an option whose value is the next
argument, with the error if there is none. -/
structure Request where
  given : List (Switch × Bytes)
  waiting? : Option (Switch × Error)
deriving DecidableEq, Repr

/-- Reads an option by its name, with a value after an equals sign or without. -/
def readName (known : List Switch) (body : Bytes) : Except Error Request :=
  let name := body.takeWhile (· != Byte.equals)
  match known.find? (·.name = name), body.dropWhile (· != Byte.equals) with
  | none, _ => .error (if name = Switch.help.name then .helpRequested else .unknown name)
  | some s, _ :: value => .ok ⟨[(s, value)], none⟩
  | some s, [] =>
    match s.implied? with
    | some value => .ok ⟨[(s, value)], none⟩
    | none => .ok ⟨[], some (s, .missingValue name)⟩

/-- A group of letters with this beginning is passed over. -/
def passedOver : Bytes := utf8 "test."

/-- Reads options by their letters. The letter of an option that needs a value takes what follows
it in the group. -/
def readLetters (known : List Switch) : Bytes → Except Error Request
  | [] => .ok ⟨[], none⟩
  | c :: rest =>
    if passedOver.isPrefixOf (c :: rest) then .ok ⟨[], none⟩
    else
      match known.find? (·.letter? = some c) with
      | none =>
        .error (if some c = Switch.help.letter? then .helpRequested
          else .unknownLetter c (c :: rest))
      | some s =>
        if rest.head? = some Byte.equals ∧ rest.length ≠ 1 then .ok ⟨[(s, rest.tail)], none⟩
        else
          match s.implied? with
          | some value =>
            (readLetters known rest).map fun r => { r with given := (s, value) :: r.given }
          | none =>
            if rest = [] then .ok ⟨[], some (s, .missingLetterValue c)⟩
            else .ok ⟨[(s, rest)], none⟩

/-- Whether an argument is no option. A lone dash is none. -/
def isPlain (arg : Bytes) : Bool := arg.head? != some Byte.dash || arg.length = 1

/-- The mark behind which every argument is plain. -/
def endMark : Bytes := [Byte.dash, Byte.dash]

/-- Reads an argument that is an option. -/
def read (known : List Switch) (arg : Bytes) : Except Error Request :=
  match arg with
  | _ :: second :: body =>
    if second = Byte.dash then
      if body.head? = some Byte.dash ∨ body.head? = some Byte.equals then .error (.malformed arg)
      else readName known body
    else readLetters known (second :: body)
  | _ => .ok ⟨[], none⟩

/-- Sets options one after the other. -/
def setAll (o : Options) (given : List (Switch × Bytes)) : Except Error Options :=
  given.foldlM (fun o (s, value) => o.set s value) o

/-- Takes an argument that is an option. What waits for the next argument is left. -/
def take (known : List Switch) (o : Options) (arg : Bytes) :
    Except Error (Options × Option (Switch × Error)) := do
  let request ← read known arg
  return (← o.setAll request.given, request.waiting?)

/-- Reads arguments: the options that they set, and the plain arguments among them. -/
def parse (known : List Switch) (o : Options) : List Bytes → Except Error (Options × List Bytes)
  | [] => .ok (o, [])
  | arg :: rest =>
    if isPlain arg then (parse known o rest).map fun (o, plain) => (o, arg :: plain)
    else if arg = endMark then .ok (o, rest)
    else
      match take known o arg, rest with
      | .error e, _ => .error e
      | .ok (o, none), rest => parse known o rest
      | .ok (_, some (_, e)), [] => .error e
      | .ok (o, some (s, _)), value :: rest =>
        match o.set s value with
        | .error e => .error e
        | .ok o => parse known o rest

end Options

end LuaCompact
