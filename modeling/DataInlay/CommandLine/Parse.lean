/-
# DataInlay.CommandLine.Parse — reading arguments

Arguments are read from left to right, and the first error met is the one reported;
a request for help or for the version ends the reading as an error would. An option
may have its value attached — behind an equals sign, or behind its letter — or take
the next argument, unless that starts with a dash and is more than a dash. Letters
of flags may be joined, and an option may end such a group. Behind `--` every
argument is an input.

A value that was not attached is settled only when a later name or input comes, or
at the end: then it is checked that there is one, that the option is new, and that
the value is good. Unknown names and surplus inputs do not settle anything first.
What is missing and what excludes each other is checked last.
-/
import DataInlay.CommandLine

namespace DataInlay

/-! ## The state of the reading -/

/-- What a value is for. -/
inductive ValueTarget
  | input
  | option (o : ValueOption)
  deriving DecidableEq

/-- The values settled so far. -/
structure Settled where
  input? : Option String := none
  output? : Option String := none
  symbol? : Option String := none
  width? : Option Width := none
  config? : Option String := none
  path? : Option String := none
  stdout : Bool := false
  verbose : Bool := false
  quiet : Bool := false
  noColor : Bool := false
  deriving DecidableEq

/-- How far the reading has come. -/
structure ArgumentState where
  settled : Settled := {}
  /-- A value that waits to be settled, or an option that waits for its value. -/
  pending : Option (ValueTarget × Option String) := none
  /-- An input has been met. -/
  hasInput : Bool := false
  /-- Every argument from here on is an input. -/
  onlyInputs : Bool := false
  deriving DecidableEq

/-! ## Settling values and flags -/

/-- The number that a decimal text without blanks gives; a plus in front is allowed. -/
def positiveCount? (s : String) : Option Width :=
  let digits := match s.toList with
    | '+' :: rest => rest
    | all => all
  if digits ≠ [] ∧ digits.all (fun c => '0' ≤ c ∧ c ≤ '9') then
    let n := digits.foldl (fun n c => n * 10 + (c.toNat - '0'.toNat)) 0
    if n < UInt64.size then Width.ofNat? n else none
  else none

namespace Settled

/-- Puts a value where none was; a second one conflicts. -/
def fresh {α : Type} (old : Option α) (new : Except ParseStop α) : Except ParseStop (Option α) :=
  match old with
  | some _ => .error (.refused .argumentConflict)
  | none => new.map some

/-- A path, which must not be empty. -/
def pathValue (s : String) : Except ParseStop String :=
  if s = "" then .error (.refused .invalidValue) else .ok s

/-- A count, which must be a positive number. -/
def countValue (s : String) : Except ParseStop Width :=
  match positiveCount? s with
  | some n => .ok n
  | none => .error (.refused .valueValidation)

/-- Settles a value. -/
def assign (s : Settled) (target : ValueTarget) (value : String) : Except ParseStop Settled :=
  match target with
  | .input => (fresh s.input? (pathValue value)).map fun v => { s with input? := v }
  | .option .output => (fresh s.output? (pathValue value)).map fun v => { s with output? := v }
  | .option .symbol => (fresh s.symbol? (.ok value)).map fun v => { s with symbol? := v }
  | .option .bytesPerLine =>
    (fresh s.width? (countValue value)).map fun v => { s with width? := v }
  | .option .config => (fresh s.config? (pathValue value)).map fun v => { s with config? := v }
  | .option .path => (fresh s.path? (pathValue value)).map fun v => { s with path? := v }

/-- Raises a flag that is not yet raised. -/
def once (raised : Bool) (s : Settled) : Except ParseStop Settled :=
  if raised then .error (.refused .argumentConflict) else .ok s

/-- Raises a flag; those that ask for something else end the reading. -/
def raise (s : Settled) : Flag → Except ParseStop Settled
  | .stdout => once s.stdout { s with stdout := true }
  | .verbose => once s.verbose { s with verbose := true }
  | .quiet => once s.quiet { s with quiet := true }
  | .noColor => once s.noColor { s with noColor := true }
  | .help => .error .help
  | .version => .error .version

/-- The command line, if nothing conflicts and nothing is missing. -/
def toCommandLine (s : Settled) : Except ParseStop CommandLine :=
  if s.stdout ∧ s.output?.isSome then .error (.refused .argumentConflict)
  else if s.verbose ∧ s.quiet then .error (.refused .argumentConflict)
  else match s.input? with
    | none => .error (.refused .missingRequiredArgument)
    | some input => .ok {
        input, output? := s.output?, symbol? := s.symbol?, width? := s.width?,
        config? := s.config?, path? := s.path?, stdout := s.stdout, verbose := s.verbose,
        quiet := s.quiet, noColor := s.noColor }

end Settled

namespace ArgumentState

/-- Settles what is pending. -/
def settle (a : ArgumentState) : Except ParseStop ArgumentState :=
  match a.pending with
  | none => .ok a
  | some (_, none) => .error (.refused .invalidValue)
  | some (target, some value) =>
    (a.settled.assign target value).map fun settled => { a with settled, pending := none }

/-- Raises a flag. -/
def raise (a : ArgumentState) (f : Flag) : Except ParseStop ArgumentState :=
  a.settle.bind fun a => (a.settled.raise f).map fun settled => { a with settled }

/-- Settles an option with an attached value. -/
def attach (a : ArgumentState) (o : ValueOption) (value : String) :
    Except ParseStop ArgumentState :=
  a.settle.bind fun a => (a.settled.assign (.option o) value).map fun settled =>
    { a with settled }

/-- Lets an option wait for its value. -/
def await (a : ArgumentState) (o : ValueOption) : Except ParseStop ArgumentState :=
  a.settle.map fun a => { a with pending := some (.option o, none) }

/-! ## Reading one argument -/

/-- Takes an input. -/
def takeInput (a : ArgumentState) (value : String) : Except ParseStop ArgumentState :=
  if a.hasInput then .error (.refused .unknownArgument)
  else a.settle.map fun a => { a with pending := some (.input, some value), hasInput := true }

/-- Takes an argument behind two dashes: a long name, perhaps with a value behind an
equals sign. -/
def takeLong (a : ArgumentState) (body : List Char) : Except ParseStop ArgumentState :=
  let name := String.ofList (body.takeWhile (· != '='))
  match Switch.ofLong? name, body.dropWhile (· != '=') with
  | none, _ => .error (.refused .unknownArgument)
  | some (.flag f), [] => a.raise f
  | some (.flag _), _ => .error (.refused .tooManyValues)
  | some (.option o), [] => a.await o
  | some (.option o), _ :: value => a.attach o (String.ofList value)

/-- Takes letters behind one dash: flags, and an option at the end with its value
attached or to come. -/
def takeLetters (a : ArgumentState) : List Char → Except ParseStop ArgumentState
  | [] => .ok a
  | c :: rest =>
    match Switch.ofLetter? c with
    | none => .error (.refused .unknownArgument)
    | some (.flag f) => (a.raise f).bind fun a => takeLetters a rest
    | some (.option o) =>
      match rest with
      | [] => a.await o
      | '=' :: value => a.attach o (String.ofList value)
      | value => a.attach o (String.ofList value)

/-- Takes an argument that is neither a name nor a group of letters: the value that
an option waits for, or an input. -/
def takeWord (a : ArgumentState) (value : String) : Except ParseStop ArgumentState :=
  match a.pending with
  | some (.option o, none) => .ok { a with pending := some (.option o, some value) }
  | _ => a.takeInput value

/-- Takes an argument. -/
def take (a : ArgumentState) (argument : String) : Except ParseStop ArgumentState :=
  if a.onlyInputs then a.takeInput argument
  else match argument.toList with
    | ['-', '-'] => .ok { a with onlyInputs := true }
    | '-' :: '-' :: body => a.takeLong body
    | '-' :: c :: rest => a.takeLetters (c :: rest)
    | _ => a.takeWord argument

/-- Takes arguments in turn. -/
def takeAll (a : ArgumentState) (arguments : List String) : Except ParseStop ArgumentState :=
  arguments.foldlM take a

end ArgumentState

/-! ## Reading all arguments -/

/-- The command line that the arguments spell. -/
def CommandLine.parse (arguments : List String) : Except ParseStop CommandLine :=
  (ArgumentState.takeAll {} arguments).bind fun a =>
    a.settle.bind fun a => a.settled.toCommandLine

end DataInlay
