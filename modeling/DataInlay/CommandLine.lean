/-
# DataInlay.CommandLine — what a command line asks for

A command line names an input and up to five options with a value, and raises any of
four flags. Two more flags ask for help or for the version instead. Every option and
flag has a long name, and some have a letter as well.

Texts are kept as they were given; which of them are paths is for the run to say.
-/
import DataInlay.Declaration.Layout

namespace DataInlay

/-- The requests of a command line. -/
structure CommandLine where
  /-- The path of the input. -/
  input : String
  /-- The path of the output. -/
  output? : Option String := none
  /-- The name of the array. -/
  symbol? : Option String := none
  /-- How many literals a row holds. -/
  width? : Option Width := none
  /-- The path of the configuration file. -/
  config? : Option String := none
  /-- The directory in which a configuration file is looked for. -/
  path? : Option String := none
  /-- The declaration goes to standard output. -/
  stdout : Bool := false
  /-- The run tells what it does. -/
  verbose : Bool := false
  /-- The run does not tell what it has written. -/
  quiet : Bool := false
  /-- Nothing is coloured. -/
  noColor : Bool := false
  deriving DecidableEq

/-! ## Names -/

/-- The options that take a value. -/
inductive ValueOption
  | output
  | symbol
  | bytesPerLine
  | config
  | path
  deriving DecidableEq

/-- The flags. -/
inductive Flag
  | stdout
  | verbose
  | quiet
  | noColor
  | help
  | version
  deriving DecidableEq

/-- What a name can stand for. -/
inductive Switch
  | option (o : ValueOption)
  | flag (f : Flag)
  deriving DecidableEq

namespace Switch

/-- The long names, which are written behind two dashes. -/
def longNames : List (String × Switch) := [
  ("output", .option .output), ("symbol", .option .symbol),
  ("bytes-per-line", .option .bytesPerLine), ("config", .option .config),
  ("path", .option .path), ("stdout", .flag .stdout), ("verbose", .flag .verbose),
  ("quiet", .flag .quiet), ("no-color", .flag .noColor), ("help", .flag .help),
  ("version", .flag .version)]

/-- The letters, which are written behind one dash. -/
def letters : List (Char × Switch) := [
  ('o', .option .output), ('s', .option .symbol), ('p', .option .path),
  ('v', .flag .verbose), ('q', .flag .quiet), ('h', .flag .help), ('V', .flag .version)]

/-- What a long name stands for. -/
def ofLong? (name : String) : Option Switch := longNames.lookup name

/-- What a letter stands for. -/
def ofLetter? (c : Char) : Option Switch := letters.lookup c

end Switch

/-! ## Refusals -/

/-- Why a command line is refused. -/
inductive UsageError
  /-- There is no input. -/
  | missingRequiredArgument
  /-- There is no such option or flag, or a second input. -/
  | unknownArgument
  /-- An option has no value, or a path is empty. -/
  | invalidValue
  /-- A count is no positive number, or too large. -/
  | valueValidation
  /-- An option is given twice, or together with one that excludes it. -/
  | argumentConflict
  /-- A flag is given a value. -/
  | tooManyValues
  deriving DecidableEq

/-- Why the arguments make no command line to run. -/
inductive ParseStop
  /-- Help was asked for. -/
  | help
  /-- The version was asked for. -/
  | version
  | refused (error : UsageError)
  deriving DecidableEq

end DataInlay
