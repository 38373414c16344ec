/-
# DataInlay.Main — the program

The program is the run of the library on what the operating system shows. Before the
run it takes down what stands at the paths that the run may follow; after it, it
stores the one file that the run wrote. Nothing is decided here, save that a standard
output that turns out to refuse the text makes the run count as one with such an
output.
-/
import DataInlay.Run

namespace DataInlay

/-! ## Taking down what stands where -/

/-- The absolute path of a location. -/
def Location.absolute (l : Location) : String :=
  if l = [] then "/" else Path.display (l.flatMap (Ascii.slash :: ·))

/-- The devices that have a place of their own. -/
def deviceAt? (l : Location) : Option Entry :=
  if l = [utf8 "dev", utf8 "null"] then some .null
  else if l = [utf8 "dev", utf8 "full"] then some .full
  else none

/-- What stands at a location. -/
def observe (l : Location) : IO (Option Entry) := do
  if let some device := deviceAt? l then return some device
  let path := Location.absolute l
  try
    let _ ← IO.FS.realPath (path ++ "/.")
    return some .directory
  catch _ =>
    try
      return some (.file (← IO.FS.readBinFile path).data.toList)
    catch _ => return none

/-- Takes down what stands along a path. -/
def takeDown (t : FileTree) (p : Path) : IO FileTree :=
  (t.locationsOf p).foldlM (fun t l => do
    if l = [] then return t
    match ← observe l with
    | some e => return t.set l e
    | none => return t) t

/-- Takes down what a command line may lead to: the configuration, the input and then
the output. -/
def takeDownFor (c : CommandLine) (t : FileTree) : IO FileTree := do
  let root := (c.path?.map Path.ofText).getD t.workingPath
  let configs := match c.config? with
    | some p => [Path.ofText p]
    | none => Config.candidates.map fun name => root.join (.ofText name)
  let t ← (configs ++ [Path.ofText c.input]).foldlM takeDown t
  match (loadConfig c t).2 with
  | .error _ | .endless => return t
  | .ok config =>
    match outputOf? c config with
    | some output => takeDown t output
    | none => return t

/-! ## Storing and telling -/

/-- Stores the files that differ from what was taken down. -/
def storeChanges (before after : FileTree) : IO Unit :=
  after.entries.forM fun (l, e) =>
    match e with
    | .file content =>
      if before.get? l = some e then pure ()
      else IO.FS.writeBinFile (Location.absolute l) ⟨content.toArray⟩
    | .directory | .null | .full => pure ()

/-- The report of an error. -/
def reportText (e : InlayError) : String :=
  let help := match e.help? with
    | some text => "\n  help: " ++ text
    | none => ""
  "error: " ++ e.code ++ "\n  " ++ e.message ++ help

/-- The name of a usage error, as the program reports it. -/
def UsageError.text : UsageError → String
  | missingRequiredArgument => "the input is missing"
  | unknownArgument => "unexpected argument"
  | invalidValue => "an option or a path has no value"
  | valueValidation => "the number of literals in a row must be a positive number"
  | argumentConflict => "an argument is given twice or excludes another"
  | tooManyValues => "a flag takes no value"

/-- Prints what a run left on standard output; false when that is refused. -/
def printed (o : Outcome) : IO Bool := do
  try
    let out ← IO.getStdout
    out.write ⟨o.stdout.toArray⟩
    out.flush
    return true
  catch _ => return false

/-- Tells how a run ended, on the error stream. -/
def tellEnding (ending : Ending) : IO Unit :=
  match ending with
  | .failed e => IO.eprintln (reportText e)
  | .stopped (.refused e) => IO.eprintln ("error: " ++ e.text)
  | .aborted => IO.eprintln "the run was cut short"
  | .success | .stopped .help | .stopped .version | .endless => pure ()

/-- The arguments and options, each with what it is for. -/
def requests : List (String × String) := [
  ("    <INPUT>", "Input file to convert"),
  ("-o, --output <OUTPUT>", "Output file. Defaults to the input path with its extension "
    ++ "replaced (`foo.json` becomes `foo.cpp`)"),
  ("-s, --symbol <SYMBOL>",
    "Name of the generated array. Defaults to the config value or `json`"),
  ("    --stdout", "Write the declaration to standard output instead of a file"),
  ("    --bytes-per-line <N>", "Start a new line after this many byte literals"),
  ("    --config <FILE>", "Explicit config file. Skips discovery of `embedjson.toml`"),
  ("-p, --path <DIR>", "Directory searched for `embedjson.toml`, `.embedjson.toml` and "
    ++ "`.config/embedjson.toml`. Defaults to the current directory"),
  ("-v, --verbose", "Enable debug logging on stderr"),
  ("-q, --quiet", "Do not print a summary after writing the output file"),
  ("    --no-color", "Disable colored output"),
  ("-h, --help", "Print help"),
  ("-V, --version", "Print version")]

/-- What the program does, in a sentence. -/
def about : String := "Embed a commented JSON file in C/C++ source as a byte array."

/-- What the program does, at length. -/
def longAbout : String := String.intercalate "\n" [
  "embedjson strips comments and insignificant whitespace from a data file and writes the "
    ++ "remaining bytes as a `static const char <symbol>[] = \x7b...\x7d;` declaration.",
  "",
  "Text inside double quotes is kept exactly as written. The emitted array always ends with "
    ++ "a single newline byte.",
  "",
  "Examples:",
  "  embedjson device.json             Write device.cpp with symbol `json`",
  "  embedjson device.json -s device   Name the array `device`",
  "  embedjson device.json --stdout  Print the declaration instead"]

/-- The text that explains the command line: at length for the long name of the request,
and a line for each argument and option. -/
def helpText (arguments : List String) : String :=
  let long := (arguments.find? fun a => a == "--help" || a == "-h") == some "--help"
  let request := fun (usage, purpose) => "  " ++ usage ++ "\n          " ++ purpose
  String.intercalate "\n" <|
    [if long then longAbout else about, "", "Usage: embedjson [OPTIONS] <INPUT>", ""]
      ++ requests.map request ++ [""]

/-- Runs the program on the arguments, and returns the exit status, unless the run is one
that does not end. -/
def runProgram (arguments : List String) : IO (Option Nat) := do
  let directory := Path.ofText (toString (← IO.currentDir))
  let empty : FileTree := { entries := [], workingDirectory := FileTree.names directory }
  let env : Environment := {
    noColor := (← IO.getEnv "NO_COLOR").isSome
    logFilter := ((← IO.getEnv "RUST_LOG").bind LogFilter.ofSetting?).getD (.upTo .warn)
    helpText }
  let files ← match CommandLine.parse arguments with
    | .ok c => do takeDownFor c (← takeDown empty directory)
    | .error _ => pure empty
  let outcome := run arguments env files
  outcome.events.forM fun e => IO.eprintln e.line
  let ending ← try
      storeChanges files outcome.files
      if ← printed outcome then pure outcome.ending
      else pure (run arguments { env with stdoutFull := true } files).ending
    catch fault =>
      let path := match CommandLine.parse arguments with
        | .ok c => match (loadConfig c files).2 with
          | .ok config => ((outputOf? c config).getD []).display
          | .error _ | .endless => c.input
        | .error _ => ""
      pure (.failed (.outputUnwritable path (toString fault)))
  tellEnding ending
  return ending.status

end DataInlay

/-- Runs the program on its arguments. -/
def main (arguments : List String) : IO UInt32 := do
  match ← DataInlay.runProgram arguments with
  | some status => return UInt32.ofNat status
  | none =>
    repeat IO.sleep 1000
    return 0
