/-
# DataInlay.Run — one run of the program

A run takes arguments, an environment and a file tree, and ends with an exit status,
the text on standard output, the events told on the way and the file tree afterwards.
It reads the configuration first, settles the options — the command line over the
file over the defaults — and then either prints the declaration or writes it to a
file and says so.

Faults are reported and end the run with status 2. Two things end it at once with
status 101, as no report can be made of them: an extension for derived output paths
that holds a slash, and a standard output that refuses the line that says what was
written. A run whose configuration or conversion has no end has none either, and no
status.
-/
import DataInlay.CommandLine.Parse
import DataInlay.Config
import DataInlay.Conversion.File
import DataInlay.Log

namespace DataInlay

/-- What surrounds a run. -/
structure Environment where
  /-- The environment asks for no colour. -/
  noColor : Bool := false
  /-- The events that are shown unless the run is asked for more words. -/
  logFilter : LogFilter := .upTo .warn
  /-- Standard output takes nothing. -/
  stdoutFull : Bool := false
  /-- The text that explains the command line, for arguments that ask for it. -/
  helpText : List String → String := fun _ => ""

/-- How a run ends. -/
inductive Ending
  | success
  /-- Help or the version was printed, or the arguments were refused. -/
  | stopped (reason : ParseStop)
  /-- An error was reported. -/
  | failed (error : InlayError)
  /-- The run was cut short. -/
  | aborted
  /-- The run does not end: it goes on reading, for as long as memory and storage last. -/
  | endless
  deriving DecidableEq

namespace Ending

/-- The exit status of a run that ends. -/
def status : Ending → Option Nat
  | success | stopped .help | stopped .version => some 0
  | stopped (.refused _) | failed _ => some 2
  | aborted => some 101
  | endless => none

end Ending

/-- What is left of a run. Of one that does not end, it is what was there before it
had read any line of its input. -/
structure Outcome where
  ending : Ending
  /-- What was printed on standard output. -/
  stdout : Bytes := []
  /-- The events of the run that were to be shown. -/
  events : List LogEvent := []
  files : FileTree

namespace Outcome

/-- Puts an event in front of those of the outcome. -/
def after (o : Outcome) (event : LogEvent) : Outcome := { o with events := event :: o.events }

/-- Keeps the events that a filter shows. -/
def showing (o : Outcome) (filter : LogFilter) : Outcome :=
  { o with events := o.events.filter filter }

end Outcome

/-! ## Settling the configuration and the options -/

/-- The path of the configuration file to read, if there is one to read. -/
def configPath? (c : CommandLine) (files : FileTree) : Option Path :=
  match c.config? with
  | some p => some (.ofText p)
  | none => Config.resolvePath files ((c.path?.map Path.ofText).getD files.workingPath)

/-- The configuration, with the path that it was read from if there was a file. -/
def loadConfig (c : CommandLine) (files : FileTree) :
    Option Path × Conclusion InlayError Config :=
  match configPath? c files with
  | none => (none, .ok {})
  | some p => (some p, Config.loadFile files p)

/-- The path of the output: the one given, or else the one that belongs to the input
under the configured extension. -/
def outputOf? (c : CommandLine) (config : Config) : Option Path :=
  match c.output? with
  | some given => some (.ofText given)
  | none => (Path.ofText c.input).outputPath? config.extension

/-- The symbol and the width to use: those of the command line, or else those of the
configuration. -/
def resolveOptions (c : CommandLine) (config : Config) : Options where
  symbol := c.symbol?.getD config.symbol
  width := c.width?.or config.width

/-! ## The two modes -/

/-- Prints the declaration of the input's data. -/
def runToStdout (c : CommandLine) (options : Options) (env : Environment) (files : FileTree) :
    Outcome :=
  let input := Path.ofText c.input
  match openInput files input with
  | .error e => { ending := .failed e, files }
  | .ok (_, content) =>
    let stdout := LineBuffer.ofDevice (if env.stdoutFull then .full else .store #[])
    let course := convert content stdout options
    { ending := match course.result with
        | .ok _ => .success
        | .error e => .failed (e.withInputPath input.display)
        | .endless => .endless
      stdout := course.sink.buffer.device.content.toList
      events := course.dropped.map .droppedLine
      files }

/-- The word that opens the line about a written file, green unless colours are off. -/
def generatedWord (colored : Bool) : String :=
  if colored then "\x1b[32mGenerated\x1b[39m" else "Generated"

/-- The line about a written file. -/
def generatedLine (colored : Bool) (output : Path) (s : Summary) : String :=
  generatedWord colored ++ " " ++ output.display ++ " (" ++ toString s.bytesEmitted
    ++ " bytes, " ++ toString s.bytesRemoved ++ " removed)\n"

/-- Writes the declaration of the input's data to a file. -/
def runToFile (c : CommandLine) (output : Path) (options : Options) (env : Environment)
    (files : FileTree) : Outcome :=
  let input := Path.ofText c.input
  let report := convertFile files input output options
  let events := [.resolvedOptions options.symbol output.display,
      .converting input.display output.display options.symbol]
    ++ report.dropped.map .droppedLine
  match report.result with
  | .error e => { ending := .failed e, events, files := report.files }
  | .endless => { ending := .endless, events, files := report.files }
  | .ok summary =>
    let told := generatedLine (!c.noColor && !env.noColor) output summary
    let refused := !c.quiet && env.stdoutFull
    { ending := if refused then .aborted else .success
      stdout := if c.quiet || refused then [] else utf8 told
      events := events ++ [.converted summary]
      files := report.files }

/-! ## The run -/

/-- Carries out a command line with the given configuration. -/
def CommandLine.runWith (c : CommandLine) (config : Config) (env : Environment)
    (files : FileTree) : Outcome :=
  let options := resolveOptions c config
  if c.stdout then runToStdout c options env files
  else match outputOf? c config with
    | some output => runToFile c output options env files
    | none => { ending := .aborted, files }

/-- Reads the configuration, and carries out a command line. -/
def CommandLine.carryOut (c : CommandLine) (env : Environment) (files : FileTree) : Outcome :=
  let loaded := loadConfig c files
  let outcome : Outcome := match loaded.2 with
    | .error e => { ending := .failed e, files }
    | .endless => { ending := .endless, files }
    | .ok config => c.runWith config env files
  match loaded.1 with
  | none => outcome
  | some p => outcome.after (.loadingConfig p.display)

/-- Runs a command line. -/
def CommandLine.run (c : CommandLine) (env : Environment) (files : FileTree) : Outcome :=
  (c.carryOut env files).showing (if c.verbose then .upTo .debug else env.logFilter)

/-- The line that names the program and its version. -/
def versionLine : String := "embedjson_cli 0.1.0\n"

/-- What a stopped reading of arguments prints on standard output, if `help` is the text
that explains the command line. -/
def ParseStop.printed (help : String) : ParseStop → String
  | .help => help
  | .version => versionLine
  | .refused _ => ""

/-- Runs the program. -/
def run (arguments : List String) (env : Environment) (files : FileTree) : Outcome :=
  match CommandLine.parse arguments with
  | .ok c => c.run env files
  | .error stop => {
      ending := .stopped stop
      stdout := if env.stdoutFull then [] else utf8 (stop.printed (env.helpText arguments))
      files }

end DataInlay
