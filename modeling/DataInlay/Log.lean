/-
# DataInlay.Log — what a run tells about itself

A run reports its steps as events, each at a level and with the part of the program that
it comes from. A filter decides which are shown. The usual one shows events up to a level:
`warn`, above which no event lies, or `debug` for a run that is asked for more words.

A setting of the environment may ask for another. It lists directives: a level, by its
name or number, for all events; the beginning of a part's name, with a level behind an
equals sign, for those of that part; a part without a level, for all of its events. Of the
directives for an event, the one that names the most of its part counts.
-/
import DataInlay.Conversion

namespace DataInlay

/-! ## Levels -/

/-- How much is told, from nothing to everything. -/
inductive LogLevel
  | off
  | error
  | warn
  | info
  | debug
  | trace
  deriving DecidableEq

namespace LogLevel

/-- All levels, by rank. -/
def all : List LogLevel := [off, error, warn, info, debug, trace]

/-- The place of a level among all. -/
def rank (level : LogLevel) : Nat := all.idxOf level

/-- A level's name, as shown in front of an event. -/
def name : LogLevel → String
  | off => "OFF"
  | error => "ERROR"
  | warn => "WARN"
  | info => "INFO"
  | debug => "DEBUG"
  | trace => "TRACE"

/-- The level with a name, in either case, or with a number. -/
def ofName? (name : String) : Option LogLevel :=
  all.find? fun level => level.name == name.toUpper || toString level.rank == name

end LogLevel

/-! ## Events -/

/-- The steps that a run reports. -/
inductive LogEvent
  /-- A configuration file is about to be read. -/
  | loadingConfig (path : String)
  /-- The options and the output path are settled. -/
  | resolvedOptions (symbol output : String)
  /-- A conversion between files is about to start. -/
  | converting (input output symbol : String)
  /-- The line with this number cleaned to nothing. -/
  | droppedLine (number : Nat)
  /-- A conversion between files has succeeded. -/
  | converted (summary : Summary)

namespace LogEvent

/-- The level of an event. -/
def level : LogEvent → LogLevel
  | droppedLine _ => .trace
  | loadingConfig _ | resolvedOptions .. | converting .. | converted _ => .debug

/-- The part of the program that an event comes from. -/
def part : LogEvent → String
  | resolvedOptions .. => "embedjson"
  | loadingConfig _ => "embedjson_core::config"
  | converting .. | droppedLine _ | converted _ => "embedjson_core::convert"

/-- The event in words, with its fields. -/
def text : LogEvent → String
  | loadingConfig path => "loading config path=" ++ path
  | resolvedOptions symbol output =>
    "resolved options symbol=" ++ symbol ++ " output=" ++ output
  | converting input output symbol =>
    "converting file input=" ++ input ++ " output=" ++ output ++ " symbol=" ++ symbol
  | droppedLine number => "dropped empty line line=" ++ toString number
  | converted s =>
    "conversion finished lines_read=" ++ toString s.linesRead
      ++ " lines_emitted=" ++ toString s.linesEmitted
      ++ " bytes_read=" ++ toString s.bytesRead
      ++ " bytes_emitted=" ++ toString s.bytesEmitted

/-- The line that shows the event. -/
def line (e : LogEvent) : String := e.level.name ++ " " ++ e.text

end LogEvent

/-! ## Filters -/

/-- Which events are shown. -/
abbrev LogFilter := LogEvent → Bool

/-- Shows the events up to a level. -/
def LogFilter.upTo (level : LogLevel) : LogFilter := fun e => e.level.rank ≤ level.rank

/-- What a setting asks for. -/
inductive LogDirective
  /-- Of the parts whose names begin so, the events up to a level. -/
  | part (start : String) (level : LogLevel)
  /-- Spans of a certain name. A run has no spans, so there is nothing to show. -/
  | span

namespace LogDirective

/-- The directive with a text, unless it has no form of one. -/
def ofText? (text : String) : Option LogDirective :=
  if text.contains '[' then some span
  else match text.splitOn "=" with
    | [one] => some ((LogLevel.ofName? one).elim (part one .trace) (part "" ·))
    | [start, level] =>
      if start = "" then none
      else if level = "" then some (part start .trace)
      else (LogLevel.ofName? level).map (part start ·)
    | _ => none

/-- How much of the name of an event's part is named, and the level, if the directive is
for the event. -/
def matched? (e : LogEvent) : LogDirective → Option (Nat × LogLevel)
  | part start level => if e.part.startsWith start then some (start.length, level) else none
  | span => none

end LogDirective

/-- Shows the events that the directives ask for: of those for an event, the one that names
the most counts, and of these the last. -/
def LogFilter.ofDirectives (directives : List LogDirective) : LogFilter := fun e =>
  let best := (directives.filterMap (·.matched? e)).foldl (fun best next =>
    match best with
    | some (named, level) => some (if next.1 < named then (named, level) else next)
    | none => some next) none
  best.any fun (_, level) => LogFilter.upTo level e

/-- The filter that a setting asks for, unless it cannot be read. One without a directive
asks for errors. -/
def LogFilter.ofSetting? (setting : String) : Option LogFilter :=
  match (setting.splitOn ",").filter (· ≠ "") with
  | [] => some (.upTo .error)
  | texts => (texts.mapM LogDirective.ofText?).map .ofDirectives

end DataInlay
