/-
# DataInlay.Error — what can go wrong, and how it is told

An error is its cause. The message, the diagnostic code and the help line are
functions of the cause; the fault of a stream or of the storage behind it is kept
as the words that describe it. Why a configuration file cannot be parsed is kept as
such: the words for it are those of the reader of the document, and are no part of
the message here.

A conversion that works on streams does not know the files behind them. Whoever
opened those attaches their paths afterwards, which turns an error of the stream
into one of the file and leaves every other error alone.
-/
import DataInlay.Stream.Sink

namespace DataInlay

/-- Why a file does not have the form of a configuration. -/
inductive ParseReason
  /-- A reason in the words of whoever read the file. -/
  | told (words : String)
  /-- A line cannot be read. -/
  | malformed (line : String)
  /-- A key is set twice. -/
  | repeated (key : String)
  /-- A key is not that of a setting. -/
  | unknownKey (key : String)
  /-- The value of a key has the wrong type, or is out of range. -/
  | wrongValue (key : String)
  deriving DecidableEq

/-- The causes of failure. -/
inductive InlayError
  /-- A fault of input or output that nothing more is known about. -/
  | io (fault : Fault)
  /-- A file cannot be opened or read. -/
  | inputUnreadable (path : String) (fault : Fault)
  /-- A file cannot be created or written. -/
  | outputUnwritable (path : String) (fault : Fault)
  /-- The stream that is read failed. -/
  | streamRead (fault : Fault)
  /-- The stream that is written failed. -/
  | streamWrite (fault : Fault)
  /-- A configuration file cannot be read, or is not text. -/
  | configUnreadable (path : String) (fault : Fault)
  /-- A configuration file does not have the form of one. -/
  | configParse (path : String) (reason : ParseReason)
  /-- A setting has a value that it must not have. -/
  | invalidConfig (problem : String)
  deriving DecidableEq

/-- The reason in words, as far as they were told. -/
def ParseReason.words : ParseReason → String
  | told words => words
  | malformed _ | repeated _ | unknownKey _ | wrongValue _ => ""

namespace InlayError

/-- The sentence that reports the error. -/
def message : InlayError → String
  | io fault => fault
  | inputUnreadable path _ => "could not read file: `" ++ path ++ "`"
  | outputUnwritable path _ => "could not write file: `" ++ path ++ "`"
  | streamRead _ => "failed to read from input stream"
  | streamWrite _ => "failed to write to output stream"
  | configUnreadable path _ => "could not read config file: `" ++ path ++ "`"
  | configParse path reason => "failed to parse config file `" ++ path ++ "`: " ++ reason.words
  | invalidConfig problem => "invalid config value: " ++ problem

/-- The code that stands for the kind of error. -/
def code : InlayError → String
  | io _ => "embedjson::io_error"
  | inputUnreadable .. => "embedjson::input_unreadable"
  | outputUnwritable .. => "embedjson::output_unwritable"
  | streamRead _ => "embedjson::stream_read"
  | streamWrite _ => "embedjson::stream_write"
  | configUnreadable .. => "embedjson::config_unreadable"
  | configParse .. => "embedjson::config_parse"
  | invalidConfig _ => "embedjson::invalid_config"

/-- What the reader of the report may do about it. -/
def help? : InlayError → Option String
  | inputUnreadable .. => some "check that the input path exists and is readable"
  | outputUnwritable .. => some "check that the output directory exists and is writable"
  | configUnreadable .. => some "check the path passed to `--config`"
  | configParse .. => some "supported keys are `symbol`, `extension` and `bytes_per_line`"
  | io _ | streamRead _ | streamWrite _ | invalidConfig _ => none

/-- The path that the error names. -/
def path? : InlayError → Option String
  | inputUnreadable path _ | outputUnwritable path _
  | configUnreadable path _ | configParse path _ => some path
  | io _ | streamRead _ | streamWrite _ | invalidConfig _ => none

/-- The fault behind the error. A bare fault has nothing behind it. -/
def fault? : InlayError → Option Fault
  | inputUnreadable _ fault | outputUnwritable _ fault | configUnreadable _ fault
  | streamRead fault | streamWrite fault => some fault
  | io _ | configParse .. | invalidConfig _ => none

/-- Names the file behind the stream that was read. -/
def withInputPath (path : String) : InlayError → InlayError
  | streamRead fault => inputUnreadable path fault
  | other => other

/-- Names the file behind the stream that was written. -/
def withOutputPath (path : String) : InlayError → InlayError
  | streamWrite fault => outputUnwritable path fault
  | other => other

end InlayError

end DataInlay
