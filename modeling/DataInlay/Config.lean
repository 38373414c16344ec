/-
# DataInlay.Config — settings read from a file

A configuration file is a flat TOML document with up to three settings. Loading
one fails in three ways, in this order: the file cannot be read as text; it is no
flat document of known keys with values of the right type; a setting has a value
that makes no sense. The last are looked at in the order symbol, extension, width,
whatever their order in the file. A file that has no end is read for ever.

Discovery looks for three candidates under a directory. The first that is a regular
file is the configuration, and it is never passed over because of what it holds.
-/
import DataInlay.Conversion
import DataInlay.FileTree
import DataInlay.Toml.Document

namespace DataInlay

/-- The settings that a file may give. -/
structure Config where
  /-- The name of the array. -/
  symbol? : Option String := none
  /-- The extension of output paths, with or without dots in front. -/
  extension? : Option String := none
  /-- How many literals a row holds. -/
  bytesPerLine? : Option Nat := none
  deriving DecidableEq

namespace Config

/-! ## The settings in use -/

/-- The symbol to use when none is given elsewhere. -/
def symbol (c : Config) : String := c.symbol?.getD defaultSymbol

/-- The extension of output paths, without dots in front. -/
def extension (c : Config) : String :=
  match c.extension? with
  | none => defaultExtension
  | some given => trimDots given

/-- The wrap width, if one is set. -/
def width (c : Config) : Option Width := c.bytesPerLine?.bind Width.ofNat?

/-! ## From a document to settings -/

/-- Why a document gives no settings. -/
inductive Problem
  /-- It is no flat document. -/
  | document (problem : Toml.Problem)
  /-- A key is not among the three. -/
  | unknownKey (key : String)
  /-- A value has the wrong type, or is out of range. -/
  | wrongValue (key : String)
  | emptySymbol
  | emptyExtension
  | zeroWidth
  deriving DecidableEq

/-- How many values a width can have. -/
def widthLimit : Nat := UInt64.size

/-- Takes a setting over. -/
def put (c : Config) (key : String) (value : Toml.Value) : Except Problem Config :=
  match key, value with
  | "symbol", .text s => .ok { c with symbol? := some s }
  | "extension", .text s => .ok { c with extension? := some s }
  | "bytes_per_line", .integer n =>
    if 0 ≤ n ∧ n < widthLimit then .ok { c with bytesPerLine? := some n.toNat }
    else .error (.wrongValue key)
  | "symbol", _ | "extension", _ | "bytes_per_line", _ => .error (.wrongValue key)
  | _, _ => .error (.unknownKey key)

/-- The first setting whose value makes no sense: an empty symbol, an extension of
nothing but dots, a width of zero. -/
def offender? (c : Config) : Option Problem :=
  if c.symbol? = some "" then some .emptySymbol
  else if c.extension?.map trimDots = some "" then some .emptyExtension
  else if c.bytesPerLine? = some 0 then some .zeroWidth
  else none

/-- The settings of a document. -/
def ofDocument (document : String) : Except Problem Config :=
  match Toml.settings document with
  | .error problem => .error (.document problem)
  | .ok settings =>
    (settings.foldlM (fun (c : Config) setting => c.put setting.1 setting.2) {}).bind fun c =>
      match c.offender? with
      | some problem => .error problem
      | none => .ok c

namespace Problem

/-- The error that a problem with the file at a path is reported as. -/
def toError (path : String) : Problem → InlayError
  | document (.malformed line) => .configParse path (.malformed line)
  | document (.repeated key) => .configParse path (.repeated key)
  | unknownKey key => .configParse path (.unknownKey key)
  | wrongValue key => .configParse path (.wrongValue key)
  | emptySymbol => .invalidConfig "`symbol` must not be empty"
  | emptyExtension => .invalidConfig "`extension` must not be empty"
  | zeroWidth => .invalidConfig "`bytes_per_line` must be greater than zero"

end Problem

/-! ## From a file to settings -/

/-- Loads the configuration file at a path. -/
def loadFile (t : FileTree) (p : Path) : Conclusion InlayError Config :=
  match t.read p with
  | .error fault => .error (.configUnreadable p.display fault)
  | .endless => .endless
  | .ok bytes =>
    match text? bytes with
    | none => .error (.configUnreadable p.display "stream did not contain valid UTF-8")
    | some document => .ofResult ((ofDocument document).mapError (Problem.toError p.display))

/-- The candidates for the configuration file under a directory; the first wins. -/
def candidates : List String := ["embedjson.toml", ".embedjson.toml", ".config/embedjson.toml"]

/-- The path of the configuration file under a directory. -/
def resolvePath (t : FileTree) (root : Path) : Option Path :=
  (candidates.map fun name => root.join (.ofText name)).find? t.isFile

/-- Loads the configuration file under a directory, if there is one. -/
def load (t : FileTree) (root : Path) : Conclusion InlayError (Option Config) :=
  match resolvePath t root with
  | none => .ok none
  | some p => (loadFile t p).map some

end Config

end DataInlay
