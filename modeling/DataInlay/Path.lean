/-
# DataInlay.Path — path texts, and the output path that belongs to an input

A path is the bytes of its text. Its names stand between slashes; the final name
is the last one when slashes and `.` names at the end are passed over, and there
is none when nothing is left or when it is `..`. A name splits at its last dot
into stem and extension, but a dot in front of everything else starts no
extension.

The output path of an input has the same directory and stem and another extension.
It is computed on the text: the old extension's length is cut off the end of the
whole text, and what stands behind the stem of the final name of the rest is
replaced. An extension that holds a slash names no path at all (`outputPath?`).
-/
import DataInlay.Bytes

namespace DataInlay

/-- A path, as the bytes of its text. -/
abbrev Path := Bytes

/-- The extension of output paths when none is chosen. -/
def defaultExtension : String := "cpp"

/-- A text without the dots in front of it. -/
def trimDots (s : String) : String := String.ofList (s.toList.dropWhile (· == '.'))

namespace Path

/-- The path with the given text. -/
def ofText (s : String) : Path := utf8 s

/-- The path as it is shown. -/
def display (p : Path) : String := displayText p

/-! ## The final name -/

/-- Drops the slashes and the `.` names in front of a path that is read backwards.
A `.` that is the whole path goes as well. -/
def dropTrailing : Bytes → Bytes
  | Ascii.slash :: before => dropTrailing before
  | Ascii.dot :: Ascii.slash :: before => dropTrailing (Ascii.slash :: before)
  | [Ascii.dot] => []
  | before => before

/-- The parent directory's name, which is no file name. -/
def parentName : Bytes := [Ascii.dot, Ascii.dot]

/-- The text in front of the final name, and that name. -/
def splitName? (p : Path) : Option (Bytes × Bytes) :=
  let backwards := dropTrailing p.reverse
  let name := (backwards.takeWhile (· != Ascii.slash)).reverse
  let directory := (backwards.dropWhile (· != Ascii.slash)).reverse
  if name = [] ∨ name = parentName then none else some (directory, name)

/-- Splits a name at its last dot, unless that is its first byte. -/
def splitExtension (name : Bytes) : Bytes × Option Bytes :=
  let extension := (name.reverse.takeWhile (· != Ascii.dot)).reverse
  match name.reverse.dropWhile (· != Ascii.dot) with
  | _ :: last :: before => ((last :: before).reverse, some extension)
  | _ => (name, none)

/-- The extension of the final name. -/
def extension? (p : Path) : Option Bytes :=
  p.splitName?.bind fun parts => (splitExtension parts.2).2

/-! ## Changing the extension -/

/-- Puts an extension behind the stem of the final name, in place of whatever
stands there; an empty one takes its dot with it. -/
def setExtension (p : Path) (extension : Bytes) : Path :=
  match p.splitName? with
  | none => p
  | some (directory, name) =>
    directory ++ (splitExtension name).1 ++
      (if extension = [] then [] else Ascii.dot :: extension)

/-- Replaces the extension: cuts the old one's length off the end of the text, and
sets the new one on what is left. -/
def withExtension (p : Path) (extension : Bytes) : Path :=
  setExtension (p.take (p.length - (p.extension?.getD []).length)) extension

/-- The path that the declaration of an input is written to: the input's own with
another extension, whose leading dots do not count. There is none when the
extension holds a slash. -/
def outputPath? (input : Path) (extension : String) : Option Path :=
  let extension := utf8 (trimDots extension)
  if Ascii.slash ∈ extension then none else some (input.withExtension extension)

/-! ## Joining -/

/-- The path of `name` under the directory `root`. -/
def join (root name : Path) : Path :=
  if root = [] then name
  else if root.getLast? = some Ascii.slash then root ++ name
  else root ++ Ascii.slash :: name

end Path

end DataInlay
