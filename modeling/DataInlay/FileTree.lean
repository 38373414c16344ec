/-
# DataInlay.FileTree — directories, files and two devices

A file tree says what stands where. A location is the names that lead to it from
the root, and a path leads to a location by way of its names: `.` stays, `..` goes
up, any other name goes down, and each of them needs a directory to start from. A
slash at the end of a path asks for a directory just as a final `.` does.

Opening and creating fail as a whole, before anything has changed. What has been opened
can be read, though not always to an end. Creating a file empties it; what is then
written comes from the stream that is opened on it.
-/
import DataInlay.Conclusion
import DataInlay.Path
import DataInlay.Stream.Sink

namespace DataInlay

/-- A single name of a path. -/
abbrev Name := Bytes

/-- The names that lead to a place from the root. -/
abbrev Location := List Name

/-- What can stand at a location. -/
inductive Entry
  | directory
  | file (content : Bytes)
  /-- A device that is empty to read and takes whatever is written. -/
  | null
  /-- A device that takes nothing, and that can be read without end. -/
  | full
  deriving DecidableEq

/-- What there is to read at a place. -/
inductive Input
  /-- These bytes, and then the end. -/
  | bytes (content : Bytes)
  /-- Zeros, and no end of them. -/
  | endless
  deriving DecidableEq

/-- A tree of files, and the directory that paths start from. -/
structure FileTree where
  /-- What stands at each location; the root directory need not be listed. -/
  entries : List (Location × Entry)
  workingDirectory : Location

/-! ## Faults of the storage -/

namespace Fault

/-- Nothing stands there. -/
def notFound : Fault := "No such file or directory (os error 2)"

/-- A name was asked for in something that is no directory. -/
def notADirectory : Fault := "Not a directory (os error 20)"

/-- A directory was opened like a file. -/
def isADirectory : Fault := "Is a directory (os error 21)"

/-- A name or a path has too many bytes. -/
def nameTooLong : Fault := "File name too long (os error 36)"

/-- A path holds a byte that ends path texts. -/
def nulInPath : Fault := "file name contained an unexpected NUL byte"

/-- No more bytes can be stored. -/
def storageFull : Fault := "No space left on device (os error 28)"

end Fault

namespace FileTree

/-! ## Looking up -/

/-- What stands at a location. The root is always a directory. -/
def get? (t : FileTree) (l : Location) : Option Entry :=
  if l = [] then some .directory else t.entries.lookup l

/-- Puts an entry at a location, in place of what stood there. -/
def set (t : FileTree) (l : Location) (e : Entry) : FileTree :=
  { t with entries := (l, e) :: t.entries.filter (·.1 != l) }

theorem get?_set (t : FileTree) {l : Location} (h : l ≠ []) (e : Entry) (k : Location) :
    (t.set l e).get? k = if k = l then some e else t.get? k := by
  have others : ∀ entries : List (Location × Entry), k ≠ l →
      (entries.filter (·.1 != l)).lookup k = entries.lookup k := by
    intro entries hk
    induction entries with
    | nil => rfl
    | cons head rest ih =>
      obtain ⟨place, held⟩ := head
      by_cases hl : place = l
      · subst hl
        have : (k == place) = false := by simpa using hk
        simp [ih, List.lookup_cons, this]
      · simp [hl, ih, List.lookup_cons]
  by_cases hk : k = l
  · subst hk
    simp [get?, set, h]
  · have : (k == l) = false := by simpa using hk
    simp [get?, set, hk, List.lookup_cons, this, others]

/-! ## Following paths -/

/-- How many bytes a name may have. -/
def longestName : Nat := 255

/-- How many bytes a path may have. -/
def longestPath : Nat := 4095

/-- The names of a path. A slash at the end counts as a final `.`. -/
def names (p : Path) : List Name :=
  (p.splitOn Ascii.slash).filter (· != [])
    ++ if p.getLast? = some Ascii.slash then [[Ascii.dot]] else []

/-- Where a name leads from a directory. -/
def stepTo (l : Location) (name : Name) : Except Fault Location :=
  if name = [Ascii.dot] then .ok l
  else if name = Path.parentName then .ok l.dropLast
  else if longestName < name.length then .error .nameTooLong
  else .ok (l ++ [name])

/-- Where names lead from a location. Each step starts from a directory, but the
last may lead to nothing. -/
def walk (t : FileTree) (l : Location) : List Name → Except Fault Location
  | [] => .ok l
  | name :: rest =>
    match t.get? l with
    | some .directory => (stepTo l name).bind fun next => t.walk next rest
    | some _ => .error .notADirectory
    | none => .error .notFound

/-- The locations that a path leads through, the last of them its own. -/
def locationsOf (t : FileTree) (p : Path) : List Location :=
  let start := if p.head? = some Ascii.slash then [] else t.workingDirectory
  (names p).foldl (fun seen name =>
    match stepTo (seen.headD start) name with
    | .ok l => l :: seen
    | .error _ => seen) [start] |>.reverse

/-- The location that a path leads to; nothing need stand there. -/
def locate (t : FileTree) (p : Path) : Except Fault Location :=
  if p = [] then .error .notFound
  else if 0 ∈ p then .error .nulInPath
  else if longestPath < p.length then .error .nameTooLong
  else t.walk (if p.head? = some Ascii.slash then [] else t.workingDirectory) (names p)

/-- Opens what a path leads to and reads from it for the first time: its location, and
what there is to read. -/
def openInput (t : FileTree) (p : Path) : Except Fault (Location × Input) :=
  (t.locate p).bind fun l =>
    match t.get? l with
    | some (.file content) => .ok (l, .bytes content)
    | some .null => .ok (l, .bytes [])
    | some .full => .ok (l, .endless)
    | some .directory => .error .isADirectory
    | none => .error .notFound

/-- Reads all that a path leads to. -/
def read (t : FileTree) (p : Path) : Conclusion Fault Bytes :=
  match t.openInput p with
  | .error fault => .error fault
  | .ok (_, .bytes content) => .ok content
  | .ok (_, .endless) => .endless

/-- A regular file stands at the path. -/
def isFile (t : FileTree) (p : Path) : Bool :=
  match t.locate p with
  | .ok l => match t.get? l with
    | some (.file _) => true
    | _ => false
  | .error _ => false

/-! ## Changing the tree -/

/-- Creates a file or empties it; a device stays what it is. Returns where it is. -/
def create (t : FileTree) (p : Path) : Except Fault (Location × FileTree) :=
  (t.locate p).bind fun l =>
    match t.get? l with
    | none | some (.file _) => .ok (l, t.set l (.file []))
    | some .null | some .full => .ok (l, t)
    | some .directory => .error .isADirectory

/-- Writes a whole file, in place of what it held. -/
def write (t : FileTree) (p : Path) (content : Bytes) : Except Fault FileTree :=
  (t.create p).map fun made =>
    match made.2.get? made.1 with
    | some (.file _) => made.2.set made.1 (.file content)
    | _ => made.2

/-- Makes the directories that names lead through where there is nothing yet. -/
def makeDirectoriesFrom (t : FileTree) (l : Location) : List Name → Except Fault FileTree
  | [] => .ok t
  | name :: rest =>
    (stepTo l name).bind fun next =>
      match t.get? next with
      | some .directory => t.makeDirectoriesFrom next rest
      | none => (t.set next .directory).makeDirectoriesFrom next rest
      | some _ => .error .notADirectory

/-- Makes a directory and those above it. -/
def makeDirectories (t : FileTree) (p : Path) : Except Fault FileTree :=
  t.makeDirectoriesFrom (if p.head? = some Ascii.slash then [] else t.workingDirectory) (names p)

/-- Removes a file. -/
def remove (t : FileTree) (p : Path) : Except Fault FileTree :=
  (t.locate p).bind fun l =>
    match t.get? l with
    | none => .error .notFound
    | some .directory => .error .isADirectory
    | some _ => .ok { t with entries := t.entries.filter (·.1 != l) }

/-- The path of the working directory. -/
def workingPath (t : FileTree) : Path :=
  if t.workingDirectory = [] then [Ascii.slash]
  else t.workingDirectory.flatMap (Ascii.slash :: ·)

end FileTree

end DataInlay
