/-
# DataInlay.Proofs.BetweenFiles — a conversion from one file to another

What becomes of a conversion between two places is settled in this order: whether the
input can be read, whether the output can be created, and whether what is created takes
what is written. The first two leave all files as they were, and the error names the path
that it is about; then an ordinary output takes the whole declaration, whatever it held
before, and a device that takes nothing lets the conversion fail with its own path. That
the two paths do not lead to one file matters only for the third.

`convertFile_between_files` is the whole of it. The buffer in front of the output shows in
none of this: a store takes all pieces in the end (`transform_to_store`), and a full
device refuses them at the latest when they are flushed (`transform_to_full`).
-/
import DataInlay.Proofs.DeclarationText
import DataInlay.Proofs.FileAccess
import DataInlay.Proofs.FullDevices

namespace DataInlay

/-! ## Writing to a store -/

/-- A conversion to an empty store succeeds and stores the declaration of the input's data. -/
theorem transform_to_store (input : Bytes) (options : Options) :
    ∃ b, transform (.ofBytes input) (BlockBuffer.ofDevice (.store #[])) options
        = ⟨b, emptyNumbers 1 (lines input), .ok (.ofLines (lines input))⟩
      ∧ b.stored = declaration options.symbol options.width (dataOf input) := by
  apply transform_of_stored
  intro pieces
  rw [(BlockBuffer.storeAll_spec pieces).1]
  exact BlockBuffer.flush_storeAll pieces

/-! ## From path to path -/

section ConvertFile

variable {t : FileTree} {input output : Path} (options : Options)

/-- An input that cannot be read settles the conversion, whatever the output is. -/
theorem convertFile_of_unreadable {fault : Fault} (hinput : t.openInput input = .error fault) :
    convertFile t input output options
      = { files := t, result := .error (.inputUnreadable input.display fault) } := by
  rw [convertFile, openInput, hinput]
  rfl

section Opened

variable {source target : Location} {opened : Input} {created : FileTree}
  (hinput : t.openInput input = .ok (source, opened))

include hinput

/-- An output that cannot be created settles the conversion of what can be read. -/
theorem convertFile_of_uncreatable {fault : Fault} (houtput : t.create output = .error fault) :
    convertFile t input output options
      = { files := t, result := .error (.outputUnwritable output.display fault) } := by
  rw [convertFile, openInput, hinput, createOutput, houtput]
  rfl

variable (houtput : t.create output = .ok (target, created))

include houtput

/-- An output that is created as a file is left with what the conversion stores in it. -/
theorem convertFile_to_file {old : Bytes} (hfile : created.get? target = some (.file old)) :
    convertFile t input output options =
      let course := convertToFile opened (source = target) options
      { files := created.set target (.file course.sink.stored)
        dropped := course.dropped
        result := course.result.mapError (.withPaths input output) } := by
  rw [convertFile, openInput, hinput, createOutput, houtput]
  dsimp only [Except.mapError]
  rw [hfile]
  rfl

/-- A device is written to and stays what it is. -/
theorem convertFile_to_device {device : Entry} (hdevice : created.get? target = some device)
    (hno : ∀ old, device ≠ .file old) :
    convertFile t input output options =
      let course := convert opened (BlockBuffer.ofDevice device.device) options
      { files := created
        dropped := course.dropped
        result := course.result.mapError (.withPaths input output) } := by
  rw [convertFile, openInput, hinput, createOutput, houtput]
  dsimp only [Except.mapError]
  rw [hdevice]
  cases device with
  | file old => exact absurd rfl (hno old)
  | directory | null | full => rfl

end Opened

variable {source : Location} {content : Bytes}
  (hinput : t.openInput input = .ok (source, .bytes content))

include hinput

/-- An output that is created apart from the input holds the declaration in the end. -/
theorem convertFile_of_created {target : Location} {created : FileTree}
    (houtput : t.create output = .ok (target, created))
    (hfile : created.get? target = some (.file [])) (hother : source ≠ target) :
    convertFile t input output options
      = { files := created.set target
            (.file (declaration options.symbol options.width (dataOf content)))
          dropped := emptyNumbers 1 (lines content)
          result := .ok (.ofLines (lines content)) } := by
  obtain ⟨b, htransform, hstored⟩ := transform_to_store content options
  have apart : convertToFile (.bytes content) (source = target) options
      = (transform (.ofBytes content) (BlockBuffer.ofDevice (.store #[])) options).course := by
    rw [decide_eq_false hother]
    rfl
  rw [convertFile_to_file options hinput houtput hfile, apart, htransform, ← hstored]
  rfl

/-- It is all that such a conversion changes. -/
theorem convertFile_puts_output {l : Location} (hl : t.locate output = .ok l)
    (hcreatable : t.get? l = none ∨ ∃ old, t.get? l = some (.file old)) (hother : source ≠ l) :
    let report := convertFile t input output options
    report.result = .ok (.ofLines (lines content))
      ∧ report.files.workingDirectory = t.workingDirectory
      ∧ ∀ k, report.files.get? k = if k = l
          then some (.file (declaration options.symbol options.width (dataOf content)))
          else t.get? k := by
  intro report
  have hroot := FileTree.ne_root_of_not_directory (FileTree.not_directory_of_creatable hcreatable)
  have emptied : (t.set l (.file [])).get? l = some (.file []) := by
    rw [FileTree.get?_set t hroot, if_pos rfl]
  have settled : report = _ := convertFile_of_created options hinput
    (FileTree.create_of_creatable hl hcreatable) emptied hother
  refine ⟨congrArg FileReport.result settled, ?_, ?_⟩
  · rw [settled]
    rfl
  · intro k
    rw [settled, FileTree.get?_set _ hroot, FileTree.get?_set _ hroot]
    split <;> rfl

/-- An output that takes nothing lets the conversion fail with its path. -/
theorem convertFile_of_full {target : Location} (houtput : t.create output = .ok (target, t))
    (hfull : t.get? target = some .full) :
    (convertFile t input output options).result
        = .error (.outputUnwritable output.display Fault.storageFull)
      ∧ (convertFile t input output options).files = t := by
  rw [convertFile_to_device options hinput houtput hfull nofun]
  refine ⟨?_, rfl⟩
  dsimp only [convert_bytes, Report.course, Entry.device]
  rw [transform_to_full content options]
  rfl

end ConvertFile

/-- **Conversion from one file to another.** An input that is missing or a directory is
the error, with its path, whatever the output is. Otherwise, an output whose place cannot be
reached or is a directory is the error, with its path. Neither changes a file. An output
that is a file, or is not there, is left with the text of the declaration and nothing
else, the summary is that of the conversion in memory, and nothing changes for paths that
lead elsewhere. A device that takes nothing is the error again, with its path. -/
theorem convertFile_between_files {t : FileTree} {input output : Path} (options : Options)
    (hother : ¬ t.SameFile input output) :
    let report := convertFile t input output options
    (t.found? input = none ∨ t.found? input = some .directory →
      report.files = t ∧ ∃ fault, t.openInput input = .error fault
        ∧ report.result = .error (.inputUnreadable input.display fault))
    ∧ ∀ content, t.found? input = some (.file content) →
      ((∃ fault, t.locate output = .error fault) ∨ t.found? output = some .directory →
        report.files = t ∧ ∃ fault, t.create output = .error fault
          ∧ report.result = .error (.outputUnwritable output.display fault))
      ∧ (∀ l, t.locate output = .ok l →
          t.get? l = none ∨ (∃ old, t.get? l = some (.file old)) →
        ∃ summary text,
          (transform (.ofBytes content) ({} : BoundedSink) options).result = .ok summary
          ∧ report.result = .ok summary
          ∧ transformToString content options = .ok text
          ∧ (∀ k, report.files.get? k = if k = l then some (.file (utf8 text)) else t.get? k)
          ∧ report.files.found? output = some (.file (utf8 text))
          ∧ ∀ p, t.locate p ≠ .ok l → report.files.found? p = t.found? p)
      ∧ (t.found? output = some .full →
        report.files = t
          ∧ report.result = .error (.outputUnwritable output.display Fault.storageFull)) := by
  intro report
  constructor
  · intro hinput
    obtain ⟨fault, hfault⟩ := FileTree.openInput_of_unreadable hinput
    have settled : report = _ := convertFile_of_unreadable options hfault
    exact ⟨congrArg FileReport.files settled, fault, hfault, congrArg FileReport.result settled⟩
  intro content hcontent
  obtain ⟨source, hsource, hread⟩ := FileTree.locate_of_found? hcontent
  have hinput := FileTree.openInput_of_file hsource hread
  refine ⟨?uncreatable, ?created, ?full⟩
  case uncreatable =>
    intro houtput
    obtain ⟨fault, hfault⟩ := FileTree.create_of_uncreatable houtput
    have settled : report = _ := convertFile_of_uncreatable options hinput hfault
    exact ⟨congrArg FileReport.files settled, fault, hfault, congrArg FileReport.result settled⟩
  case created =>
    intro l hl hcreatable
    have apart : source ≠ l := by
      rintro rfl
      exact hother ⟨source, content, hsource, hl, hread⟩
    obtain ⟨text, htext, hutf8⟩ := transformToString_eq content options
    obtain ⟨hresult, hworking, hheld⟩ :=
      convertFile_puts_output options hinput hl hcreatable apart
    rw [← hutf8] at hheld
    have hno := FileTree.not_directory_of_creatable hcreatable
    have found := FileTree.found?_of_put hno hheld hworking
    refine ⟨_, text, by rw [transform_unlimited], hresult, htext, hheld, ?_, ?_⟩
    · exact (found output).1 hl
    · exact fun p => (found p).2
  case full =>
    intro houtput
    obtain ⟨target, htarget, hfull⟩ := FileTree.locate_of_found? houtput
    obtain ⟨hresult, hfiles⟩ :=
      convertFile_of_full options hinput (FileTree.create_of_full htarget hfull) hfull
    exact ⟨hfiles, hresult⟩

/-- A short file converted onto a longer one, of which nothing is left. -/
theorem convertFile_replaces_longer_file :
    let content : Bytes := utf8 "1 // one\n"
    let t : FileTree :=
      { entries := [([[0x61]], .file content), ([[0x62]], .file (List.replicate 100 0x78))]
        workingDirectory := [] }
    ¬ t.SameFile [0x61] [0x62]
      ∧ ∃ text, transformToString content {} = .ok text
        ∧ (convertFile t [0x61] [0x62] {}).files.found? [0x62] = some (.file (utf8 text)) := by
  intro content t
  have hinput : t.locate [0x61] = .ok [[0x61]] := rfl
  have houtput : t.locate [0x62] = .ok [[0x62]] := rfl
  have hother : ¬ t.SameFile [0x61] [0x62] := by
    rintro ⟨l, -, hl, hl', -⟩
    cases hinput.symm.trans hl
    cases hl'
  obtain ⟨-, hreadable⟩ := convertFile_between_files {} hother
  obtain ⟨-, hcreatable, -⟩ := hreadable content rfl
  obtain ⟨_, text, -, -, htext, -, hheld, -⟩ := hcreatable [[0x62]] houtput (.inr ⟨_, rfl⟩)
  exact ⟨hother, text, htext, hheld⟩

end DataInlay
