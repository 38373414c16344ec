/-
# DataInlay.Proofs.EndlessRuns — the runs that do not end

There are two ways for a conversion to go on for ever. Its input may have no end, and then
the first line has none, once the output has been created and has taken the header. Or it
converts a file onto itself and never gets to the end of its own text. Before that, a run can
be given a configuration file that has no end.

`FileTree.Endless` and `CommandLine.NeverEnds` say so in terms of what stands at the paths of
a run, without its conversion, and `run_endless_iff` that these are all.
-/
import DataInlay.Proofs.RunStages
import DataInlay.Proofs.SelfFeeding

namespace DataInlay

/-! ## Conversions -/

/-- The sink takes the header of a declaration, or lets it wait. -/
def TakesHeader {σ : Type} [Sink σ] (sink : σ) (options : Options) : Prop :=
  ∃ w, Writer.start sink options.symbol options.width = .done w

theorem convert_endless_iff {σ : Type} [Sink σ] {opened : Input} {sink : σ} {options : Options} :
    (convert opened sink options).result = .endless ↔
      opened = .endless ∧ TakesHeader sink options := by
  cases opened with
  | bytes content =>
    refine iff_of_false ?_ nofun
    rw [convert_bytes, Report.course]
    cases (transform (.ofBytes content) sink options).result <;> exact nofun
  | endless =>
    rw [convert, TakesHeader]
    cases Writer.start sink options.symbol options.width with
    | done w => exact iff_of_true rfl ⟨rfl, w, rfl⟩
    | failed fault w =>
      refine iff_of_false nofun ?_
      rintro ⟨-, _, htaken⟩
      cases htaken

/-- A conversion between these paths does not end. -/
inductive FileTree.Endless (t : FileTree) (input output : Path) (options : Options) : Prop
  /-- The input has no end, and the output is created and takes the header. -/
  | input {source target : Location} {created : FileTree} {e : Entry}
    (hinput : t.openInput input = .ok (source, .endless))
    (houtput : t.create output = .ok (target, created))
    (hentry : created.get? target = some e)
    (htakes : TakesHeader (BlockBuffer.ofDevice e.device) options)
  /-- Both paths lead to one file, and to read it while it is written comes to no end. -/
  | inPlace {l : Location} {content : Bytes}
    (hinput : t.locate input = .ok l) (houtput : t.locate output = .ok l)
    (hfile : t.get? l = some (.file content))
    (hreads : ¬ ∃ taken, SelfReads options (content.take BlockBuffer.blockSize) [] taken)

section ConvertFile

variable {t : FileTree} {input output : Path} {options : Options}

/-- Where nothing is written to the file that is read, there is one conversion to the device
that was created. -/
theorem convertFile_result_of_apart {source target : Location} {opened : Input}
    {created : FileTree} {e : Entry} (hinput : t.openInput input = .ok (source, opened))
    (houtput : t.create output = .ok (target, created)) (hentry : created.get? target = some e)
    (hapart : opened = .endless ∨ source ≠ target ∨ ∀ old, e ≠ .file old) :
    (convertFile t input output options).result
      = (convert opened (BlockBuffer.ofDevice e.device) options).result.mapError
          (.withPaths input output) := by
  cases e with
  | file old =>
    have apart : convertToFile opened (source = target) options
        = convert opened (BlockBuffer.ofDevice (.store #[])) options := by
      rcases hapart with rfl | hother | hno
      · rfl
      · rw [decide_eq_false hother]
        cases opened <;> rfl
      · exact absurd rfl (hno old)
    rw [convertFile_to_file options hinput houtput hentry, apart]
    rfl
  | directory | null | full => rw [convertFile_to_device options hinput houtput hentry nofun]

/-- A file that is created where something has been opened is the one that was opened. -/
theorem opened_of_created_file {l : Location} {opened : Input} {created : FileTree} {old : Bytes}
    (hinput : t.openInput input = .ok (l, opened)) (houtput : t.create output = .ok (l, created))
    (hfile : created.get? l = some (.file old)) :
    ∃ content, opened = .bytes content ∧ t.get? l = some (.file content) := by
  obtain ⟨-, hopened⟩ := FileTree.openInput_eq_ok hinput
  -- what is opened there is no device, as a device is not created as a file
  have no_device {e : Entry} (hentry : t.get? l = some e) : ∃ content, e = .file content := by
    obtain ⟨-, ⟨-, hnone | ⟨content, hcontent⟩⟩ | ⟨rfl, -⟩⟩ := FileTree.create_eq_ok houtput
    · cases hentry.symm.trans hnone
    · exact ⟨content, Option.some.inj (hentry.symm.trans hcontent)⟩
    · exact ⟨old, Option.some.inj (hentry.symm.trans hfile)⟩
  rcases hopened with hread | ⟨-, hnull⟩ | ⟨-, hfull⟩
  · exact hread
  · obtain ⟨_, hcontent⟩ := no_device hnull
    cases hcontent
  · obtain ⟨_, hcontent⟩ := no_device hfull
    cases hcontent

/-- **The conversions that do not end** are those of an endless input and those that follow
their own text for ever. -/
theorem convertFile_endless_iff :
    (convertFile t input output options).result = .endless ↔ t.Endless input output options := by
  constructor
  · intro hresult
    cases hinput : t.openInput input with
    | error fault =>
      rw [convertFile_of_unreadable options hinput] at hresult
      cases hresult
    | ok opened =>
      obtain ⟨source, opened⟩ := opened
      cases houtput : t.create output with
      | error fault =>
        rw [convertFile_of_uncreatable options hinput houtput] at hresult
        cases hresult
      | ok made =>
        obtain ⟨target, created⟩ := made
        obtain ⟨e, hentry⟩ := FileTree.get?_of_create houtput
        by_cases hapart : opened = .endless ∨ source ≠ target ∨ ∀ old, e ≠ .file old
        · rw [convertFile_result_of_apart hinput houtput hentry hapart,
            Conclusion.mapError_eq_endless_iff] at hresult
          obtain ⟨rfl, htakes⟩ := convert_endless_iff.mp hresult
          exact .input hinput houtput hentry htakes
        · simp only [not_or, not_not, not_forall] at hapart
          obtain ⟨-, rfl, old, rfl⟩ := hapart
          obtain ⟨content, -, hfile⟩ := opened_of_created_file hinput houtput hentry
          have hsource := (FileTree.openInput_eq_ok hinput).1
          have htarget := (FileTree.create_eq_ok houtput).1
          exact .inPlace hsource htarget hfile
            ((convertFile_in_place_endless_iff options hsource htarget hfile).mp hresult)
  · rintro (⟨hinput, houtput, hentry, htakes⟩ | ⟨hinput, houtput, hfile, hreads⟩)
    · rw [convertFile_result_of_apart hinput houtput hentry (.inl rfl),
        Conclusion.mapError_eq_endless_iff]
      exact convert_endless_iff.mpr ⟨rfl, htakes⟩
    · exact (convertFile_in_place_endless_iff options hinput houtput hfile).mpr hreads

end ConvertFile

/-! ## Configurations -/

theorem FileTree.read_endless_iff {t : FileTree} {p : Path} :
    t.read p = .endless ↔ ∃ source, t.openInput p = .ok (source, .endless) := by
  rw [read]
  rcases t.openInput p with _ | ⟨source, _ | _⟩ <;> simp

theorem Config.loadFile_endless_iff {t : FileTree} {p : Path} :
    loadFile t p = .endless ↔ t.read p = .endless := by
  rw [loadFile]
  cases t.read p with
  | error fault => simp
  | endless => simp
  | ok bytes =>
    refine iff_of_false ?_ nofun
    dsimp only
    cases text? bytes with
    | none => simp
    | some document =>
      dsimp only
      cases ofDocument document <;> exact nofun

/-- Discovery finds only what has an end. -/
theorem Config.loadFile_ended_of_resolved {t : FileTree} {root p : Path}
    (h : resolvePath t root = some p) : loadFile t p ≠ .endless := by
  obtain ⟨content, hfile⟩ := FileTree.isFile_iff.mp (List.find?_some h)
  rw [Ne, loadFile_endless_iff, FileTree.read_of_file hfile]
  exact nofun

/-- So the configuration that is read for ever is one that was given. -/
theorem loadConfig_endless_iff {c : CommandLine} {files : FileTree} :
    (loadConfig c files).2 = .endless ↔
      ∃ given source, c.config? = some given
        ∧ files.openInput (.ofText given) = .ok (source, .endless) := by
  rw [loadConfig, configPath?]
  cases c.config? with
  | some given => simp [Config.loadFile_endless_iff, FileTree.read_endless_iff]
  | none =>
    refine iff_of_false ?_ nofun
    dsimp only
    cases hfound : Config.resolvePath files ((c.path?.map Path.ofText).getD files.workingPath) with
    | none => exact nofun
    | some p => exact Config.loadFile_ended_of_resolved hfound

/-! ## Runs -/

section Runs

variable {c : CommandLine} {config : Config} {env : Environment} {files : FileTree}

/-- With this configuration, a run does not end: it is to print and its input has no end, or
it is to write and its conversion does not end. -/
inductive CommandLine.ConvertsForever (c : CommandLine) (config : Config) (env : Environment)
    (files : FileTree) : Prop
  | printing (hstdout : c.stdout = true) {source : Location}
    (hinput : files.openInput (.ofText c.input) = .ok (source, .endless))
    (htakes : TakesHeader (LineBuffer.ofDevice (if env.stdoutFull then .full else .store #[]))
      (resolveOptions c config))
  | writing (hstdout : c.stdout = false) {output : Path}
    (houtput : outputOf? c config = some output)
    (hendless : files.Endless (.ofText c.input) output (resolveOptions c config))

/-- A run does not end: the configuration file that it is given has no end, or it has its
configuration and converts for ever. -/
inductive CommandLine.NeverEnds (c : CommandLine) (env : Environment) (files : FileTree) : Prop
  | loading {given : String} {source : Location} (hgiven : c.config? = some given)
    (hinput : files.openInput (.ofText given) = .ok (source, .endless))
  | converting {config : Config} (hconfig : (loadConfig c files).2 = .ok config)
    (hforever : c.ConvertsForever config env files)

theorem runToStdout_endless_iff {options : Options} :
    (runToStdout c options env files).ending = .endless ↔
      ∃ source, files.openInput (.ofText c.input) = .ok (source, .endless)
        ∧ TakesHeader (LineBuffer.ofDevice (if env.stdoutFull then .full else .store #[]))
          options := by
  cases hinput : files.openInput (.ofText c.input) with
  | error fault =>
    rw [runToStdout_of_unreadable hinput]
    exact iff_of_false nofun nofun
  | ok opened =>
    obtain ⟨source, opened⟩ := opened
    have ended : (runToStdout c options env files).ending = .endless ↔ (convert opened
        (LineBuffer.ofDevice (if env.stdoutFull then .full else .store #[])) options).result
          = .endless := by
      rw [runToStdout_of_opened hinput]
      dsimp only
      cases (convert opened (LineBuffer.ofDevice _) options).result <;> simp
    rw [ended, convert_endless_iff]
    simp

theorem runToFile_endless_iff {output : Path} {options : Options} :
    (runToFile c output options env files).ending = .endless ↔
      files.Endless (.ofText c.input) output options := by
  rw [← convertFile_endless_iff, runToFile]
  dsimp only
  cases (convertFile files (.ofText c.input) output options).result with
  | endless => exact iff_of_true rfl rfl
  | error e =>
    constructor
    · intro endless
      cases endless
    · intro endless
      cases endless
  | ok summary =>
    constructor
    · intro endless
      dsimp only at endless
      split at endless <;> cases endless
    · intro endless
      cases endless

theorem runWith_endless_iff :
    (c.runWith config env files).ending = .endless ↔ c.ConvertsForever config env files := by
  cases hstdout : c.stdout with
  | true =>
    rw [runWith_of_stdout hstdout, runToStdout_endless_iff]
    constructor
    · rintro ⟨source, hinput, htakes⟩
      exact .printing hstdout hinput htakes
    · rintro (⟨-, hinput, htakes⟩ | ⟨hwrites, -, -⟩)
      · exact ⟨_, hinput, htakes⟩
      · cases hstdout.symm.trans hwrites
  | false =>
    cases houtput : outputOf? c config with
    | none =>
      rw [runWith_of_no_output c config env files hstdout houtput]
      refine iff_of_false nofun ?_
      rintro (⟨hprints, -, -⟩ | ⟨-, hsome, -⟩)
      · cases hstdout.symm.trans hprints
      · cases houtput.symm.trans hsome
    | some output =>
      rw [runWith_of_output hstdout houtput, runToFile_endless_iff]
      constructor
      · exact .writing hstdout houtput
      · rintro (⟨hprints, -, -⟩ | ⟨-, hsome, hendless⟩)
        · cases hstdout.symm.trans hprints
        · cases houtput.symm.trans hsome
          exact hendless

/-- **The runs that do not end.** -/
theorem run_endless_iff {arguments : List String} :
    (run arguments env files).ending = .endless ↔
      ∃ c, CommandLine.parse arguments = .ok c ∧ c.NeverEnds env files := by
  have ended : (run arguments env files).ending = .endless ↔ _ := run_ending_eq_iff nofun nofun
  rw [ended]
  simp only [loadConfig_endless_iff, runWith_endless_iff, and_true]
  constructor
  · rintro ⟨c, hparse, ⟨given, source, hgiven, hinput⟩ | ⟨config, hconfig, hforever⟩⟩
    · exact ⟨c, hparse, .loading hgiven hinput⟩
    · exact ⟨c, hparse, .converting hconfig hforever⟩
  · rintro ⟨c, hparse, ⟨hgiven, hinput⟩ | ⟨hconfig, hforever⟩⟩
    · exact ⟨c, hparse, .inl ⟨_, _, hgiven, hinput⟩⟩
    · exact ⟨c, hparse, .inr ⟨_, hconfig, hforever⟩⟩

/-- An endless input leaves an emptied output and a run that goes on. -/
example :
    let files : FileTree :=
      { entries := [([utf8 "full"], .full), ([utf8 "out.cpp"], .file (utf8 "old"))]
        workingDirectory := [] }
    let outcome := run ["full", "-o", "out.cpp"] {} files
    outcome.ending = .endless ∧ outcome.files.found? (.ofText "out.cpp") = some (.file []) := by
  decide +kernel

/-- So does a file of digits that is already named as its output would be. -/
example :
    let digits := List.replicate 3000 (0x31 : UInt8)
    let files : FileTree :=
      { entries := [([utf8 "p.cpp"], .file digits)], workingDirectory := [] }
    (run ["p.cpp"] {} files).ending = .endless := by
  intro digits files
  let c : CommandLine := { input := "p.cpp" }
  have hparse : CommandLine.parse ["p.cpp"] = .ok c := by decide +kernel
  have hconfig : (loadConfig c files).2 = .ok {} := by decide +kernel
  have houtput : outputOf? c {} = some (.ofText "p.cpp") := by decide +kernel
  have place : files.locate (.ofText "p.cpp") = .ok [utf8 "p.cpp"] := by decide +kernel
  have plain : ∀ b ∈ digits.take BlockBuffer.blockSize, IsPlain b ∧ isBlank b = false := by
    intro b hb
    obtain rfl := List.eq_of_mem_replicate (List.mem_of_mem_take hb)
    decide
  have endless : ¬ ∃ taken, SelfReads (resolveOptions c {}) (digits.take BlockBuffer.blockSize) []
      taken := by
    apply SelfReads.none_of_plain plain <;> rw [List.length_take, List.length_replicate] <;> decide
  exact run_endless_iff.mpr ⟨c, hparse, .converting hconfig
    (.writing rfl houtput (.inPlace place place rfl endless))⟩

end Runs

end DataInlay
