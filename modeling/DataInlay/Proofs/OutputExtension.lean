/-
# DataInlay.Proofs.OutputExtension — the extensions that leave a run without an output

The configured extension passes three definitions, and each has an idea of its own of
what an extension may be. The check of a loaded configuration refuses what is nothing but
dots; the setting in use has no dots in front; and an output path has no slash in its
extension. So the check lets a slash through, and behind it there is no path.

`accepted_config_aborts_iff` says that this is the only gap: under an accepted
configuration every input has an output path, or none has one, and the slash decides. A
run that needs that path ends at once; by then it has changed no file. All other runs go
on, as long as standard output takes what they say in the end.
-/
import DataInlay.Proofs.RunStages
import Mathlib.Data.List.TakeWhile
import Mathlib.Tactic.SplitIfs

namespace DataInlay

/-! ## ASCII characters in UTF-8 -/

theorem utf8_eq_flatMap (s : String) : utf8 s = s.toList.flatMap String.utf8EncodeChar := by
  have bytes : s.toByteArray = (s.toList.flatMap String.utf8EncodeChar).toByteArray :=
    (congrArg String.toByteArray s.ofList_toList.symm).trans String.toByteArray_ofList
  show s.toByteArray.data.toList = _
  rw [bytes, List.data_toByteArray]

/-- A byte of ASCII occurs only in the form of its own character. -/
theorem ascii_mem_utf8EncodeChar {b : UInt8} (h : b.toNat < 128) (c : Char) :
    b ∈ String.utf8EncodeChar c ↔ c.toNat = b.toNat := by
  have value : c.val.toNat = c.toNat := rfl
  rw [String.utf8EncodeChar, value]
  -- the bytes of longer forms are above all of ASCII
  split_ifs <;>
    simp only [List.mem_cons, List.not_mem_nil, or_false, ← UInt8.toNat_inj, UInt8.toNat_ofNat'] <;>
    omega

theorem ascii_mem_utf8 {c : Char} (h : c.toNat < 128) (s : String) :
    UInt8.ofNat c.toNat ∈ utf8 s ↔ c ∈ s.toList := by
  have value : (UInt8.ofNat c.toNat).toNat = c.toNat := by
    rw [UInt8.toNat_ofNat']
    omega
  rw [utf8_eq_flatMap, List.mem_flatMap]
  constructor
  · intro hbyte
    rcases hbyte with ⟨d, hd, hbyte⟩
    rw [ascii_mem_utf8EncodeChar (by omega), value, Char.toNat_inj] at hbyte
    rwa [← hbyte]
  · intro hc
    exact ⟨c, hc, (ascii_mem_utf8EncodeChar (by omega) c).mpr value.symm⟩

/-! ## From the setting to the path -/

/-- Only dots are lost. -/
theorem mem_trimDots {c : Char} (h : c ≠ '.') (s : String) :
    c ∈ (trimDots s).toList ↔ c ∈ s.toList := by
  rw [trimDots, String.toList_ofList]
  constructor
  · exact fun hc => (List.dropWhile_sublist _).subset hc
  · intro hc
    rw [← List.takeWhile_append_dropWhile (p := (· == '.')) (l := s.toList), List.mem_append] at hc
    rcases hc with hdots | hrest
    · have dot := List.mem_takeWhile_imp hdots
      exact absurd (beq_iff_eq.mp dot) h
    · exact hrest

/-- An extension with a slash has no output path for any input, and any other has one for
all inputs. -/
theorem Path.outputPath?_eq_none_iff (input : Path) (extension : String) :
    input.outputPath? extension = none ↔ '/' ∈ extension.toList := by
  have slash : Ascii.slash ∈ utf8 (trimDots extension) ↔ '/' ∈ extension.toList :=
    (ascii_mem_utf8 (c := '/') (by decide) _).trans (mem_trimDots (by decide) extension)
  rw [← slash, outputPath?]
  by_cases h : Ascii.slash ∈ utf8 (trimDots extension)
  · exact iff_of_true (if_pos h) h
  · refine iff_of_false ?_ h
    rw [if_neg h]
    exact Option.some_ne_none _

namespace Config

/-- The extension is set, and holds a slash. -/
def SlashInExtension (config : Config) : Prop :=
  ∃ given, config.extension? = some given ∧ '/' ∈ given.toList

theorem slash_mem_extension (config : Config) :
    '/' ∈ config.extension.toList ↔ config.SlashInExtension := by
  rw [extension, SlashInExtension]
  cases config.extension? with
  | none => simp [defaultExtension]
  | some given => simp [mem_trimDots]

/-- The settings of an accepted document were taken over, and what came of it has passed the
check. -/
theorem settings_of_ofDocument {document : String} {config : Config}
    (accepted : ofDocument document = .ok config) :
    ∃ settings, Toml.settings document = .ok settings
      ∧ settings.foldlM (fun (c : Config) setting => c.put setting.1 setting.2) {} = .ok config
      ∧ config.offender? = none := by
  rw [ofDocument] at accepted
  split at accepted
  · cases accepted
  · next settings hsettings =>
    cases hput : settings.foldlM (fun (c : Config) setting => c.put setting.1 setting.2) {} with
    | error problem =>
      rw [hput] at accepted
      cases accepted
    | ok c =>
      rw [hput, Except.bind] at accepted
      split at accepted
      · cases accepted
      · next hpassed =>
        cases accepted
        exact ⟨settings, hsettings, hput, hpassed⟩

/-- A configuration that was loaded is that of the text in the file. -/
theorem document_of_loadFile {files : FileTree} {p : Path} {config : Config}
    (accepted : loadFile files p = .ok config) :
    ∃ bytes document, files.read p = .ok bytes ∧ text? bytes = some document
      ∧ ofDocument document = .ok config := by
  rw [loadFile] at accepted
  split at accepted
  · cases accepted
  · cases accepted
  · next bytes hbytes =>
    split at accepted
    · cases accepted
    · next document htext =>
      cases hdocument : ofDocument document with
      | error problem =>
        rw [hdocument] at accepted
        cases accepted
      | ok c =>
        rw [hdocument] at accepted
        cases accepted
        exact ⟨bytes, document, hbytes, htext, hdocument⟩

/-- A configuration that was loaded has passed the check. -/
theorem offender?_of_loadFile {files : FileTree} {p : Path} {config : Config}
    (accepted : loadFile files p = .ok config) : config.offender? = none := by
  obtain ⟨_, _, -, -, hdocument⟩ := document_of_loadFile accepted
  obtain ⟨_, -, -, passed⟩ := settings_of_ofDocument hdocument
  exact passed

theorem offender?_eq_none_iff {config : Config} : config.offender? = none ↔
    config.symbol? ≠ some "" ∧ config.extension?.map trimDots ≠ some ""
      ∧ config.bytesPerLine? ≠ some 0 := by
  rw [offender?]
  split_ifs with hsymbol hextension hwidth <;> simp [*]

/-- What passed the check has an extension to use. -/
theorem extension_ne_empty {config : Config} (h : config.offender? = none) :
    config.extension ≠ "" := by
  obtain ⟨-, hextension, -⟩ := offender?_eq_none_iff.mp h
  intro hempty
  apply hextension
  rw [extension] at hempty
  split at hempty
  · exact absurd hempty (by decide)
  · next given hgiven => rw [hgiven, Option.map_some, hempty]

end Config

/-! ## Runs that are cut short -/

section Runs

variable (c : CommandLine) (config : Config) (env : Environment) (files : FileTree)

theorem outputOf?_eq_none_iff :
    outputOf? c config = none ↔ c.output? = none ∧ config.SlashInExtension := by
  rw [← config.slash_mem_extension, ← (Path.ofText c.input).outputPath?_eq_none_iff, outputOf?]
  cases c.output? with
  | none => simp
  | some given => simp

/-- The run is to write a file and has an output for it, the conversion ends well, and then
standard output refuses the line that says so. -/
def CommandLine.CannotTell : Prop :=
  env.stdoutFull = true ∧ c.quiet = false ∧ ∃ output summary, outputOf? c config = some output
    ∧ (convertFile files (.ofText c.input) output (resolveOptions c config)).result = .ok summary

theorem runToStdout_not_aborted (options : Options) :
    (runToStdout c options env files).ending ≠ .aborted := by
  rw [runToStdout]
  cases openInput files (Path.ofText c.input) with
  | error e =>
    intro aborted
    cases aborted
  | ok opened =>
    intro aborted
    dsimp only at aborted
    split at aborted <;> cases aborted

/-- A run to a file is cut short only when the file is written. -/
theorem runToFile_aborted_iff (output : Path) (options : Options) :
    (runToFile c output options env files).ending = .aborted ↔
      env.stdoutFull = true ∧ c.quiet = false
        ∧ ∃ summary, (convertFile files (.ofText c.input) output options).result = .ok summary := by
  rw [runToFile]
  cases (convertFile files (Path.ofText c.input) output options).result with
  | error _ | endless =>
    constructor
    · intro aborted
      cases aborted
    · rintro ⟨-, -, summary, hsummary⟩
      cases hsummary
  | ok summary =>
    have ended : (if !c.quiet && env.stdoutFull then Ending.aborted else .success) = .aborted ↔
        (!c.quiet && env.stdoutFull) = true := by
      simp
    refine ended.trans ?_
    rw [Bool.and_eq_true, Bool.not_eq_true', and_comm]
    simp

theorem runWith_aborted_iff :
    (c.runWith config env files).ending = .aborted ↔
      c.stdout = false ∧ (outputOf? c config = none ∨ c.CannotTell config env files) := by
  cases hstdout : c.stdout with
  | true =>
    rw [runWith_of_stdout hstdout]
    exact iff_of_false (runToStdout_not_aborted c env files _) fun needed => nomatch needed.1
  | false =>
    cases houtput : outputOf? c config with
    | none =>
      rw [runWith_of_no_output c config env files hstdout houtput]
      exact iff_of_true rfl ⟨rfl, .inl rfl⟩
    | some output =>
      rw [runWith_of_output hstdout houtput, runToFile_aborted_iff, CommandLine.CannotTell, houtput]
      simp

/-- A run under a configuration that was read from a file ends as that configuration lets
it, and leaves the same files. -/
theorem run_of_loadFile {p : Path} (hpath : configPath? c files = some p)
    (hconfig : Config.loadFile files p = .ok config) :
    (c.run env files).ending = (c.runWith config env files).ending
      ∧ (c.run env files).files = (c.runWith config env files).files := by
  have loaded : (loadConfig c files).2 = .ok config := by
    rw [loadConfig, hpath]
    exact hconfig
  obtain ⟨events, hrun⟩ : ∃ events, c.run env files = _ := run_of_config loaded
  rw [hrun]
  exact ⟨rfl, rfl⟩

end Runs

/-- **What an accepted configuration leaves open.** It has an extension to use, and this
makes an output path for every input, or for none if the extension that is set holds a
slash. A run under it that is to write a file, is given no output and finds such an
extension is cut short, and has changed no file. A standard output that takes nothing can
cut short a run as well, once its file is written; no other run is. -/
theorem accepted_config_aborts_iff {files : FileTree} {p : Path} {config : Config}
    (accepted : Config.loadFile files p = .ok config) :
    config.extension ≠ ""
    ∧ (∀ input : Path, input.outputPath? config.extension = none ↔ config.SlashInExtension)
    ∧ ∀ (c : CommandLine) (env : Environment), configPath? c files = some p →
        ((c.run env files).ending = .aborted ↔ c.stdout = false
          ∧ (c.output? = none ∧ config.SlashInExtension ∨ c.CannotTell config env files))
        ∧ (c.stdout = false → c.output? = none → config.SlashInExtension →
          (c.run env files).files = files) := by
  refine ⟨Config.extension_ne_empty (Config.offender?_of_loadFile accepted), ?_, ?_⟩
  · intro input
    rw [Path.outputPath?_eq_none_iff, config.slash_mem_extension]
  · intro c env hpath
    obtain ⟨hending, hfiles⟩ := run_of_loadFile c config env files hpath accepted
    rw [hending, hfiles]
    constructor
    · rw [← outputOf?_eq_none_iff]
      exact runWith_aborted_iff c config env files
    · intro hstdout houtput hslash
      have none := (outputOf?_eq_none_iff c config).mpr ⟨houtput, hslash⟩
      rw [runWith_of_no_output c config env files hstdout none]

/-- A configuration file that sets an extension with a slash is accepted, and the run that
finds it is cut short with status 101. -/
theorem slash_extension_aborts :
    let files : FileTree :=
      { entries := [([utf8 "embedjson.toml"], .file (utf8 "extension = \"a/b\"\n")),
          ([utf8 "in.json"], .file (utf8 "1"))]
        workingDirectory := [] }
    let c : CommandLine := { input := "in.json" }
    ∃ config, Config.loadFile files (.ofText "/embedjson.toml") = .ok config
      ∧ (Path.ofText "in.json").outputPath? config.extension = none
      ∧ (c.run {} files).ending.status = some 101 := by
  intro files c
  have accepted : Config.loadFile files (.ofText "/embedjson.toml")
      = .ok { extension? := some "a/b" } := by decide +kernel
  have found : configPath? c files = some (.ofText "/embedjson.toml") := by decide +kernel
  have slash : Config.SlashInExtension { extension? := some "a/b" } := ⟨"a/b", rfl, by decide⟩
  obtain ⟨-, paths, runs⟩ := accepted_config_aborts_iff accepted
  refine ⟨_, accepted, (paths _).mpr slash, ?_⟩
  rw [(runs c {} found).1.mpr ⟨rfl, .inl ⟨rfl, slash⟩⟩]
  rfl

end DataInlay
