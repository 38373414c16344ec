/-
# DataInlay.Proofs.RunModes — printing a declaration and writing it to a file

A run has two modes that share nothing behind the options: one opens the input itself and
prints through a buffer of lines, the other derives a path, converts from file to file
through a buffer of blocks and then says so. `modes_agree` says that they give the same
bytes, namely the declaration of the input's data under the options of the command line,
or else of the configuration, or else by default.
-/
import DataInlay.Proofs.LineBuffers
import DataInlay.Proofs.RunStages

namespace DataInlay

section Modes

variable {c : CommandLine} {env : Environment} {files : FileTree} {options : Options}

/-- A run that can read its input and print says nothing but the declaration. -/
theorem runToStdout_of_readable {source : Location} {content : Bytes}
    (hinput : files.openInput (.ofText c.input) = .ok (source, .bytes content))
    (hprints : env.stdoutFull = false) :
    (runToStdout c options env files).ending = .success
      ∧ (runToStdout c options env files).stdout
        = declaration options.symbol options.width (dataOf content) := by
  obtain ⟨b, htransform, hstored⟩ := transform_to_output content options
  have device : (if env.stdoutFull then Device.full else .store #[]) = .store #[] := by
    rw [hprints]
    rfl
  rw [runToStdout_of_opened hinput]
  dsimp only
  rw [device, convert_bytes, htransform]
  exact ⟨rfl, hstored⟩

/-- A run whose conversion ends well ends well itself, if it can say so. -/
theorem runToFile_of_written {output : Path} {summary : Summary}
    (hresult : (convertFile files (.ofText c.input) output options).result = .ok summary)
    (hprints : env.stdoutFull = false) :
    (runToFile c output options env files).ending = .success := by
  rw [runToFile]
  dsimp only
  rw [hresult, hprints, Bool.and_false]
  rfl

end Modes

/-- **Both modes give the same bytes.** Let a command line name no output, and let its
configuration load, its input be read, and the output that is derived be a file other than
the input, or be absent where one can be created. Then the run that prints and the run
that writes end well, and what is printed and what the derived output holds in the end are
both the text of the input's conversion in memory. -/
theorem modes_agree {c : CommandLine} {config : Config} {env : Environment} {files : FileTree}
    {source target : Location} {content : Bytes} {output : Path}
    (hnone : c.output? = none) (hconfig : (loadConfig c files).2 = .ok config)
    (hinput : files.openInput (.ofText c.input) = .ok (source, .bytes content))
    (hderived : (Path.ofText c.input).outputPath? config.extension = some output)
    (htarget : files.locate output = .ok target)
    (hcreatable : files.get? target = none ∨ ∃ old, files.get? target = some (.file old))
    (hother : source ≠ target) (hprints : env.stdoutFull = false) :
    let printing := { c with stdout := true }.run env files
    let writing := { c with stdout := false }.run env files
    ∃ text, transformToString content
          { symbol := c.symbol?.getD (config.symbol?.getD "json")
            width := c.width?.or (config.bytesPerLine?.bind Width.ofNat?) } = .ok text
      ∧ printing.stdout = utf8 text
      ∧ writing.files.found? output = some (.file (utf8 text))
      ∧ printing.ending.status = some 0 ∧ writing.ending.status = some 0 := by
  intro printing writing
  obtain ⟨text, htext, hutf8⟩ := transformToString_eq content (resolveOptions c config)
  refine ⟨text, htext, ?_⟩
  rw [hutf8]
  -- one mode
  obtain ⟨events, hprinting⟩ : ∃ events, printing = _ :=
    run_of_config (c := { c with stdout := true }) hconfig
  rw [runWith_of_stdout rfl] at hprinting
  obtain ⟨hprinted, hstdout⟩ := @runToStdout_of_readable { c with stdout := true } env files
    (resolveOptions c config) source content hinput hprints
  -- the other
  have houtput : outputOf? { c with stdout := false } config = some output := by
    rw [outputOf?]
    dsimp only
    rw [hnone]
    exact hderived
  obtain ⟨events', hwriting⟩ : ∃ events, writing = _ :=
    run_of_config (c := { c with stdout := false }) hconfig
  rw [runWith_of_output rfl houtput] at hwriting
  obtain ⟨hresult, hworking, hheld⟩ := convertFile_puts_output (resolveOptions c config) hinput
    htarget hcreatable hother
  have hwritten := runToFile_of_written (c := { c with stdout := false }) hresult hprints
  have hno := FileTree.not_directory_of_creatable hcreatable
  have found := (FileTree.found?_of_put hno hheld hworking output).1 htarget
  rw [hprinting, hwriting]
  refine ⟨hstdout, ?_, ?_, ?_⟩
  · show (runToFile _ output _ env files).files.found? output = _
    rw [runToFile_files]
    exact found
  · show (runToStdout _ _ env files).ending.status = some 0
    exact congrArg Ending.status hprinted
  · exact congrArg Ending.status hwritten

/-- Both modes under a configuration that sets a symbol, a width and an extension, of which
the command line overrides the symbol. -/
theorem modes_agree_under_overridden_config :
    let files : FileTree :=
      { entries := [([utf8 "embedjson.toml"],
            .file (utf8 "symbol = \"s\"\nbytes_per_line = 2\nextension = \".h\"\n")),
          ([utf8 "in.json"], .file (utf8 "[1, 2] // two\n"))]
        workingDirectory := [] }
    let c : CommandLine := { input := "in.json", symbol? := some "data" }
    let config : Config :=
      { symbol? := some "s", bytesPerLine? := some 2, extension? := some ".h" }
    (loadConfig c files).2 = .ok config
    ∧ ∃ text, transformToString (utf8 "[1, 2] // two\n")
          { symbol := "data", width := Width.ofNat? 2 } = .ok text
      ∧ ({ c with stdout := true }.run {} files).stdout = utf8 text
      ∧ ({ c with stdout := false }.run {} files).files.found? (.ofText "in.h")
        = some (.file (utf8 text)) := by
  intro files c config
  have hconfig : (loadConfig c files).2 = .ok config := by decide +kernel
  have hinput : files.openInput (.ofText c.input)
      = .ok ([utf8 "in.json"], .bytes (utf8 "[1, 2] // two\n")) := by decide +kernel
  have htarget : files.locate (.ofText "in.h") = .ok [utf8 "in.h"] := by decide +kernel
  have habsent : files.get? [utf8 "in.h"] = none := by decide +kernel
  have hderived : (Path.ofText c.input).outputPath? config.extension = some (.ofText "in.h") := by
    decide +kernel
  have hprints : ({} : Environment).stdoutFull = false := rfl
  obtain ⟨text, htext, hprinted, hwritten, -⟩ := modes_agree rfl hconfig hinput hderived htarget
    (.inl habsent) (by decide +kernel) hprints
  exact ⟨hconfig, text, htext, hprinted, hwritten⟩

end DataInlay
