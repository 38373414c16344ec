/-
# DataInlay.Proofs.ExitStatus — the failures that a run does not report

A run is to end with status 0, or with status 2 and the report of an error. It has a report
for whatever goes wrong with its arguments, its configuration, its input and the bytes of
the declaration, wherever these go to. What it has none for is the line that it prints when
a file is written: a standard output that refuses this line cuts the run short, as does an
extension that makes no output path. And a run whose configuration or conversion has no end
never gets to a status.

`run_reports_iff` says that these are the only three. So a run that prints the declaration
itself reports a standard output that takes nothing, and so does not one that has already
written its file.
-/
import DataInlay.Proofs.EndlessRuns
import DataInlay.Proofs.OutputExtension

namespace DataInlay

/-- The run ended with the report of an error. -/
inductive Ending.Reports : Ending → Prop
  | refused (error : UsageError) : Reports (.stopped (.refused error))
  | failed (error : InlayError) : Reports (.failed error)

/-- The run ended as it is to end: well, or with a report. -/
def Ending.Proper (ending : Ending) : Prop :=
  ending.status = some 0 ∨ ending.status = some 2 ∧ ending.Reports

/-- Only a run that is cut short, or does not end, is not like this. -/
theorem Ending.proper_iff {ending : Ending} :
    ending.Proper ↔ ending ≠ .aborted ∧ ending ≠ .endless := by
  rcases ending with _ | (_ | _ | error) | error | _ | _
  · exact iff_of_true (.inl rfl) ⟨nofun, nofun⟩
  · exact iff_of_true (.inl rfl) ⟨nofun, nofun⟩
  · exact iff_of_true (.inl rfl) ⟨nofun, nofun⟩
  · exact iff_of_true (.inr ⟨rfl, .refused error⟩) ⟨nofun, nofun⟩
  · exact iff_of_true (.inr ⟨rfl, .failed error⟩) ⟨nofun, nofun⟩
  · refine iff_of_false ?_ fun h => h.1 rfl
    rintro (hzero | ⟨htwo, -⟩)
    · exact absurd hzero (by decide)
    · exact absurd htwo (by decide)
  · refine iff_of_false ?_ fun h => h.2 rfl
    rintro (hzero | ⟨htwo, -⟩)
    · exact absurd hzero nofun
    · exact absurd htwo nofun

section Runs

variable {c : CommandLine} {env : Environment} {files : FileTree}

/-- A run that prints the declaration reports that standard output takes nothing. -/
theorem runToStdout_of_full {source : Location} {content : Bytes} {options : Options}
    (hinput : files.openInput (.ofText c.input) = .ok (source, .bytes content))
    (hfull : env.stdoutFull = true) :
    (runToStdout c options env files).ending = .failed (.streamWrite Fault.storageFull) := by
  have device : (if env.stdoutFull then Device.full else .store #[]) = .full := by
    rw [hfull]
    rfl
  rw [runToStdout_of_opened hinput]
  dsimp only
  rw [device, convert_bytes, Report.course, transform_to_full_output]
  rfl

/-- A run to a file that cannot say what it has written has said nothing. -/
theorem runToFile_of_untold {output : Path} {options : Options} {summary : Summary}
    (hfull : env.stdoutFull = true) (hquiet : c.quiet = false)
    (hwritten : (convertFile files (.ofText c.input) output options).result = .ok summary) :
    (runToFile c output options env files).stdout = [] := by
  rw [runToFile]
  dsimp only
  rw [hwritten, hfull, hquiet]
  rfl

end Runs

/-- **The failures that a run does not report.** Whatever the arguments, the environment and
the files, a run ends with status 0, or with status 2 and the report of an error, with three
exceptions: it is to write a file and needs a path for it that an extension with a slash denies
it; it has written that file, is not to be quiet about it and finds that standard output takes
nothing; or it never ends, as its configuration or its input has no end, or as it converts a
file onto itself and always meets more of its own text. In the second case the status is 101,
nothing is printed, and the file stays written. In the last there is no status. A run that
prints the declaration of an input that has an end, on the other hand, does report a standard
output that takes nothing. -/
theorem run_reports_iff (arguments : List String) (env : Environment) (files : FileTree) :
    let outcome := run arguments env files
    (outcome.ending.status = some 0 ∨ outcome.ending.status = some 2 ∧ outcome.ending.Reports ↔
      ¬ ∃ c, CommandLine.parse arguments = .ok c
        ∧ ((∃ config, (loadConfig c files).2 = .ok config ∧ c.stdout = false
            ∧ (c.output? = none ∧ config.SlashInExtension ∨ c.CannotTell config env files))
          ∨ c.NeverEnds env files))
    ∧ (∀ c, CommandLine.parse arguments = .ok c → c.NeverEnds env files →
        outcome.ending.status = none)
    ∧ ∀ c config, CommandLine.parse arguments = .ok c → (loadConfig c files).2 = .ok config →
      (c.stdout = false → c.CannotTell config env files →
        outcome.ending.status = some 101 ∧ outcome.stdout = []
          ∧ ∃ output, outputOf? c config = some output
            ∧ outcome.files
              = (convertFile files (.ofText c.input) output (resolveOptions c config)).files)
      ∧ (c.stdout = true → env.stdoutFull = true →
        (∃ source content, files.openInput (.ofText c.input) = .ok (source, .bytes content)) →
          outcome.ending = .failed (.streamWrite Fault.storageFull)) := by
  intro outcome
  have aborted : outcome.ending = .aborted ↔ _ := run_ending_eq_iff nofun nofun
  simp only [runWith_aborted_iff, outputOf?_eq_none_iff, reduceCtorEq, and_false, false_or]
    at aborted
  have endless : outcome.ending = .endless ↔ _ := run_endless_iff
  refine ⟨?_, ?_, ?_⟩
  · show outcome.ending.Proper ↔ _
    rw [Ending.proper_iff, Ne, Ne, ← not_or, aborted, endless]
    simp only [and_or_left, exists_or]
  · intro c hparse never
    rw [endless.mpr ⟨c, hparse, never⟩]
    rfl
  intro c config hparse hconfig
  have carried : outcome = c.run env files := run_of_parsed hparse
  obtain ⟨events, hrun⟩ : ∃ events, c.run env files = _ := run_of_config hconfig
  refine ⟨?_, ?_⟩
  · intro hstdout untold
    have short := aborted.mpr ⟨c, hparse, config, hconfig, hstdout, .inr untold⟩
    obtain ⟨hfull, hquiet, output, summary, houtput, hwritten⟩ := untold
    refine ⟨by rw [short]; rfl, ?_, output, houtput, ?_⟩
    · rw [carried, hrun, runWith_of_output hstdout houtput]
      exact runToFile_of_untold hfull hquiet hwritten
    · rw [carried, hrun, runWith_of_output hstdout houtput]
      exact runToFile_files
  · rintro hstdout hfull ⟨source, content, hinput⟩
    rw [carried, hrun, runWith_of_stdout hstdout]
    exact runToStdout_of_full hinput hfull

/-- A full standard output cuts a run short that has written its file, and is reported by one
that prints the declaration. -/
theorem refused_line_aborts :
    let files : FileTree :=
      { entries := [([utf8 "in.json"], .file (utf8 "1"))], workingDirectory := [] }
    let env : Environment := { stdoutFull := true }
    (run ["in.json"] env files).ending.status = some 101
    ∧ (run ["in.json"] env files).files.found? (.ofText "in.cpp")
      = some (.file (utf8 "static const char json[] = \x7b0x31, 0x0a\x7d;\n"))
    ∧ (run ["in.json", "--stdout"] env files).ending = .failed (.streamWrite .storageFull) := by
  intro files env
  let writing : CommandLine := { input := "in.json" }
  have hwriting : CommandLine.parse ["in.json"] = .ok writing := by decide +kernel
  have hprinting : CommandLine.parse ["in.json", "--stdout"]
      = .ok { writing with stdout := true } := by decide +kernel
  have hderived : outputOf? writing {} = some (.ofText "in.cpp") := by decide +kernel
  have hwritten : (convertFile files (.ofText "in.json") (.ofText "in.cpp") {}).result
      = .ok { linesRead := 1, linesEmitted := 1, bytesRead := 1, bytesEmitted := 2 } := by
    decide +kernel
  obtain ⟨-, -, cut⟩ := run_reports_iff ["in.json"] env files
  obtain ⟨-, -, reported⟩ := run_reports_iff ["in.json", "--stdout"] env files
  obtain ⟨hstatus, -, output, houtput, hfiles⟩ :=
    (cut writing {} hwriting (by decide +kernel)).1 rfl ⟨rfl, rfl, _, _, hderived, hwritten⟩
  cases hderived.symm.trans houtput
  refine ⟨hstatus, ?_, ?_⟩
  · rw [hfiles]
    decide +kernel
  · exact (reported _ {} hprinting (by decide +kernel)).2 rfl rfl ⟨_, _, rfl⟩

end DataInlay
