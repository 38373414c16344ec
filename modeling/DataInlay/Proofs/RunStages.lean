/-
# DataInlay.Proofs.RunStages — a run, stage by stage

A run settles its configuration, then its options and output, and then opens its input;
only behind that does it write or print anything. Each law here is for one way in which a
stage can end: with an error, which ends the run, or well, and then the run is what the
later stages make of it. What is told on the way depends on the filter as well, so the
laws leave it open which events there are.
-/
import DataInlay.Proofs.BetweenFiles
import DataInlay.Run

namespace DataInlay

section Stages

variable {c : CommandLine} {config : Config} {env : Environment} {files : FileTree}

/-! ## The command line and the configuration -/

theorem run_of_parsed {arguments : List String} (h : CommandLine.parse arguments = .ok c) :
    run arguments env files = c.run env files := by
  rw [run, h]

/-- With a configuration, a run goes on under it. -/
theorem run_of_config (h : (loadConfig c files).2 = .ok config) :
    ∃ events, c.run env files = { c.runWith config env files with events } := by
  simp only [CommandLine.run, CommandLine.carryOut, h]
  cases (loadConfig c files).1 <;> exact ⟨_, rfl⟩

/-- Without one, it ends with the error. -/
theorem run_of_bad_config {e : InlayError} (h : (loadConfig c files).2 = .error e) :
    ∃ events, c.run env files = { ending := .failed e, events, files } := by
  simp only [CommandLine.run, CommandLine.carryOut, h]
  cases (loadConfig c files).1 <;> exact ⟨_, rfl⟩

/-- A run that reads its configuration for ever does nothing else. -/
theorem run_of_endless_config (h : (loadConfig c files).2 = .endless) :
    ∃ events, c.run env files = { ending := .endless, events, files } := by
  simp only [CommandLine.run, CommandLine.carryOut, h]
  cases (loadConfig c files).1 <;> exact ⟨_, rfl⟩

/-- An ending that is neither for refused arguments nor for an error is that of a run which
has its configuration, or which reads it for ever. -/
theorem run_ending_eq_iff {arguments : List String} {ending : Ending}
    (hstopped : ∀ reason, ending ≠ .stopped reason) (hfailed : ∀ e, ending ≠ .failed e) :
    (run arguments env files).ending = ending ↔
      ∃ c, CommandLine.parse arguments = .ok c
        ∧ ((loadConfig c files).2 = .endless ∧ ending = .endless
          ∨ ∃ config, (loadConfig c files).2 = .ok config
            ∧ (c.runWith config env files).ending = ending) := by
  cases hparse : CommandLine.parse arguments with
  | error reason =>
    rw [run, hparse]
    refine iff_of_false (fun stopped => hstopped reason stopped.symm) ?_
    rintro ⟨_, hsome, -⟩
    cases hsome
  | ok c =>
    rw [run_of_parsed hparse]
    have only {p : CommandLine → Prop} :
        (∃ c', (.ok c : Except ParseStop CommandLine) = .ok c' ∧ p c') ↔ p c := by
      simp
    rw [only]
    cases hconfig : (loadConfig c files).2 with
    | error e =>
      obtain ⟨events, hrun⟩ : ∃ events, c.run env files = _ := run_of_bad_config hconfig
      rw [hrun]
      exact iff_of_false (fun failed => hfailed e failed.symm) (by simp)
    | endless =>
      obtain ⟨events, hrun⟩ : ∃ events, c.run env files = _ := run_of_endless_config hconfig
      rw [hrun]
      simp [eq_comm]
    | ok config =>
      obtain ⟨events, hrun⟩ : ∃ events, c.run env files = _ := run_of_config hconfig
      rw [hrun]
      simp

/-! ## The output -/

theorem runWith_of_stdout (hstdout : c.stdout = true) :
    c.runWith config env files = runToStdout c (resolveOptions c config) env files := by
  rw [CommandLine.runWith, hstdout]
  rfl

theorem runWith_of_output {output : Path} (hstdout : c.stdout = false)
    (houtput : outputOf? c config = some output) :
    c.runWith config env files = runToFile c output (resolveOptions c config) env files := by
  rw [CommandLine.runWith, hstdout, houtput]
  rfl

variable (c config env files) in
/-- A run that needs an output path and has none ends before it has changed anything. -/
theorem runWith_of_no_output (hstdout : c.stdout = false) (houtput : outputOf? c config = none) :
    c.runWith config env files = { ending := .aborted, files } := by
  rw [CommandLine.runWith, hstdout, houtput]
  rfl

/-! ## The input -/

variable {options : Options}

theorem runToStdout_files : (runToStdout c options env files).files = files := by
  rw [runToStdout]
  cases openInput files (Path.ofText c.input) <;> rfl

theorem runToFile_files {output : Path} :
    (runToFile c output options env files).files
      = (convertFile files (.ofText c.input) output options).files := by
  rw [runToFile]
  dsimp only
  cases (convertFile files (Path.ofText c.input) output options).result <;> rfl

/-- A run that prints converts the input that it has opened to standard output. -/
theorem runToStdout_of_opened {source : Location} {opened : Input}
    (hinput : files.openInput (.ofText c.input) = .ok (source, opened)) :
    runToStdout c options env files =
      let stdout := LineBuffer.ofDevice (if env.stdoutFull then .full else .store #[])
      let course := convert opened stdout options
      { ending := match course.result with
          | .ok _ => .success
          | .error e => .failed (e.withInputPath (Path.ofText c.input).display)
          | .endless => .endless
        stdout := course.sink.buffer.device.content.toList
        events := course.dropped.map .droppedLine
        files } := by
  rw [runToStdout, openInput, hinput]
  rfl

section Unreadable

variable {fault : Fault} (hinput : files.openInput (.ofText c.input) = .error fault)

include hinput

/-- An input that cannot be read ends a run before anything is printed, -/
theorem runToStdout_of_unreadable :
    runToStdout c options env files
      = { ending := .failed (.inputUnreadable (Path.ofText c.input).display fault), files } := by
  rw [runToStdout]
  dsimp only
  rw [openInput, hinput]
  rfl

/-- and before anything is written. -/
theorem runToFile_of_unreadable (output : Path) :
    ∃ events, runToFile c output options env files
      = { ending := .failed (.inputUnreadable (Path.ofText c.input).display fault)
          events, files } := by
  rw [runToFile]
  dsimp only
  rw [convertFile_of_unreadable options hinput]
  exact ⟨_, rfl⟩

end Unreadable

end Stages

end DataInlay
