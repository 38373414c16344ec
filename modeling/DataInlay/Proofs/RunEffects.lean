/-
# DataInlay.Proofs.RunEffects — what a run changes, and in which order it fails

A run creates one thing, its output, and nothing before it has been settled that there is
something to write: the arguments are read, then the configuration is loaded, then the input
is opened. So whatever its arguments, a run leaves all files as they were, or puts a file
at the location of its output and leaves everything else (`run_changes`).

The faults of the three stages come in this order. Each ends the run with a report that is
about it, whatever the later stages would have met, and with nothing printed and nothing
changed (`run_effects`). The one thing that can come in between is an extension that makes
no output path.
-/
import DataInlay.Proofs.OutputExtension

namespace DataInlay

/-! ## Trees that differ in one file -/

/-- From one tree to the other, a file is put where no directory is, and nothing else
changes. -/
structure FileTree.PutsFile (t t' : FileTree) (l : Location) : Prop where
  is_file : ∃ content, t'.get? l = some (.file content)
  not_directory : t.get? l ≠ some .directory
  others : ∀ k, k ≠ l → t'.get? k = t.get? k
  working : t'.workingDirectory = t.workingDirectory

/-- Then only paths that lead there lead to something else than before. -/
theorem FileTree.PutsFile.found?_eq {t t' : FileTree} {l : Location} (h : t.PutsFile t' l)
    {p : Path} (hp : t.locate p ≠ .ok l) : t'.found? p = t.found? p := by
  obtain ⟨content, hcontent⟩ := h.is_file
  have held : ∀ k, t'.get? k = if k = l then some (.file content) else t.get? k := by
    intro k
    split
    · next hk => rw [hk, hcontent]
    · next hk => exact h.others k hk
  exact (found?_of_put h.not_directory held h.working p).2 hp

/-- **A conversion changes its output and nothing else**, also when it fails half-way or has
no end, and when both paths lead to one file. -/
theorem convertFile_changes (t : FileTree) (input output : Path) (options : Options) :
    (convertFile t input output options).files = t
      ∨ ∃ l, t.locate output = .ok l ∧ t.PutsFile (convertFile t input output options).files l := by
  cases hinput : t.openInput input with
  | error fault =>
    rw [convertFile_of_unreadable options hinput]
    exact .inl rfl
  | ok opened =>
    obtain ⟨source, opened⟩ := opened
    cases houtput : t.create output with
    | error fault =>
      rw [convertFile_of_uncreatable options hinput houtput]
      exact .inl rfl
    | ok made =>
      obtain ⟨l, created⟩ := made
      obtain ⟨hlocate, ⟨rfl, hcreatable⟩ | ⟨rfl, hdevice⟩⟩ := FileTree.create_eq_ok houtput
      · -- an empty file, and then one with what was written
        have hno := FileTree.not_directory_of_creatable hcreatable
        have hroot := FileTree.ne_root_of_not_directory hno
        have emptied : (t.set l (.file [])).get? l = some (.file []) := by
          rw [FileTree.get?_set t hroot, if_pos rfl]
        rw [convertFile_to_file options hinput houtput emptied]
        refine .inr ⟨l, hlocate, ?_, hno, ?_, rfl⟩
        · exact ⟨_, (FileTree.get?_set _ hroot _ l).trans (if_pos rfl)⟩
        · intro k hk
          dsimp only
          rw [FileTree.get?_set _ hroot, if_neg hk, FileTree.get?_set _ hroot, if_neg hk]
      · -- a device, which keeps nothing
        rcases hdevice with hnull | hfull
        · rw [convertFile_to_device options hinput houtput hnull nofun]
          exact .inl rfl
        · rw [convertFile_to_device options hinput houtput hfull nofun]
          exact .inl rfl

/-! ## What a run changes -/

section Runs

variable {c : CommandLine} {files : FileTree}

/-- The location of a command line's output: where the path leads that is given for it, or
else the path that is derived. A command line that prints has none. -/
def CommandLine.Target (c : CommandLine) (files : FileTree) (l : Location) : Prop :=
  c.stdout = false ∧ ∃ config output, (loadConfig c files).2 = .ok config
    ∧ outputOf? c config = some output ∧ files.locate output = .ok l

theorem CommandLine.Target.unique {l k : Location} (hl : c.Target files l) (hk : c.Target files k) :
    l = k := by
  obtain ⟨-, config, output, hconfig, houtput, hl⟩ := hl
  obtain ⟨-, config', output', hconfig', houtput', hk⟩ := hk
  cases hconfig.symm.trans hconfig'
  cases houtput.symm.trans houtput'
  exact Except.ok.inj (hl.symm.trans hk)

theorem carried_out_changes (c : CommandLine) (env : Environment) (files : FileTree) :
    (c.run env files).files = files
      ∨ ∃ l, c.Target files l ∧ files.PutsFile (c.run env files).files l := by
  cases hconfig : (loadConfig c files).2 with
  | error e =>
    obtain ⟨events, hrun⟩ : ∃ events, c.run env files = _ := run_of_bad_config hconfig
    rw [hrun]
    exact .inl rfl
  | endless =>
    obtain ⟨events, hrun⟩ : ∃ events, c.run env files = _ := run_of_endless_config hconfig
    rw [hrun]
    exact .inl rfl
  | ok config =>
    obtain ⟨events, hrun⟩ : ∃ events, c.run env files = _ := run_of_config hconfig
    rw [hrun]
    show (c.runWith config env files).files = files
      ∨ ∃ l, c.Target files l ∧ files.PutsFile (c.runWith config env files).files l
    cases hstdout : c.stdout with
    | true =>
      rw [runWith_of_stdout hstdout]
      exact .inl runToStdout_files
    | false =>
      cases houtput : outputOf? c config with
      | none =>
        rw [runWith_of_no_output c config env files hstdout houtput]
        exact .inl rfl
      | some output =>
        rw [runWith_of_output hstdout houtput, runToFile_files]
        apply (convertFile_changes files (.ofText c.input) output _).imp_right
        rintro ⟨l, hl, puts⟩
        exact ⟨l, ⟨hstdout, config, output, hconfig, houtput, hl⟩, puts⟩

/-- A run changes nothing, or puts a file at the location of its output. -/
theorem run_changes (arguments : List String) (env : Environment) (files : FileTree) :
    (run arguments env files).files = files
      ∨ ∃ c l, CommandLine.parse arguments = .ok c ∧ c.Target files l
        ∧ files.PutsFile (run arguments env files).files l := by
  rw [run]
  cases CommandLine.parse arguments with
  | error stop => exact .inl rfl
  | ok c =>
    apply (carried_out_changes c env files).imp_right
    rintro ⟨l, target, puts⟩
    exact ⟨c, l, rfl, target, puts⟩

/-! ## In which order a run fails -/

/-- The run has ended with this report and status 2, has printed nothing, and has changed
nothing. -/
structure Outcome.OnlyReports (o : Outcome) (report : Ending) (files : FileTree) : Prop where
  ending : o.ending = report
  status : o.ending.status = some 2
  stdout : o.stdout = []
  files : o.files = files

/-- Refused arguments end a run before it looks at any file. -/
theorem reports_refused {arguments : List String} (env : Environment) (files : FileTree)
    {e : UsageError} (h : CommandLine.parse arguments = .error (.refused e)) :
    (run arguments env files).OnlyReports (.stopped (.refused e)) files := by
  -- the report goes to standard error, so it is all one what standard output takes
  have silent : utf8 ((ParseStop.refused e).printed (env.helpText arguments)) = [] := rfl
  have stopped : run arguments env files = { ending := .stopped (.refused e), files } := by
    rw [run, h]
    dsimp only
    rw [silent, ite_self]
  rw [stopped]
  exact ⟨rfl, rfl, rfl, rfl⟩

/-- What is wrong within a file is reported as a fault of its syntax or of its settings. -/
theorem Config.Problem.code_toError (problem : Config.Problem) (path : String) :
    (problem.toError path).code ∈ ["embedjson::config_parse", "embedjson::invalid_config"] := by
  cases problem with
  | document problem => cases problem <;> exact List.mem_cons_self
  | unknownKey | wrongValue => exact List.mem_cons_self
  | emptySymbol | emptyExtension | zeroWidth => exact List.mem_cons_of_mem _ List.mem_cons_self

/-- A configuration that does not load is reported as one that cannot be read, parsed or
accepted. -/
theorem code_of_bad_config {e : InlayError} (h : (loadConfig c files).2 = .error e) :
    e.code ∈ ["embedjson::config_unreadable", "embedjson::config_parse",
      "embedjson::invalid_config"] := by
  rw [loadConfig] at h
  split at h
  · cases h
  · next p _ =>
    dsimp only [Config.loadFile] at h
    split at h
    · cases h
      exact List.mem_cons_self
    · cases h
    · split at h
      · cases h
        exact List.mem_cons_self
      · next document _ =>
        cases hdocument : Config.ofDocument document with
        | ok config =>
          rw [hdocument] at h
          cases h
        | error problem =>
          rw [hdocument] at h
          cases h
          exact List.mem_cons_of_mem _ (problem.code_toError _)

theorem reports_bad_config (env : Environment) {e : InlayError}
    (h : (loadConfig c files).2 = .error e) : (c.run env files).OnlyReports (.failed e) files := by
  obtain ⟨events, hrun⟩ : ∃ events, c.run env files = _ := run_of_bad_config h
  rw [hrun]
  exact ⟨rfl, rfl, rfl, rfl⟩

theorem reports_unreadable (env : Environment) {config : Config} {fault : Fault}
    (hconfig : (loadConfig c files).2 = .ok config)
    (hextension : c.stdout = false → c.output? = none → '/' ∉ config.extension.toList)
    (hinput : files.openInput (.ofText c.input) = .error fault) :
    (c.run env files).OnlyReports (.failed (.inputUnreadable c.input fault)) files := by
  have shown : (Path.ofText c.input).display = c.input := displayText_utf8 c.input
  obtain ⟨events, hrun⟩ : ∃ events, c.run env files = _ := run_of_config hconfig
  rw [hrun]
  cases hstdout : c.stdout with
  | true =>
    rw [runWith_of_stdout hstdout, runToStdout_of_unreadable hinput, shown]
    exact ⟨rfl, rfl, rfl, rfl⟩
  | false =>
    cases houtput : outputOf? c config with
    | none =>
      obtain ⟨hnone, hslash⟩ := (outputOf?_eq_none_iff c config).mp houtput
      exact absurd (config.slash_mem_extension.mpr hslash) (hextension hstdout hnone)
    | some output =>
      obtain ⟨events', hfile⟩ : ∃ events, runToFile c output (resolveOptions c config) env files
        = _ := runToFile_of_unreadable hinput output
      rw [runWith_of_output hstdout houtput, hfile, shown]
      exact ⟨rfl, rfl, rfl, rfl⟩

end Runs

/-- **The effects of a run.** Whatever the arguments, at most one location holds something
else after a run, or once a run without an end has got to its lines: that of the output. Only
paths that lead there lead to something else, and a run that prints changes nothing. Arguments
that are refused are reported as such; otherwise a configuration that does not load is,
whatever the input; and otherwise an input that cannot be read is, whatever the output, unless
the extension of a path to be derived holds a slash. In each of these cases the status is 2,
nothing is printed, and nothing changes. -/
theorem run_effects (arguments : List String) (env : Environment) (files : FileTree) :
    let outcome := run arguments env files
    (∀ k, outcome.files.get? k ≠ files.get? k →
        ∃ c, CommandLine.parse arguments = .ok c ∧ c.Target files k)
    ∧ (∀ k k', outcome.files.get? k ≠ files.get? k → outcome.files.get? k' ≠ files.get? k' → k = k')
    ∧ (∀ p, outcome.files.found? p ≠ files.found? p →
        ∃ c l, CommandLine.parse arguments = .ok c ∧ c.Target files l ∧ files.locate p = .ok l)
    ∧ (∀ e, CommandLine.parse arguments = .error (.refused e) →
        outcome.OnlyReports (.stopped (.refused e)) files)
    ∧ ∀ c, CommandLine.parse arguments = .ok c →
      (c.stdout = true → outcome.files = files)
      ∧ (∀ e, (loadConfig c files).2 = .error e →
          outcome.OnlyReports (.failed e) files
          ∧ e.code ∈ ["embedjson::config_unreadable", "embedjson::config_parse",
            "embedjson::invalid_config"])
      ∧ ∀ config fault, (loadConfig c files).2 = .ok config →
          (c.stdout = false → c.output? = none → '/' ∉ config.extension.toList) →
          files.openInput (.ofText c.input) = .error fault →
          outcome.OnlyReports (.failed (.inputUnreadable c.input fault)) files := by
  intro outcome
  have changes : outcome.files = files ∨ _ := run_changes arguments env files
  have located : ∀ k, outcome.files.get? k ≠ files.get? k →
      ∃ c, CommandLine.parse arguments = .ok c ∧ c.Target files k := by
    intro k hk
    rcases changes with hsame | ⟨c, l, hparse, target, puts⟩
    · exact absurd (by rw [hsame]) hk
    · obtain rfl : k = l := Decidable.byContradiction fun hother => hk (puts.others k hother)
      exact ⟨c, hparse, target⟩
  refine ⟨located, ?_, ?_, ?_, ?_⟩
  · intro k k' hk hk'
    obtain ⟨c, hparse, target⟩ := located k hk
    obtain ⟨c', hparse', target'⟩ := located k' hk'
    cases hparse.symm.trans hparse'
    exact target.unique target'
  · intro p hp
    rcases changes with hsame | ⟨c, l, hparse, target, puts⟩
    · exact absurd (by rw [hsame]) hp
    · exact ⟨c, l, hparse, target,
        Decidable.byContradiction fun hother => hp (puts.found?_eq hother)⟩
  · exact fun e => reports_refused env files
  · intro c hparse
    have carried : outcome = c.run env files := by
      show run arguments env files = _
      rw [run, hparse]
    rw [carried]
    refine ⟨?_, ?_, ?_⟩
    · intro hstdout
      rcases carried_out_changes c env files with hsame | ⟨l, target, -⟩
      · exact hsame
      · exact absurd (hstdout.symm.trans target.1) (by decide)
    · intro e he
      exact ⟨reports_bad_config env he, code_of_bad_config he⟩
    · intro config fault hconfig hextension hinput
      exact reports_unreadable env hconfig hextension hinput

/-- A configuration with an empty symbol is reported although the input is absent and the
output is a directory, and an absent input once the configuration is in order. -/
theorem faults_in_order :
    let faulty (config : String) : FileTree :=
      { entries := [([utf8 "embedjson.toml"], .file (utf8 config)), ([utf8 "out"], .directory)]
        workingDirectory := [] }
    let arguments := ["in.json", "-o", "out"]
    (run arguments {} (faulty "symbol = \"\"\n")).ending
        = .failed (.invalidConfig "`symbol` must not be empty")
    ∧ (run arguments {} (faulty "symbol = \"s\"\n")).ending
        = .failed (.inputUnreadable "in.json" .notFound) := by
  intro faulty arguments
  have hparse : CommandLine.parse arguments = .ok { input := "in.json", output? := some "out" } := by
    decide +kernel
  obtain ⟨-, -, -, -, bad⟩ := run_effects arguments {} (faulty "symbol = \"\"\n")
  obtain ⟨-, -, -, -, good⟩ := run_effects arguments {} (faulty "symbol = \"s\"\n")
  obtain ⟨reported, -⟩ := (bad _ hparse).2.1 (.invalidConfig "`symbol` must not be empty")
    (by decide +kernel)
  have unreadable := (good _ hparse).2.2 { symbol? := some "s" } .notFound (by decide +kernel)
    nofun (by decide +kernel)
  exact ⟨reported.ending, unreadable.ending⟩

end DataInlay
