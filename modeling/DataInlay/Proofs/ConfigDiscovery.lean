/-
# DataInlay.Proofs.ConfigDiscovery — which files the configuration depends on

Under a directory, the first candidate that is a regular file is the configuration, whatever
it holds; what stands at the other candidates plays no part (`Config.load_of_wins`). And with
a configuration file given, no candidate plays a part at all, unless it is that file, the
input or the output (`run_alike`).

Both are statements about two trees. The second lets them differ at any locations that the
run does not read from or write to, which is more than the candidates under any directory.
It has two readings of "does not", as two notions of a path's use of a location: that the path
neither leads there nor through there, and then the runs are the same; or only that it does
not lead there and that no directory is at stake. In that case reports have the same code,
message and help, but they also tell the fault behind the error, and this need not be the same:
a path that goes on behind a file meets another fault than one that goes on behind nothing
(`candidate_shows_on_the_way`).
-/
import DataInlay.Proofs.RunEffects
import DataInlay.Proofs.TreesApart

namespace DataInlay

/-! ## Discovery -/

namespace Config

variable {t t' : FileTree} {root : Path} {name : String} {content : Bytes}

/-- The candidate under the directory is a regular file that holds the content. -/
def Holds (t : FileTree) (root : Path) (name : String) (content : Bytes) : Prop :=
  t.found? (root.join (.ofText name)) = some (.file content)

instance : Decidable (Holds t root name content) :=
  inferInstanceAs (Decidable (_ = _))

/-- Of the candidates under the directory, this is the first that is a regular file, and it
holds the content. -/
def Wins (t : FileTree) (root : Path) (name : String) (content : Bytes) : Prop :=
  ∃ before after, candidates = before ++ name :: after
    ∧ (∀ other ∈ before, ∀ held, ¬ Holds t root other held) ∧ Holds t root name content

/-- The candidate under the directory that is found first. -/
def found? (t : FileTree) (root : Path) : Option String :=
  candidates.find? fun name => t.isFile (root.join (.ofText name))

theorem resolvePath_eq (t : FileTree) (root : Path) :
    resolvePath t root = (found? t root).map fun name => root.join (.ofText name) := by
  rw [resolvePath, List.find?_map]
  rfl

theorem found?_eq_none_iff :
    found? t root = none ↔ ∀ name ∈ candidates, ∀ content, ¬ Holds t root name content := by
  simp only [found?, List.find?_eq_none, FileTree.isFile_iff, not_exists, Holds]

theorem found?_eq_some_iff : found? t root = some name ↔ ∃ content, Wins t root name content := by
  simp only [found?, List.find?_eq_some_iff_append, Bool.not_eq_true', ← Bool.not_eq_true,
    FileTree.isFile_iff, not_exists]
  constructor
  · rintro ⟨⟨content, holds⟩, before, after, heq, hbefore⟩
    exact ⟨content, before, after, heq, hbefore, holds⟩
  · rintro ⟨content, before, after, heq, hbefore, holds⟩
    exact ⟨⟨content, holds⟩, before, after, heq, hbefore⟩

/-- Without a regular file among the candidates, there is no configuration, -/
theorem load_eq_none_iff :
    load t root = .ok none ↔ ∀ name ∈ candidates, ∀ content, ¬ Holds t root name content := by
  rw [← found?_eq_none_iff, load, resolvePath_eq]
  cases found? t root with
  | none => exact iff_of_true rfl rfl
  | some name =>
    refine iff_of_false ?_ nofun
    show (loadFile t (root.join (.ofText name))).map some ≠ _
    cases loadFile t (root.join (.ofText name)) <;> exact nofun

/-- and with one, it is what the first of them comes to, an error included. -/
theorem load_of_wins (h : Wins t root name content) :
    load t root = (loadFile t (root.join (.ofText name))).map some := by
  rw [load, resolvePath_eq, found?_eq_some_iff.mpr ⟨content, h⟩]
  rfl

theorem load_eq_none_or_wins (t : FileTree) (root : Path) :
    load t root = .ok none ∨ ∃ name content, Wins t root name content := by
  rw [load_eq_none_iff, ← found?_eq_none_iff]
  cases hfound : found? t root with
  | none => exact .inl rfl
  | some name => exact .inr ⟨name, found?_eq_some_iff.mp hfound⟩

/-- What a configuration file comes to depends on its path and its content. -/
theorem loadFile_of_file {p : Path} (h : t.found? p = some (.file content))
    (h' : t'.found? p = some (.file content)) : loadFile t p = loadFile t' p := by
  rw [loadFile, loadFile, FileTree.read_of_file h, FileTree.read_of_file h']

theorem load_congr (h : Wins t root name content) (h' : Wins t' root name content) :
    load t root = load t' root := by
  rw [load_of_wins h, load_of_wins h']
  obtain ⟨-, -, -, -, holds⟩ := h
  obtain ⟨-, -, -, -, holds'⟩ := h'
  rw [loadFile_of_file holds holds']

theorem loadFile_alike {S : Location → Prop} {exact : Prop} {p : Path} (h : t.AgreeOutside t' S)
    (lead : FileTree.LeadsAlike exact t t' S p) :
    Conclusion.Alike exact (loadFile t p) (loadFile t' p) := by
  rw [loadFile, loadFile, FileTree.read, FileTree.read]
  rcases FileTree.openInput_alike h lead with ⟨opened, ho, ho'⟩ | ⟨fault, fault', ho, ho', same⟩
  · rw [ho, ho']
    exact .same _
  · rw [ho, ho']
    exact .errors ⟨rfl, rfl, rfl, rfl⟩ fun hexact => by rw [same hexact]

end Config

/-- A run without a configuration file given takes what discovery loads, or else the
defaults. -/
theorem loadConfig_of_discovery {c : CommandLine} {files : FileTree} {root : Path}
    (h : c.config? = none) (hroot : (c.path?.map Path.ofText).getD files.workingPath = root) :
    (loadConfig c files).2 = (Config.load files root).map (·.getD {}) := by
  rw [loadConfig, configPath?, h, Config.load]
  dsimp only
  rw [hroot]
  cases Config.resolvePath files root with
  | none => rfl
  | some p =>
    dsimp only
    cases Config.loadFile files p <;> rfl

/-! ## Runs that end alike -/

/-- The runs ended the same way, or both with errors that are alike. -/
inductive Ending.Alike : Ending → Ending → Prop
  | same (ending : Ending) : Alike ending ending
  | failed {e e' : InlayError} (h : e.Alike e') : Alike (.failed e) (.failed e')

theorem Ending.Alike.status {ending ending' : Ending} (h : ending.Alike ending') :
    ending.status = ending'.status := by
  rcases h with _ | _ <;> rfl

/-- The runs ended alike, printed the same, told the same events, and left trees that agree
outside `S`. -/
structure Outcome.Alike (S : Location → Prop) (o o' : Outcome) : Prop where
  ending : o.ending.Alike o'.ending
  stdout : o.stdout = o'.stdout
  events : o.events = o'.events
  files : o.files.AgreeOutside o'.files S

theorem Outcome.Alike.after {S : Location → Prop} {o o' : Outcome} (h : o.Alike S o')
    (event : LogEvent) : (o.after event).Alike S (o'.after event) :=
  ⟨h.ending, h.stdout, congrArg (event :: ·) h.events, h.files⟩

theorem Outcome.Alike.showing {S : Location → Prop} {o o' : Outcome} (h : o.Alike S o')
    (filter : LogFilter) : (o.showing filter).Alike S (o'.showing filter) :=
  ⟨h.ending, h.stdout, congrArg (List.filter filter) h.events, h.files⟩

/-- The run left what the tree holds in `S`. -/
def Outcome.LeavesAlone (o : Outcome) (t : FileTree) (S : Location → Prop) : Prop :=
  ∀ l, S l → o.files.get? l = t.get? l

/-- The paths that a command line follows are such: to the configuration file that is given,
to the input and, if it writes one, to the output. -/
structure CommandLine.EachPath (c : CommandLine) (files : FileTree) (Such : Path → Prop) :
    Prop where
  config : ∀ given, c.config? = some given → Such (.ofText given)
  input : Such (.ofText c.input)
  output : c.stdout = false → ∀ config output, (loadConfig c files).2 = .ok config →
    outputOf? c config = some output → Such output

theorem CommandLine.EachPath.imp {c : CommandLine} {files : FileTree} {P Q : Path → Prop}
    (h : c.EachPath files P) (hPQ : ∀ p, P p → Q p) : c.EachPath files Q :=
  ⟨fun given hgiven => hPQ _ (h.config given hgiven), hPQ _ h.input,
    fun hstdout config output hconfig houtput =>
      hPQ _ (h.output hstdout config output hconfig houtput)⟩

section Runs

variable {t t' : FileTree} {S : Location → Prop} {exact : Prop} {c : CommandLine}
  {config : Config} {env : Environment}

theorem runToStdout_alike (h : t.AgreeOutside t' S)
    (hinput : FileTree.LeadsAlike exact t t' S (.ofText c.input)) (options : Options) :
    (runToStdout c options env t).Alike S (runToStdout c options env t')
      ∧ (exact → (runToStdout c options env t).ending = (runToStdout c options env t').ending) := by
  rw [runToStdout, runToStdout]
  dsimp only
  rcases openInput_alike h hinput with ⟨opened, ho, ho'⟩ | ⟨e, e', ho, ho', halike, hsame⟩
  · rw [ho, ho']
    exact ⟨⟨.same _, rfl, rfl, h⟩, fun _ => rfl⟩
  · rw [ho, ho']
    exact ⟨⟨.failed halike, rfl, rfl, h⟩, fun hexact => congrArg Ending.failed (hsame hexact)⟩

theorem runToFile_alike (h : t.AgreeOutside t' S) {output : Path}
    (hinput : FileTree.LeadsAlike exact t t' S (.ofText c.input))
    (houtput : FileTree.LeadsAlike exact t t' S output) (options : Options) :
    (runToFile c output options env t).Alike S (runToFile c output options env t')
      ∧ (exact → (runToFile c output options env t).ending
        = (runToFile c output options env t').ending) := by
  obtain ⟨files, files', dropped, result, result', hconvert, hconvert', alike, agree⟩ :=
    convertFile_alike h hinput houtput options
  rw [runToFile, runToFile]
  dsimp only
  rw [hconvert, hconvert']
  rcases alike with result | ⟨halike, hsame⟩
  · rcases result with summary | e | _ <;> exact ⟨⟨.same _, rfl, rfl, agree⟩, fun _ => rfl⟩
  · exact ⟨⟨.failed halike, rfl, rfl, agree⟩, fun hexact => congrArg Ending.failed (hsame hexact)⟩

theorem runWith_alike (h : t.AgreeOutside t' S)
    (hinput : FileTree.LeadsAlike exact t t' S (.ofText c.input)) (env : Environment)
    (houtput : c.stdout = false → ∀ output, outputOf? c config = some output →
      FileTree.LeadsAlike exact t t' S output) :
    (c.runWith config env t).Alike S (c.runWith config env t')
      ∧ (exact → (c.runWith config env t).ending = (c.runWith config env t').ending) := by
  cases hstdout : c.stdout with
  | true =>
    rw [runWith_of_stdout hstdout, runWith_of_stdout hstdout]
    exact runToStdout_alike h hinput _
  | false =>
    cases hderived : outputOf? c config with
    | none =>
      rw [runWith_of_no_output c config env t hstdout hderived,
        runWith_of_no_output c config env t' hstdout hderived]
      exact ⟨⟨.same _, rfl, rfl, h⟩, fun _ => rfl⟩
    | some output =>
      rw [runWith_of_output hstdout hderived, runWith_of_output hstdout hderived]
      exact runToFile_alike h hinput (houtput hstdout output hderived) _

theorem loadConfig_of_given {given : String} {files : FileTree} (h : c.config? = some given) :
    loadConfig c files = (some (.ofText given), Config.loadFile files (.ofText given)) := by
  rw [loadConfig, configPath?, h]

/-- With a configuration file given and paths that lead alike, runs end alike, whatever
directory they are told to look for candidates in. -/
theorem carried_out_alike (h : t.AgreeOutside t' S) {given : String}
    (hgiven : c.config? = some given) (leads : c.EachPath t (FileTree.LeadsAlike exact t t' S))
    (other : Option String) (env : Environment) :
    (c.run env t).Alike S (({ c with path? := other } : CommandLine).run env t')
      ∧ (exact → (c.run env t).ending
        = (({ c with path? := other } : CommandLine).run env t').ending) := by
  have loaded := Config.loadFile_alike h (leads.config given hgiven)
  have output := leads.output
  have hload' : loadConfig { c with path? := other } t' = _ := loadConfig_of_given hgiven
  rw [loadConfig_of_given hgiven] at output
  rw [CommandLine.run, CommandLine.run, CommandLine.carryOut, CommandLine.carryOut,
    loadConfig_of_given hgiven, hload']
  dsimp only at output ⊢
  generalize Config.loadFile t (.ofText given) = result,
    Config.loadFile t' (.ofText given) = result' at loaded output
  have stopped (ending : Ending) : Outcome.Alike S { ending, files := t } { ending, files := t' } :=
    ⟨.same _, rfl, rfl, h⟩
  rcases loaded with result | ⟨halike, hsame⟩
  · cases result with
    | error e => exact ⟨((stopped _).after _).showing _, fun _ => rfl⟩
    | endless => exact ⟨((stopped _).after _).showing _, fun _ => rfl⟩
    | ok config =>
      obtain ⟨alike, same⟩ := runWith_alike h leads.input env
        fun hstdout output' => output hstdout config output' rfl
      exact ⟨(alike.after _).showing _, same⟩
  · next e e' =>
    have alike : Outcome.Alike S { ending := .failed e, files := t }
        { ending := .failed e', files := t' } := ⟨.failed halike, rfl, rfl, h⟩
    exact ⟨(alike.after _).showing _, fun hexact => congrArg Ending.failed (hsame hexact)⟩

/-- A run whose output does not lead into `S` leaves what is there. -/
theorem run_leaves_alone {arguments : List String} (hparse : CommandLine.parse arguments = .ok c)
    (outside : ∀ l, c.Target t l → ¬ S l) (env : Environment) :
    (run arguments env t).LeavesAlone t S := by
  intro l hl
  rcases run_changes arguments env t with hsame | ⟨c', k, hparse', target, puts⟩
  · rw [hsame]
  · cases hparse.symm.trans hparse'
    apply puts.others
    rintro rfl
    exact outside l target hl

/-- Neither run has its output in `S`. -/
theorem target_outside (h : t.AgreeOutside t' S) {given : String} (hgiven : c.config? = some given)
    (leads : c.EachPath t (FileTree.LeadsAlike exact t t' S)) (other : Option String)
    (l : Location) :
    (c.Target t l → ¬ S l) ∧ (({ c with path? := other } : CommandLine).Target t' l → ¬ S l) := by
  constructor
  · rintro ⟨hstdout, config, output, hconfig, houtput, hl⟩
    exact (leads.output hstdout config output hconfig houtput).outside (.inl hl)
  · rintro ⟨hstdout, config, output, hconfig', houtput, hl⟩
    have loaded := Config.loadFile_alike h (leads.config given hgiven)
    have hload' : loadConfig { c with path? := other } t' = _ := loadConfig_of_given hgiven
    rw [hload'] at hconfig'
    -- a configuration that one run has, the other has as well
    have hconfig : (loadConfig c t).2 = .ok config := by
      rw [loadConfig_of_given hgiven]
      dsimp only at hconfig' ⊢
      rw [hconfig'] at loaded
      generalize Config.loadFile t (.ofText given) = result at loaded
      cases loaded
      rfl
    exact (leads.output hstdout config output hconfig houtput).outside (.inr hl)

/-- **Runs with a configuration file given**, to which and from which all paths lead alike,
end alike, and neither touches what the trees differ in. -/
theorem run_alike (h : t.AgreeOutside t' S) {arguments arguments' : List String}
    {other : Option String} (hparse : CommandLine.parse arguments = .ok c)
    (hparse' : CommandLine.parse arguments' = .ok { c with path? := other }) {given : String}
    (hgiven : c.config? = some given) (leads : c.EachPath t (FileTree.LeadsAlike exact t t' S))
    (env : Environment) :
    (run arguments env t).Alike S (run arguments' env t')
    ∧ (exact → (run arguments env t).ending = (run arguments' env t').ending)
    ∧ (run arguments env t).LeavesAlone t S ∧ (run arguments' env t').LeavesAlone t' S := by
  have outside := target_outside h hgiven leads other
  have alone := run_leaves_alone hparse (fun l => (outside l).1) env
  have alone' := run_leaves_alone hparse' (fun l => (outside l).2) env
  obtain ⟨alike, same⟩ := carried_out_alike h hgiven leads other env
  refine ⟨?_, ?_, alone, alone'⟩
  · rw [run_of_parsed hparse, run_of_parsed hparse']
    exact alike
  · rw [run_of_parsed hparse, run_of_parsed hparse']
    exact same

end Runs

/-- **What the configuration does not depend on.** Under every directory there is none exactly
if no candidate is a regular file; otherwise one of them is the first that is, and the
configuration is what this one loads as, an error included. So trees in which the same
candidate is the first and holds the same give the same configuration. It is that of a run
without a configuration file given, for the directory that the run looks in.

With a configuration file given, take two runs that differ in the directory to look in for
candidates, and in what the trees hold in `S`, say as candidates under any directories. If no
directory is among that, and neither the file given nor the input nor the output is there,
then the runs end with the same status, print the same, tell the same, and write the same;
errors have the same code, message, help and path, but may differ in the fault behind them.
What the trees hold in `S` stays. If, moreover or instead, those paths do not even lead through
`S`, the runs end the same in every respect. -/
theorem configuration_noninterference (t t' : FileTree) :
    (∀ root,
      (Config.load t root = .ok none ↔
        ∀ name ∈ Config.candidates, ∀ content, ¬ Config.Holds t root name content)
      ∧ (Config.load t root = .ok none ∨ ∃ name content, Config.Wins t root name content)
      ∧ (∀ name content, Config.Wins t root name content →
        Config.load t root = (Config.loadFile t (root.join (.ofText name))).map some
        ∧ (Config.Wins t' root name content → Config.load t root = Config.load t' root))
      ∧ ∀ c : CommandLine, c.config? = none →
        (c.path?.map Path.ofText).getD t.workingPath = root →
        (loadConfig c t).2 = (Config.load t root).map (·.getD {}))
    ∧ ∀ (S : Location → Prop) (arguments arguments' : List String) (env : Environment)
        (c : CommandLine) (given : String) (other : Option String),
      CommandLine.parse arguments = .ok c →
      CommandLine.parse arguments' = .ok { c with path? := other } →
      c.config? = some given → t.AgreeOutside t' S →
      let outcome := run arguments env t
      let outcome' := run arguments' env t'
      (FileTree.NoDirectories t t' S → c.EachPath t (t.EndsOutside S) →
        outcome.Alike S outcome' ∧ outcome.ending.status = outcome'.ending.status
        ∧ outcome.LeavesAlone t S ∧ outcome'.LeavesAlone t' S)
      ∧ (c.EachPath t (t.KeepsClear S) →
        outcome.Alike S outcome' ∧ outcome.ending = outcome'.ending
        ∧ outcome.LeavesAlone t S ∧ outcome'.LeavesAlone t' S) := by
  constructor
  · intro root
    refine ⟨Config.load_eq_none_iff, Config.load_eq_none_or_wins t root, ?_, ?_⟩
    · intro name content wins
      exact ⟨Config.load_of_wins wins, fun wins' => Config.load_congr wins wins'⟩
    · exact fun c => loadConfig_of_discovery
  · intro S arguments arguments' env c given other hparse hparse' hgiven agree outcome outcome'
    constructor
    · intro hS outside
      have leads := outside.imp fun p => FileTree.leadsAlike_of_files agree hS
      obtain ⟨alike, -, alone⟩ := run_alike agree hparse hparse' hgiven leads env
      exact ⟨alike, alike.ending.status, alone⟩
    · intro clear
      have leads := clear.imp fun p => FileTree.leadsAlike_of_clear agree
      obtain ⟨alike, same, alone⟩ := run_alike agree hparse hparse' hgiven leads env
      exact ⟨alike, same trivial, alone⟩

/-- A first candidate with a fault in it is reported although the second is in order, and
makes no difference to a run that is given another file. -/
theorem faulty_candidate_without_effect :
    let others : FileTree :=
      { entries := [([utf8 ".embedjson.toml"], .file (utf8 "symbol = \"s\"\n")),
          ([utf8 "my.toml"], .file (utf8 "extension = \"h\"\n")),
          ([utf8 "in.json"], .file (utf8 "1"))]
        workingDirectory := [] }
    let tree (first : String) := others.set [utf8 "embedjson.toml"] (.file (utf8 first))
    let arguments := ["in.json", "--config", "my.toml"]
    Config.load (tree "symbol = 1\n") []
      = .error (.configParse "embedjson.toml" (.wrongValue "symbol"))
    ∧ (run arguments {} (tree "symbol = 1\n")).stdout
      = (run (arguments ++ ["-p", "src"]) {} (tree "bytes_per_line = 9\n")).stdout
    ∧ (run arguments {} (tree "symbol = 1\n")).ending
      = (run (arguments ++ ["-p", "src"]) {} (tree "bytes_per_line = 9\n")).ending := by
  intro others tree arguments
  let first : Location := [utf8 "embedjson.toml"]
  have agree : (tree "symbol = 1\n").AgreeOutside (tree "bytes_per_line = 9\n") (· = first) := by
    refine ⟨fun l hl => ?_, rfl⟩
    rw [FileTree.get?_set _ (by decide), FileTree.get?_set _ (by decide), if_neg hl, if_neg hl]
  obtain ⟨discovered, apart⟩ :=
    configuration_noninterference (tree "symbol = 1\n") (tree "bytes_per_line = 9\n")
  obtain ⟨-, -, loaded, -⟩ := discovered []
  have wins : Config.Wins (tree "symbol = 1\n") [] "embedjson.toml" (utf8 "symbol = 1\n") :=
    ⟨[], _, rfl, nofun, by decide +kernel⟩
  let c : CommandLine := { input := "in.json", config? := some "my.toml" }
  have clear : c.EachPath (tree "symbol = 1\n") ((tree "symbol = 1\n").KeepsClear (· = first)) := by
    refine ⟨?_, by decide +kernel, ?_⟩
    · rintro given hgiven
      cases hgiven
      decide +kernel
    · intro hstdout config output hconfig houtput
      have loads : (loadConfig c (tree "symbol = 1\n")).2 = .ok { extension? := some "h" } := by
        decide +kernel
      cases loads.symm.trans hconfig
      have derived : outputOf? c { extension? := some "h" } = some (.ofText "in.h") := by
        decide +kernel
      cases derived.symm.trans houtput
      decide +kernel
  obtain ⟨alike, same, -⟩ := (apart (· = first) arguments (arguments ++ ["-p", "src"]) {} c
    "my.toml" (some "src") (by decide +kernel) (by decide +kernel) rfl agree).2 clear
  refine ⟨?_, alike.stdout, same⟩
  rw [(loaded _ _ wins).1]
  decide +kernel

/-- A run is given a configuration file, and its paths lead to other places than a candidate,
but its input is named by way of the candidate. Then it fails with one fault if the candidate is
a file and with another if nothing is there, and ends well if it is a directory. -/
theorem candidate_shows_on_the_way :
    let absent : FileTree :=
      { entries := [([utf8 "my.toml"], .file []), ([utf8 "in.json"], .file (utf8 "1"))]
        workingDirectory := [] }
    let candidate : Location := [utf8 "embedjson.toml"]
    let tree (e : Entry) := absent.set candidate e
    let input := "embedjson.toml/../in.json"
    let arguments := [input, "--config", "my.toml", "-o", "out.cpp"]
    let c : CommandLine := { input, config? := some "my.toml", output? := some "out.cpp" }
    CommandLine.parse arguments = .ok c
    ∧ (∀ e, (tree e).AgreeOutside absent (· = candidate))
    ∧ (∀ t ∈ [absent, tree (.file []), tree .directory],
        c.EachPath t (t.EndsOutside (· = candidate)))
    ∧ (run arguments {} absent).ending = .failed (.inputUnreadable input .notFound)
    ∧ (run arguments {} (tree (.file []))).ending
      = .failed (.inputUnreadable input .notADirectory)
    ∧ (run arguments {} (tree .directory)).ending = .success := by
  intro absent candidate tree input arguments c
  have agree (e : Entry) : (tree e).AgreeOutside absent (· = candidate) := by
    refine ⟨fun l hl => ?_, rfl⟩
    rw [FileTree.get?_set _ (by decide), if_neg hl]
  have outside : ∀ t ∈ [absent, tree (.file []), tree .directory],
      c.EachPath t (t.EndsOutside (· = candidate)) := by
    intro t ht
    have leads : ∀ p ∈ ["my.toml", input, "out.cpp"],
        t.EndsOutside (· = candidate) (.ofText p) := by
      revert t
      decide +kernel
    refine ⟨?_, leads input (by simp), ?_⟩
    · rintro given hgiven
      cases hgiven
      exact leads "my.toml" (by simp)
    · rintro - config output - houtput
      cases houtput
      exact leads "out.cpp" (by simp)
  exact ⟨by decide +kernel, agree, outside, by decide +kernel, by decide +kernel,
    by decide +kernel⟩

end DataInlay
