/-
# DataInlay.Proofs.WrittenCommandLine — command lines that are written and parsed again

A command line is stated by requests, one for each thing that it sets and none twice, in any
order; there always are such requests (`exists_written`). Granting them one by one gives the
part of the command line that has been stated so far (`grant_restrict`), so written in any form
they are parsed as the command line itself.

What does not go together is refused wherever it stands. A request that has been granted holds
from then on, and cannot be granted again (`grant_ok`); so no list of requests can be granted
with two for the same thing, and at the end none passes that has both halves of a conflicting
pair. A form that is put between the name of an option and its value takes that value away, and
is refused for that (`command_line_written_then_parsed`).
-/
import DataInlay.Proofs.WrittenRequests
import Mathlib.Data.List.Nodup

namespace DataInlay

/-! ## Counts in decimal -/

/-- The text writes the number in decimal; a plus may stand in front, and zeros. -/
def WritesCount (n : Nat) (text : String) : Prop :=
  ∃ (plus : Bool) (zeros : Nat),
    text.toList = (if plus then ['+'] else []) ++ (List.replicate zeros '0' ++ Nat.toDigits 10 n)

theorem isDigit_of_writesCount (zeros n : Nat) :
    ∀ c ∈ List.replicate zeros '0' ++ Nat.toDigits 10 n, c.isDigit = true := by
  intro c hc
  rcases List.mem_append.mp hc with hzero | hdigit
  · rw [List.eq_of_mem_replicate hzero]
    rfl
  · exact Nat.isDigit_of_mem_toDigits (by decide) (by decide) hdigit

theorem value_of_writesCount (zeros n : Nat) :
    (List.replicate zeros '0' ++ Nat.toDigits 10 n).foldl
      (fun n c => n * 10 + (c.toNat - '0'.toNat)) 0 = n := by
  induction zeros with
  | zero =>
    have value : Nat.ofDigitChars 10 (Nat.toDigits 10 n) 0 = n := Nat.ofDigitChars_ten_toDigits
    rw [Nat.ofDigitChars] at value
    simp only [Nat.mul_comm 10] at value
    exact value
  | succ zeros ih => exact ih

/-- The plain decimal form is one of them. -/
theorem writesCount_toString (n : Nat) : WritesCount n (toString n) := by
  refine ⟨false, 0, ?_⟩
  rw [Nat.toString_eq_ofList_toDigits, String.toList_ofList]
  rfl

/-- A count that a width can have is read as that width, in whatever form. -/
theorem positiveCount?_of_writes {width : Width} {text : String}
    (small : width.val < UInt64.size) (h : WritesCount width.val text) :
    positiveCount? text = some width := by
  obtain ⟨plus, zeros, htext⟩ := h
  have digits := isDigit_of_writesCount zeros width.val
  have value := value_of_writesCount zeros width.val
  have some : List.replicate zeros '0' ++ Nat.toDigits 10 width.val ≠ [] :=
    List.append_ne_nil_of_right_ne_nil _ Nat.toDigits_ne_nil
  generalize List.replicate zeros '0' ++ Nat.toDigits 10 width.val = written
    at htext digits value some
  have all : written.all (fun c => '0' ≤ c ∧ c ≤ '9') = true := by
    rw [List.all_eq_true]
    intro c hc
    have digit := digits c hc
    rw [Char.isDigit, Bool.and_eq_true, decide_eq_true_iff, decide_eq_true_iff] at digit
    exact decide_eq_true digit
  unfold positiveCount?
  extract_lets read n
  -- a plus is passed over, and no digit is one
  have hread : read = written := by
    cases plus with
    | true =>
      subst read
      rw [htext]
      rfl
    | false =>
      have plain : text.toList = written := htext
      subst read
      split
      · next same =>
        rw [plain] at same
        have digit := digits '+' (by rw [same]; exact List.mem_cons_self)
        cases digit
      · exact plain
  have hn : n = width.val := by
    show List.foldl _ 0 read = _
    rw [hread, value]
  rw [hread, if_pos ⟨some, all⟩, hn, if_pos small, Width.ofNat?, dif_pos width.property]

/-! ## What a command line sets -/

/-- What a request is about. -/
inductive Subject
  | value (target : ValueTarget)
  | flag (f : Flag)
  deriving DecidableEq

namespace Subject

/-- What a command line may set besides its input. -/
def besideInput : List Subject :=
  [.value (.option .output), .value (.option .symbol), .value (.option .bytesPerLine),
    .value (.option .config), .value (.option .path), .flag .stdout, .flag .verbose, .flag .quiet,
    .flag .noColor]

/-- The pairs of which a command line sets one half at most. -/
def exclusive : List (Subject × Subject) :=
  [(.flag .stdout, .value (.option .output)), (.flag .verbose, .flag .quiet)]

/-- The two are the halves of such a pair. -/
def Excludes (a b : Subject) : Prop := (a, b) ∈ exclusive ∨ (b, a) ∈ exclusive

instance (a b : Subject) : Decidable (a.Excludes b) := inferInstanceAs (Decidable (_ ∨ _))

end Subject

/-- What the request is about. -/
def Request.subject : Request → Subject
  | give target _ => .value target
  | raise f => .flag f

namespace CommandLine

/-- The request is for something that the command line sets, and for what it sets there. -/
def Asks (c : CommandLine) : Request → Prop
  | .give .input value => c.input = value
  | .give (.option .output) value => c.output? = some value
  | .give (.option .symbol) value => c.symbol? = some value
  | .give (.option .bytesPerLine) value =>
    ∃ width : Width, c.width? = some width ∧ WritesCount width.val value
  | .give (.option .config) value => c.config? = some value
  | .give (.option .path) value => c.path? = some value
  | .raise .stdout => c.stdout = true
  | .raise .verbose => c.verbose = true
  | .raise .quiet => c.quiet = true
  | .raise .noColor => c.noColor = true
  | .raise .help | .raise .version => False

/-- The requests are for all that the command line sets, each thing once. -/
structure StatedBy (c : CommandLine) (requests : List Request) : Prop where
  asked : ∀ r ∈ requests, c.Asks r
  once : (requests.map Request.subject).Nodup
  all : ∀ r, c.Asks r → r.subject ∈ requests.map Request.subject

/-- The command line can be asked for: its paths are not empty, its width is a number of the
machine, and it does not set both halves of a pair that excludes the other. -/
structure Sound (c : CommandLine) : Prop where
  input : c.input ≠ ""
  output : c.output? ≠ some ""
  config : c.config? ≠ some ""
  path : c.path? ≠ some ""
  width : ∀ width : Width, c.width? = some width → width.val < UInt64.size
  output_or_stdout : ¬ (c.stdout = true ∧ c.output?.isSome = true)
  verbose_or_quiet : ¬ (c.verbose = true ∧ c.quiet = true)

/-- The paths that it sets are not empty. -/
theorem Sound.filled {c : CommandLine} (sound : c.Sound) {target : ValueTarget} {value : String}
    (h : c.Asks (.give target value))
    (path : target ≠ .option .symbol ∧ target ≠ .option .bytesPerLine) : value ≠ "" := by
  rintro rfl
  rcases target with _ | (_ | _ | _ | _ | _)
  · exact sound.input h
  · exact sound.output h
  · exact path.1 rfl
  · exact path.2 rfl
  · exact sound.config h
  · exact sound.path h

/-- The request asks again for what the command line sets — the input apart —, or for the other
half of a pair of which it sets one. -/
def RulesOut (c : CommandLine) (r : Request) : Prop :=
  r.isInput = false
    ∧ ∃ asked, c.Asks asked ∧ (asked.subject = r.subject ∨ asked.subject.Excludes r.subject)

/-- Among distinct subjects, those about which something is asked can be asked for once each. -/
theorem exists_asked (c : CommandLine) (subjects : List Subject) :
    ∃ requests : List Request, (∀ r ∈ requests, c.Asks r)
      ∧ (requests.map Request.subject).Sublist subjects
      ∧ ∀ r, c.Asks r → r.subject ∈ subjects → r.subject ∈ requests.map Request.subject := by
  induction subjects with
  | nil => exact ⟨[], nofun, .slnil, fun _ _ => nofun⟩
  | cons subject subjects ih =>
    obtain ⟨requests, asked, once, all⟩ := ih
    by_cases given : ∃ r, c.Asks r ∧ r.subject = subject
    · obtain ⟨r, hr, rfl⟩ := given
      refine ⟨r :: requests, List.forall_mem_cons.mpr ⟨hr, asked⟩, once.cons_cons _, ?_⟩
      intro other hother hmem
      rcases List.mem_cons.mp hmem with same | hmem
      · exact List.mem_cons.mpr (.inl same)
      · exact List.mem_cons_of_mem _ (all other hother hmem)
    · refine ⟨requests, asked, once.cons _, ?_⟩
      intro other hother hmem
      rcases List.mem_cons.mp hmem with same | hmem
      · exact absurd ⟨other, hother, same⟩ given
      · exact all other hother hmem

/-! ## The part that has been stated -/

/-- What a command line sets about some subjects. -/
def restrict (c : CommandLine) (met : List Subject) : Settled where
  input? := if .value .input ∈ met then some c.input else none
  output? := if .value (.option .output) ∈ met then c.output? else none
  symbol? := if .value (.option .symbol) ∈ met then c.symbol? else none
  width? := if .value (.option .bytesPerLine) ∈ met then c.width? else none
  config? := if .value (.option .config) ∈ met then c.config? else none
  path? := if .value (.option .path) ∈ met then c.path? else none
  stdout := c.stdout && decide (.flag .stdout ∈ met)
  verbose := c.verbose && decide (.flag .verbose ∈ met)
  quiet := c.quiet && decide (.flag .quiet ∈ met)
  noColor := c.noColor && decide (.flag .noColor ∈ met)

theorem restrict_nil (c : CommandLine) : c.restrict [] = {} := by
  simp [restrict]

/-- A request for something new adds it to the part that has been stated. -/
theorem grant_restrict {c : CommandLine} (sound : c.Sound) {r : Request} (h : c.Asks r)
    {met : List Subject} (new : r.subject ∉ met) :
    (c.restrict met).grant r = .ok (c.restrict (met ++ [r.subject])) := by
  cases r with
  | give target value =>
    have assigned : ∀ {old : Option String}, old = none → value ≠ "" →
        Settled.fresh old (Settled.pathValue value) = .ok (some value) := by
      rintro _ rfl filled
      simp [Settled.fresh, Settled.pathValue, filled, Except.map]
    replace new : Subject.value target ∉ met := new
    cases target with
    | input =>
      have filled : value ≠ "" := sound.filled h (by decide)
      replace h : c.input = value := h
      simp [restrict, Settled.grant, Settled.assign, new, h, assigned, filled, Except.map,
        Request.subject]
    | option o =>
      cases o with
      | output | config | path =>
        have filled : value ≠ "" := sound.filled h (by decide)
        replace h : _ = some value := h
        simp [restrict, Settled.grant, Settled.assign, new, h, assigned, filled, Except.map,
          Request.subject]
      | symbol =>
        replace h : c.symbol? = some value := h
        simp [restrict, Settled.grant, Settled.assign, Settled.fresh, new, h, Except.map,
          Request.subject]
      | bytesPerLine =>
        obtain ⟨width, given, written⟩ := h
        have read := positiveCount?_of_writes (sound.width width given) written
        simp [restrict, Settled.grant, Settled.assign, Settled.fresh, Settled.countValue, new,
          given, read, Except.map, Request.subject]
  | raise f =>
    replace new : Subject.flag f ∉ met := new
    cases f with
    | stdout | verbose | quiet | noColor =>
      replace h : _ = true := h
      simp [restrict, Settled.grant, Settled.raise, Settled.once, new, h, Request.subject]
    | help | version => exact h.elim

/-- So do requests for different new things, in any order. -/
theorem grantAll_restrict {c : CommandLine} (sound : c.Sound) {requests : List Request}
    (asked : ∀ r ∈ requests, c.Asks r) {met : List Subject}
    (once : (met ++ requests.map Request.subject).Nodup) :
    (c.restrict met).grantAll requests
      = .ok (c.restrict (met ++ requests.map Request.subject)) := by
  induction requests generalizing met with
  | nil =>
    rw [List.map_nil, List.append_nil]
    rfl
  | cons r requests ih =>
    obtain ⟨hr, hrequests⟩ := List.forall_mem_cons.mp asked
    have step : met ++ (r :: requests).map Request.subject
        = met ++ [r.subject] ++ requests.map Request.subject := by
      rw [List.map_cons, List.append_assoc]
      rfl
    have new : r.subject ∉ met := fun seen =>
      (List.nodup_append.mp once).2.2 _ seen _ (List.mem_map_of_mem List.mem_cons_self) rfl
    rw [Settled.grantAll_cons, grant_restrict sound hr new, step]
    rw [step] at once
    exact ih hrequests once

/-- From the start they give the part that they state. -/
theorem grantAll_of_stated {c : CommandLine} (sound : c.Sound) {requests : List Request}
    (asked : ∀ r ∈ requests, c.Asks r) (once : (requests.map Request.subject).Nodup) :
    ({} : Settled).grantAll requests = .ok (c.restrict (requests.map Request.subject)) := by
  rw [← restrict_nil c]
  exact grantAll_restrict sound asked once

theorem ite_of_some {α : Type} {given : Option α} {p : Prop} [Decidable p]
    (h : ∀ value, given = some value → p) : (if p then given else none) = given := by
  cases given with
  | none => exact ite_self none
  | some value => exact if_pos (h value rfl)

theorem and_of_true {raised : Bool} {p : Prop} [Decidable p] (h : raised = true → p) :
    (raised && decide p) = raised := by
  cases raised with
  | false => rfl
  | true => exact decide_eq_true (h rfl)

/-- Behind requests for all that it sets, the whole command line has been stated. -/
theorem restrict_of_all {c : CommandLine} {met : List Subject}
    (all : ∀ r, c.Asks r → r.subject ∈ met) :
    c.restrict met = ⟨some c.input, c.output?, c.symbol?, c.width?, c.config?, c.path?,
      c.stdout, c.verbose, c.quiet, c.noColor⟩ := by
  have input : Subject.value .input ∈ met := all (.give .input c.input) rfl
  have output : ∀ value, c.output? = some value → Subject.value (.option .output) ∈ met :=
    fun value => all (.give (.option .output) value)
  have symbol : ∀ value, c.symbol? = some value → Subject.value (.option .symbol) ∈ met :=
    fun value => all (.give (.option .symbol) value)
  have width : ∀ width, c.width? = some width → Subject.value (.option .bytesPerLine) ∈ met :=
    fun width given => all (.give (.option .bytesPerLine) (toString width.val))
      ⟨width, given, writesCount_toString width.val⟩
  have config : ∀ value, c.config? = some value → Subject.value (.option .config) ∈ met :=
    fun value => all (.give (.option .config) value)
  have path : ∀ value, c.path? = some value → Subject.value (.option .path) ∈ met :=
    fun value => all (.give (.option .path) value)
  have raised : ∀ f, c.Asks (.raise f) → Subject.flag f ∈ met := fun f => all (.raise f)
  rw [restrict, if_pos input, ite_of_some output, ite_of_some symbol, ite_of_some width,
    ite_of_some config, ite_of_some path, and_of_true (raised .stdout),
    and_of_true (raised .verbose), and_of_true (raised .quiet), and_of_true (raised .noColor)]

theorem toCommandLine_restrict {c : CommandLine} (sound : c.Sound) {met : List Subject}
    (all : ∀ r, c.Asks r → r.subject ∈ met) : (c.restrict met).toCommandLine = .ok c := by
  rw [restrict_of_all all, Settled.toCommandLine, if_neg sound.output_or_stdout,
    if_neg sound.verbose_or_quiet]

theorem countP_isInput_le {requests : List Request}
    (once : (requests.map Request.subject).Nodup) : requests.countP Request.isInput ≤ 1 := by
  have count : requests.countP Request.isInput
      = (requests.map Request.subject).count (.value .input) := by
    rw [List.count, List.countP_map]
    congr 1
    funext r
    rcases r with ⟨_ | o, value⟩ | f <;> rfl
  rw [count]
  exact List.nodup_iff_count_le_one.mp once (.value .input)

end CommandLine

/-! ## What has been granted holds -/

namespace Settled

/-- The subject has been settled. -/
def holds (s : Settled) : Subject → Bool
  | .value .input => s.input?.isSome
  | .value (.option .output) => s.output?.isSome
  | .value (.option .symbol) => s.symbol?.isSome
  | .value (.option .bytesPerLine) => s.width?.isSome
  | .value (.option .config) => s.config?.isSome
  | .value (.option .path) => s.path?.isSome
  | .flag .stdout => s.stdout
  | .flag .verbose => s.verbose
  | .flag .quiet => s.quiet
  | .flag .noColor => s.noColor
  | .flag .help | .flag .version => false

theorem fresh_ok {α : Type} {old : Option α} {new : Except ParseStop α} {f : Option α → Settled}
    {s : Settled} (h : (fresh old new).map f = .ok s) :
    old = none ∧ ∃ value, s = f (some value) := by
  cases old with
  | some _ => cases h
  | none =>
    cases new with
    | error _ => cases h
    | ok value =>
      cases h
      exact ⟨rfl, value, rfl⟩

theorem once_ok {raised : Bool} {next s : Settled} (h : once raised next = .ok s) :
    raised = false ∧ s = next := by
  cases raised with
  | true => cases h
  | false =>
    cases h
    exact ⟨rfl, rfl⟩

/-- What is granted was not settled before, and is from then on; nothing else changes. -/
theorem grant_ok {s s' : Settled} {r : Request} (h : s.grant r = .ok s') :
    s.holds r.subject = false
      ∧ ∀ subject, s'.holds subject = true ↔ s.holds subject = true ∨ subject = r.subject := by
  cases r with
  | give target value =>
    rcases target with _ | (_ | _ | _ | _ | _)
    all_goals
      obtain ⟨old, value, rfl⟩ := fresh_ok h
      refine ⟨by simp [holds, Request.subject, old], ?_⟩
      rintro ((_ | (_ | _ | _ | _ | _)) | (_ | _ | _ | _ | _ | _)) <;> simp [holds, Request.subject]
  | raise f =>
    cases f with
    | stdout | verbose | quiet | noColor =>
      obtain ⟨old, rfl⟩ := once_ok h
      refine ⟨old, ?_⟩
      rintro ((_ | (_ | _ | _ | _ | _)) | (_ | _ | _ | _ | _ | _)) <;> simp [holds, Request.subject]
    | help | version => cases h

/-- No two requests for the same thing are granted, and what has been granted holds in the
end. -/
theorem grantAll_ok {s s' : Settled} {requests : List Request} (h : s.grantAll requests = .ok s') :
    (requests.map Request.subject).Nodup
      ∧ (∀ subject ∈ requests.map Request.subject, s.holds subject = false)
      ∧ ∀ subject, s'.holds subject = true ↔
          s.holds subject = true ∨ subject ∈ requests.map Request.subject := by
  induction requests generalizing s with
  | nil =>
    cases h
    simp
  | cons r requests ih =>
    rw [grantAll_cons] at h
    cases hgrant : s.grant r with
    | error stop =>
      rw [hgrant] at h
      cases h
    | ok next =>
      rw [hgrant] at h
      obtain ⟨new, holds⟩ := grant_ok hgrant
      obtain ⟨nodup, fresh, later⟩ := ih h
      have met : r.subject ∉ requests.map Request.subject := by
        intro again
        have unmet := fresh _ again
        rw [(holds r.subject).mpr (.inr rfl)] at unmet
        cases unmet
      refine ⟨List.nodup_cons.mpr ⟨met, nodup⟩, ?_, fun subject => ?_⟩
      · intro subject hsubject
        rcases List.mem_cons.mp hsubject with rfl | hsubject
        · exact new
        · rw [Bool.eq_false_iff]
          intro before
          have unmet := fresh _ hsubject
          rw [(holds subject).mpr (.inl before)] at unmet
          cases unmet
      · rw [later, holds, List.map_cons, List.mem_cons, or_assoc]

/-- Values are refused or taken. -/
theorem fresh_error {α : Type} {old : Option α} {new : Except ParseStop α}
    {f : Option α → Settled} {stop : ParseStop}
    (hnew : ∀ stop, new = .error stop → ∃ e, stop = .refused e)
    (h : (fresh old new).map f = .error stop) : ∃ e, stop = .refused e := by
  cases old with
  | some _ =>
    cases h
    exact ⟨_, rfl⟩
  | none =>
    cases new with
    | error reason =>
      cases h
      exact hnew stop rfl
    | ok value => cases h

theorem pathValue_error {value : String} {stop : ParseStop} (h : pathValue value = .error stop) :
    ∃ e, stop = .refused e := by
  rw [pathValue] at h
  split at h
  · cases h
    exact ⟨_, rfl⟩
  · cases h

theorem countValue_error {value : String} {stop : ParseStop} (h : countValue value = .error stop) :
    ∃ e, stop = .refused e := by
  rw [countValue] at h
  split at h
  · cases h
  · cases h
    exact ⟨_, rfl⟩

/-- A request for something other than help or the version is granted or refused. -/
theorem grant_error {s : Settled} {r : Request} {stop : ParseStop} (h : s.grant r = .error stop)
    (hr : r.subject ≠ .flag .help ∧ r.subject ≠ .flag .version) : ∃ e, stop = .refused e := by
  cases r with
  | give target value =>
    cases target with
    | input => exact fresh_error (fun _ => pathValue_error) h
    | option o =>
      cases o with
      | output | config | path => exact fresh_error (fun _ => pathValue_error) h
      | symbol => exact fresh_error (fun _ h => by cases h) h
      | bytesPerLine => exact fresh_error (fun _ => countValue_error) h
  | raise f =>
    have refused {raised : Bool} {next : Settled} (h : once raised next = .error stop) :
        ∃ e, stop = .refused e := by
      cases raised with
      | true =>
        cases h
        exact ⟨_, rfl⟩
      | false => cases h
    cases f with
    | stdout | verbose | quiet | noColor => exact refused h
    | help => exact absurd rfl hr.1
    | version => exact absurd rfl hr.2

theorem grantAll_error {s : Settled} {requests : List Request} {stop : ParseStop}
    (h : s.grantAll requests = .error stop)
    (hrequests : ∀ r ∈ requests, r.subject ≠ .flag .help ∧ r.subject ≠ .flag .version) :
    ∃ e, stop = .refused e := by
  induction requests generalizing s with
  | nil => cases h
  | cons r requests ih =>
    obtain ⟨hr, hrest⟩ := List.forall_mem_cons.mp hrequests
    rw [grantAll_cons] at h
    cases hgrant : s.grant r with
    | error reason =>
      rw [hgrant] at h
      cases h
      exact grant_error hgrant hr
    | ok next =>
      rw [hgrant] at h
      exact ih h hrest

/-- Both halves of an exclusive pair do not pass the check at the end. -/
theorem toCommandLine_of_excluded {s : Settled} {a b : Subject} (h : a.Excludes b)
    (ha : s.holds a = true) (hb : s.holds b = true) :
    s.toCommandLine = .error (.refused .argumentConflict) := by
  have both : (s.stdout = true ∧ s.output?.isSome = true)
      ∨ (s.verbose = true ∧ s.quiet = true) := by
    simp only [Subject.Excludes, Subject.exclusive, List.mem_cons, Prod.mk.injEq,
      List.not_mem_nil, or_false] at h
    rcases h with (⟨rfl, rfl⟩ | ⟨rfl, rfl⟩) | (⟨rfl, rfl⟩ | ⟨rfl, rfl⟩)
    · exact .inl ⟨ha, hb⟩
    · exact .inr ⟨ha, hb⟩
    · exact .inl ⟨hb, ha⟩
    · exact .inr ⟨hb, ha⟩
  rw [toCommandLine]
  split
  · rfl
  · next apart => rw [if_pos (both.resolve_left apart)]

end Settled

namespace CommandLine

variable {c : CommandLine}

/-- No request for help or for the version is asked for, or ruled out. -/
theorem Asks.plain {r : Request} (h : c.Asks r) :
    r.subject ≠ .flag .help ∧ r.subject ≠ .flag .version := by
  rcases r with ⟨target, value⟩ | (_ | _ | _ | _ | _ | _)
  all_goals first
    | exact h.elim
    | exact ⟨nofun, nofun⟩

theorem RulesOut.plain {r : Request} (h : c.RulesOut r) :
    r.subject ≠ .flag .help ∧ r.subject ≠ .flag .version := by
  obtain ⟨-, asked, hasked, same | excluded⟩ := h
  · rw [← same]
    exact hasked.plain
  · simp only [Subject.Excludes, Subject.exclusive, List.mem_cons, Prod.mk.injEq,
      List.not_mem_nil, or_false] at excluded
    rcases excluded with (⟨-, h⟩ | ⟨-, h⟩) | (⟨h, -⟩ | ⟨h, -⟩) <;> rw [h] <;> exact ⟨nofun, nofun⟩

/-- With a request that is ruled out among those that state a command line, none results. -/
theorem grantAll_of_ruledOut {before after : List Request} (stated : c.StatedBy (before ++ after))
    {r : Request} (out : c.RulesOut r) :
    ∃ e, (({} : Settled).grantAll (before ++ r :: after)).bind Settled.toCommandLine
      = .error (.refused e) := by
  have plain : ∀ r' ∈ before ++ r :: after,
      r'.subject ≠ .flag .help ∧ r'.subject ≠ .flag .version := by
    intro r' hr'
    rcases List.mem_append.mp hr' with hbefore | hafter
    · exact (stated.asked r' (List.mem_append_left _ hbefore)).plain
    · rcases List.mem_cons.mp hafter with rfl | hafter
      · exact out.plain
      · exact (stated.asked r' (List.mem_append_right _ hafter)).plain
  cases hgrant : ({} : Settled).grantAll (before ++ r :: after) with
  | error stop =>
    obtain ⟨e, rfl⟩ := Settled.grantAll_error hgrant plain
    exact ⟨e, rfl⟩
  | ok s =>
    obtain ⟨once, -, holds⟩ := Settled.grantAll_ok hgrant
    obtain ⟨-, asked, hasked, clash⟩ := out
    rw [List.map_append, List.map_cons] at once holds
    rw [List.nodup_middle, ← List.map_append] at once
    have met := stated.all asked hasked
    rcases clash with same | excluded
    · rw [same] at met
      exact absurd met (List.nodup_cons.mp once).1
    · have both : ∀ subject, subject = r.subject ∨ subject ∈ (before ++ after).map Request.subject →
          s.holds subject = true := by
        intro subject hsubject
        apply (holds subject).mpr
        rw [List.mem_append, List.mem_cons]
        rw [List.map_append, List.mem_append] at hsubject
        tauto
      exact ⟨.argumentConflict, Settled.toCommandLine_of_excluded excluded
        (both _ (.inr met)) (both _ (.inl rfl))⟩

end CommandLine

/-! ## Writing and parsing -/

/-- The arguments state the command line: in front are forms of its requests in any order, and
behind them nothing, or two dashes and the input. -/
def CommandLine.Written (c : CommandLine) (front back : List String) : Prop :=
  ∃ requests last, c.StatedBy (requests ++ last)
    ∧ Request.WritesAll requests front ∧ Request.WritesLast last back

/-- Every command line can be written, with its input behind two dashes. -/
theorem CommandLine.exists_written (c : CommandLine) : ∃ front back, c.Written front back := by
  obtain ⟨requests, asked, once, all⟩ := c.exists_asked Subject.besideInput
  have plain : ∀ r ∈ requests, r.isInput = false := by
    intro r hr
    have met := once.subset (List.mem_map_of_mem hr)
    rcases r with ⟨_ | o, value⟩ | f
    · exact absurd met (show Subject.value .input ∉ Subject.besideInput by decide)
    · rfl
    · rfl
  obtain ⟨front, written⟩ := Request.exists_writesAll plain
  refine ⟨front, ["--", c.input], requests, [.give .input c.input], ⟨?_, ?_, ?_⟩, written,
    .input c.input⟩
  · intro r hr
    rcases List.mem_append.mp hr with hr | hr
    · exact asked r hr
    · rw [List.mem_singleton.mp hr]
      exact rfl
  · rw [List.map_append]
    have distinct : (Subject.besideInput ++ [Subject.value .input]).Nodup := by decide
    exact distinct.sublist (once.append_right _)
  · intro r hr
    rw [List.map_append, List.mem_append]
    rcases r with ⟨_ | o, value⟩ | f
    · exact .inr (List.mem_singleton.mpr rfl)
    · refine .inl (all _ hr ?_)
      show Subject.value (.option o) ∈ Subject.besideInput
      cases o <;> decide
    · refine .inl (all _ hr ?_)
      show Subject.flag f ∈ Subject.besideInput
      cases f with
      | stdout | verbose | quiet | noColor => decide
      | help | version => exact hr.elim

/-- **A command line that is written is parsed again.** It can be written: its requests in any
order and in any of their forms, with the input among them or behind two dashes at the end. All
such arguments are parsed as that very command line. If a form is put in anywhere before the two
dashes that asks again for what the command line sets, or for the other half of an exclusive
pair of which it sets one, the arguments are refused. -/
theorem command_line_written_then_parsed {c : CommandLine} (sound : c.Sound) :
    (∃ front back, c.Written front back)
    ∧ ∀ front back, c.Written front back →
        CommandLine.parse (front ++ back) = .ok c
        ∧ ∀ r extra before after, c.RulesOut r → r.Writes extra → front = before ++ after →
            ∃ e, CommandLine.parse (before ++ extra ++ after ++ back) = .error (.refused e) := by
  refine ⟨c.exists_written, ?_⟩
  rintro front back ⟨requests, last, stated, hfront, hback⟩
  have one := CommandLine.countP_isInput_le stated.once
  constructor
  · have granted := CommandLine.grantAll_of_stated sound stated.asked stated.once
    rw [parse_of_writes hfront hback one, granted]
    exact CommandLine.toCommandLine_restrict sound stated.all
  · intro r extra before after out hextra hsplit
    rcases hfront.split hsplit with ⟨first, second, rfl, hfirst, hsecond⟩
      | ⟨first, rest, args, name, o, rfl, hfirst, hname, rfl⟩
    · -- the requests are read with one among them that is ruled out
      have written := hfirst.append (.cons hextra hsecond)
      have still : (first ++ r :: second ++ last).countP Request.isInput ≤ 1 := by
        rw [List.countP_append, List.countP_append, List.countP_cons_of_neg (by rw [out.1]; decide)]
        rwa [List.countP_append, List.countP_append] at one
      rw [List.append_assoc] at stated
      obtain ⟨e, refused⟩ := CommandLine.grantAll_of_ruledOut stated out
      refine ⟨e, ?_⟩
      rw [← refused, List.append_assoc before, parse_of_writes written hback still,
        List.append_assoc, List.cons_append]
    · -- the option is read, but not its value
      rw [List.append_assoc] at stated one
      have granted := CommandLine.grantAll_of_stated sound
        (fun r hr => stated.asked r (List.mem_append_left _ hr))
        (stated.once.sublist ((List.sublist_append_left _ _).map _))
      have alone : first.countP Request.isInput ≤ 1 :=
        ((List.sublist_append_left _ _).countP_le).trans one
      have interrupted := parse_of_interrupted hfirst alone hname hextra out.1 (after ++ back)
      rw [granted] at interrupted
      refine ⟨.invalidValue, ?_⟩
      rw [List.append_assoc, List.append_assoc, List.append_assoc]
      exact interrupted

/-- An input that looks like a flag is written last, a dash is the output, and the symbol is
empty. A flag that comes between the output's letter and the dash is refused. -/
theorem input_like_flag_written_last :
    let c : CommandLine := {
      input := "-q", output? := some "-", symbol? := some "", width? := some ⟨3, by decide⟩,
      quiet := true }
    CommandLine.parse
      ["--quiet", "--symbol=", "-o", "-", "--bytes-per-line", "+03", "--", "-q"] = .ok c
    ∧ ∃ e, CommandLine.parse
        ["--quiet", "--symbol=", "-o", "--verbose", "-", "--bytes-per-line", "+03", "--", "-q"]
      = .error (.refused e) := by
  intro c
  have sound : c.Sound :=
    ⟨by decide, by decide, by decide, by decide, by rintro _ ⟨⟩; decide, by decide, by decide⟩
  have three : WritesCount 3 "+03" := ⟨true, 1, by decide⟩
  have stated : c.StatedBy ([.raise .quiet, .give (.option .symbol) "", .give (.option .output) "-",
      .give (.option .bytesPerLine) "+03"] ++ [.give .input "-q"]) := by
    refine ⟨?_, by decide, ?_⟩
    · simp only [List.cons_append, List.nil_append, List.forall_mem_cons, List.not_mem_nil,
        false_implies, implies_true, and_true]
      exact ⟨rfl, rfl, rfl, ⟨_, rfl, three⟩, rfl⟩
    · rintro (⟨_ | (_ | _ | _ | _ | _), value⟩ | (_ | _ | _ | _ | _ | _)) asked
      case give.option.config | give.option.path => cases asked
      case raise.stdout | raise.verbose | raise.noColor | raise.help | raise.version => cases asked
      all_goals simp [Request.subject]
  have front : Request.WritesAll [.raise .quiet, .give (.option .symbol) "",
      .give (.option .output) "-", .give (.option .bytesPerLine) "+03"]
      ["--quiet", "--symbol=", "-o", "-", "--bytes-per-line", "+03"] :=
    .cons (.flag (.inl rfl)) (.cons (.attached .symbol "")
      (.cons (.apart (.inr ⟨'o', rfl, rfl⟩) (by decide))
        (.cons (.apart (.inl rfl) (by decide)) .nil)))
  have ruledOut : c.RulesOut (.raise .verbose) :=
    ⟨rfl, .raise .quiet, rfl, .inr (by decide)⟩
  obtain ⟨-, parses⟩ := command_line_written_then_parsed sound
  obtain ⟨parsed, refused⟩ := parses _ _ ⟨_, _, stated, front, .input "-q"⟩
  exact ⟨parsed, refused _ _ ["--quiet", "--symbol=", "-o"] _ ruledOut (.flag (.inl rfl)) rfl⟩

end DataInlay
