/-
# DataInlay.Proofs.WrittenRequests — arguments that were written for requests

Whoever writes a command line has a list of requests: a value for the input or for an option,
or a flag. An option is written with its value attached to the long name, or with the value
behind the name as an argument of its own, unless the value looks like a name; a flag is
written by either name; the input is an argument of its own, or stands last behind two dashes.
So written arguments can be cut between two forms, or behind the name of an option, and nowhere
else (`WritesAll.split`).

Reading takes the arguments one by one and may have to wait for the next, so the state of the
reading is not that of the requests read so far. But as soon as a name comes, what was pending
is settled first (`takeAll_form`). So the reading of written requests comes to the same as
granting the requests in turn, errors included (`parse_of_writes`); and a name that comes while
an option waits for its value ends the reading (`parse_of_interrupted`).
-/
import DataInlay.CommandLine.Parse
import Mathlib.Data.List.TakeWhile

namespace DataInlay

/-! ## Names -/

namespace Switch

/-- The long name of an option or flag. -/
def longName : Switch → String
  | option .output => "output"
  | option .symbol => "symbol"
  | option .bytesPerLine => "bytes-per-line"
  | option .config => "config"
  | option .path => "path"
  | flag .stdout => "stdout"
  | flag .verbose => "verbose"
  | flag .quiet => "quiet"
  | flag .noColor => "no-color"
  | flag .help => "help"
  | flag .version => "version"

/-- The letter of an option or flag, if it has one. -/
def letter? : Switch → Option Char
  | option .output => some 'o'
  | option .symbol => some 's'
  | option .path => some 'p'
  | option .bytesPerLine | option .config => none
  | flag .verbose => some 'v'
  | flag .quiet => some 'q'
  | flag .help => some 'h'
  | flag .version => some 'V'
  | flag .stdout | flag .noColor => none

/-- The argument names the option or flag: by its long name or by its letter. -/
def Names (s : Switch) (argument : String) : Prop :=
  argument = "--" ++ s.longName ∨ ∃ c, s.letter? = some c ∧ argument = String.ofList ['-', c]

theorem ofLong?_longName (s : Switch) : ofLong? s.longName = some s := by
  cases s with
  | option o => cases o <;> rfl
  | flag f => cases f <;> rfl

theorem ofLetter?_of_letter? {s : Switch} {c : Char} (h : s.letter? = some c) :
    ofLetter? c = some s := by
  cases s with
  | option o => cases o <;> cases h <;> rfl
  | flag f => cases f <;> cases h <;> rfl

/-- A long name has a letter in it, and no equals sign. -/
theorem longName_spec (s : Switch) :
    s.longName.toList ≠ [] ∧ ∀ c ∈ s.longName.toList, (c != '=') = true := by
  rw [← List.all_eq_true]
  cases s with
  | option o => cases o <;> decide
  | flag f => cases f <;> decide

theorem ne_dash_of_letter? {s : Switch} {c : Char} (h : s.letter? = some c) : c ≠ '-' := by
  cases s with
  | option o => cases o <;> cases h <;> decide
  | flag f => cases f <;> cases h <;> decide

end Switch

/-! ## Requests and how they are written -/

/-- A request that a command line is made of. -/
inductive Request
  | give (target : ValueTarget) (value : String)
  | raise (f : Flag)
  deriving DecidableEq

/-- The argument does not look like a name. -/
def StandsAlone (value : String) : Prop := value.toList.head? ≠ some '-' ∨ value = "-"

instance (value : String) : Decidable (StandsAlone value) := inferInstanceAs (Decidable (_ ∨ _))

theorem StandsAlone.ne_name {value : String} (alone : StandsAlone value) (c : Char)
    (rest : List Char) : value.toList ≠ '-' :: c :: rest := by
  intro same
  rcases alone with other | rfl
  · rw [same] at other
    exact other rfl
  · cases same

namespace Request

/-- The request is for an input. -/
def isInput : Request → Bool
  | give .input _ => true
  | give (.option _) _ | raise _ => false

/-- How a request may be written. -/
inductive Writes : Request → List String → Prop
  | attached (o : ValueOption) (value : String) :
      Writes (give (.option o) value) ["--" ++ (Switch.option o).longName ++ "=" ++ value]
  | apart {o : ValueOption} {name value : String} :
      (Switch.option o).Names name → StandsAlone value →
      Writes (give (.option o) value) [name, value]
  | flag {f : Flag} {name : String} : (Switch.flag f).Names name → Writes (raise f) [name]
  | input {value : String} : StandsAlone value → Writes (give .input value) [value]

/-- How requests may be written one behind the other. -/
inductive WritesAll : List Request → List String → Prop
  | nil : WritesAll [] []
  | cons {r : Request} {form : List String} {requests : List Request} {arguments : List String} :
      r.Writes form → WritesAll requests arguments →
      WritesAll (r :: requests) (form ++ arguments)

/-- Requests for anything but the input have a form. -/
theorem exists_writesAll {requests : List Request} (h : ∀ r ∈ requests, r.isInput = false) :
    ∃ arguments, WritesAll requests arguments := by
  induction requests with
  | nil => exact ⟨[], .nil⟩
  | cons r requests ih =>
    obtain ⟨hr, hrequests⟩ := List.forall_mem_cons.mp h
    obtain ⟨arguments, written⟩ := ih hrequests
    rcases r with ⟨_ | o, value⟩ | f
    · cases hr
    · exact ⟨_, .cons (.attached o value) written⟩
    · exact ⟨_, .cons (.flag (.inl rfl)) written⟩

/-- How arguments may end behind the requests written so far: there, or with the input behind
two dashes. -/
inductive WritesLast : List Request → List String → Prop
  | nothing : WritesLast [] []
  | input (value : String) : WritesLast [give .input value] ["--", value]

end Request

namespace Settled

/-- Grants a request. -/
def grant (s : Settled) : Request → Except ParseStop Settled
  | .give target value => s.assign target value
  | .raise f => s.raise f

/-- Grants requests in turn. -/
def grantAll (s : Settled) (requests : List Request) : Except ParseStop Settled :=
  requests.foldlM grant s

theorem grantAll_cons (s : Settled) (r : Request) (requests : List Request) :
    s.grantAll (r :: requests) = (s.grant r).bind (·.grantAll requests) := rfl

theorem grantAll_append (s : Settled) (requests more : List Request) :
    s.grantAll (requests ++ more) = (s.grantAll requests).bind (·.grantAll more) :=
  List.foldlM_append

end Settled

/-! ## Where arguments can be cut -/

/-- A form that is cut in two is cut behind the name of an option. -/
theorem Request.Writes.cut {r : Request} {form before after : List String} (h : r.Writes form)
    (hsplit : form = before ++ after) :
    before = [] ∨ after = []
      ∨ ∃ (o : ValueOption) (name : String), (Switch.option o).Names name ∧ before = [name] := by
  have single {argument : String} (hsplit : [argument] = before ++ after) :
      before = [] ∨ after = [] := by
    rcases before with _ | ⟨first, before⟩
    · exact .inl rfl
    · exact .inr (List.append_eq_nil_iff.mp (List.cons.inj hsplit).2.symm).2
  cases h with
  | attached | flag | input => exact (single hsplit).imp_right .inl
  | @apart o name value hname alone =>
    rcases before with _ | ⟨first, _ | ⟨second, before⟩⟩
    · exact .inl rfl
    · obtain ⟨rfl, -⟩ := List.cons.inj hsplit
      exact .inr (.inr ⟨o, name, hname, rfl⟩)
    · obtain ⟨-, rest⟩ := List.cons.inj hsplit
      exact .inr (.inl (List.append_eq_nil_iff.mp (List.cons.inj rest).2.symm).2)

namespace Request.WritesAll

theorem append {first second : List Request} {arguments more : List String}
    (hfirst : WritesAll first arguments) (hsecond : WritesAll second more) :
    WritesAll (first ++ second) (arguments ++ more) := by
  induction hfirst with
  | nil => exact hsecond
  | cons hform _ ih =>
    rw [List.cons_append, List.append_assoc]
    exact .cons hform ih

/-- Arguments are cut between two forms, or between the name of an option and its value. -/
theorem split {requests : List Request} {arguments before after : List String}
    (h : WritesAll requests arguments) (hsplit : arguments = before ++ after) :
    (∃ first second, requests = first ++ second
        ∧ WritesAll first before ∧ WritesAll second after)
    ∨ ∃ first rest front name, ∃ o : ValueOption, requests = first ++ rest
        ∧ WritesAll first front ∧ (Switch.option o).Names name ∧ before = front ++ [name] := by
  induction h generalizing before with
  | nil =>
    obtain ⟨rfl, rfl⟩ := List.nil_eq_append_iff.mp hsplit
    exact .inl ⟨[], [], rfl, .nil, .nil⟩
  | @cons r form requests arguments hform written ih =>
    rcases List.append_eq_append_iff.mp hsplit with ⟨later, rfl, hrest⟩ | ⟨cut, rfl, hafter⟩
    · -- the cut is behind this form
      rcases ih hrest with ⟨first, second, rfl, hfirst, hsecond⟩
        | ⟨first, rest, front, name, o, rfl, hfirst, hname, rfl⟩
      · exact .inl ⟨r :: first, second, rfl, .cons hform hfirst, hsecond⟩
      · exact .inr ⟨r :: first, rest, form ++ front, name, o, rfl, .cons hform hfirst, hname,
          (List.append_assoc _ _ _).symm⟩
    · rcases hform.cut rfl with rfl | rfl | ⟨o, name, hname, rfl⟩
      · refine .inl ⟨[], r :: requests, rfl, .nil, ?_⟩
        rw [hafter]
        exact .cons hform written
      · refine .inl ⟨[r], requests, rfl, ?_, ?_⟩
        · have alone := WritesAll.cons hform .nil
          rwa [List.append_nil, List.append_nil] at alone
        · rwa [hafter]
      · exact .inr ⟨[], r :: requests, [], name, o, rfl, .nil, hname, rfl⟩

end Request.WritesAll

/-! ## What is pending is settled first -/

namespace ArgumentState

variable {a : ArgumentState}

/-- What the arguments read so far come to, once what is pending is settled. -/
def outcome (a : ArgumentState) : Except ParseStop Settled :=
  match a.pending with
  | none => .ok a.settled
  | some (_, none) => .error (.refused .invalidValue)
  | some (target, some value) => a.settled.assign target value

/-- The state in which so much is settled, and nothing is pending. -/
def settledAt (a : ArgumentState) (s : Settled) : ArgumentState :=
  { a with settled := s, pending := none }

theorem settle_eq (a : ArgumentState) : a.settle = a.outcome.map a.settledAt := by
  rcases a with ⟨settled, _ | ⟨target, _ | value⟩, hasInput, onlyInputs⟩ <;> rfl

theorem raise_eq (a : ArgumentState) (f : Flag) :
    a.raise f = a.outcome.bind fun s => (s.raise f).map a.settledAt := by
  rw [raise, settle_eq]
  cases a.outcome <;> rfl

theorem attach_eq (a : ArgumentState) (o : ValueOption) (value : String) :
    a.attach o value = a.outcome.bind fun s => (s.assign (.option o) value).map a.settledAt := by
  rw [attach, settle_eq]
  cases a.outcome <;> rfl

theorem await_eq (a : ArgumentState) (o : ValueOption) :
    a.await o = a.outcome.bind fun s =>
      .ok { a.settledAt s with pending := some (.option o, none) } := by
  rw [await, settle_eq]
  cases a.outcome <;> rfl

theorem takeInput_eq (h : a.hasInput = false) (value : String) :
    a.takeInput value = a.outcome.bind fun s =>
      .ok { a.settledAt s with pending := some (.input, some value), hasInput := true } := by
  rw [takeInput, if_neg (by rw [h]; decide), settle_eq]
  cases a.outcome <;> rfl

/-! ## Reading a single argument -/

theorem take_dashes (h : a.onlyInputs = false) {body : String} (hbody : body.toList ≠ []) :
    a.take ("--" ++ body) = a.takeLong body.toList := by
  obtain ⟨c, rest, hcons⟩ := List.exists_cons_of_ne_nil hbody
  have text : ("--" ++ body).toList = '-' :: '-' :: c :: rest := by
    rw [String.toList_append, hcons]
    rfl
  rw [take, if_neg (by rw [h]; decide), text, hcons]
  rfl

theorem take_letter (h : a.onlyInputs = false) {c : Char} (hc : c ≠ '-') :
    a.take (String.ofList ['-', c]) = a.takeLetters [c] := by
  rw [take, if_neg (by rw [h]; decide), String.toList_ofList]
  split
  · next same => exact absurd (List.cons.inj (List.cons.inj same).2).1 hc
  · next same => exact absurd (List.cons.inj (List.cons.inj same).2).1 hc
  · next same =>
    obtain ⟨-, rest⟩ := List.cons.inj same
    rw [rest]
  · next other => exact absurd rfl (other c [])

/-- An argument that does not look like a name is none. -/
theorem take_word (h : a.onlyInputs = false) {value : String} (alone : StandsAlone value) :
    a.take value = a.takeWord value := by
  rw [take, if_neg (by rw [h]; decide)]
  split
  · next same => exact absurd same (alone.ne_name _ _)
  · next same => exact absurd same (alone.ne_name _ _)
  · next same => exact absurd same (alone.ne_name _ _)
  · rfl

/-- What the name of an option or flag does. -/
def named (a : ArgumentState) : Switch → Except ParseStop ArgumentState
  | .option o => a.await o
  | .flag f => a.raise f

/-- A long name by itself. -/
theorem takeLong_longName (a : ArgumentState) (s : Switch) :
    a.takeLong s.longName.toList = a.named s := by
  obtain ⟨-, noEquals⟩ := s.longName_spec
  have name : s.longName.toList.takeWhile (· != '=') = s.longName.toList :=
    List.takeWhile_eq_self_iff.mpr noEquals
  have none : s.longName.toList.dropWhile (· != '=') = [] :=
    List.dropWhile_eq_nil_iff.mpr noEquals
  rw [takeLong, name, none, String.ofList_toList, Switch.ofLong?_longName]
  cases s <;> rfl

/-- A long name with a value behind an equals sign. -/
theorem takeLong_attached (a : ArgumentState) (o : ValueOption) (value : String) :
    a.takeLong ((Switch.option o).longName ++ "=" ++ value).toList = a.attach o value := by
  obtain ⟨-, noEquals⟩ := (Switch.option o).longName_spec
  have text : ((Switch.option o).longName ++ "=" ++ value).toList
      = (Switch.option o).longName.toList ++ '=' :: value.toList := by
    rw [String.toList_append, String.toList_append, List.append_assoc]
    rfl
  have behind : ('=' :: value.toList).takeWhile (· != '=') = []
      ∧ ('=' :: value.toList).dropWhile (· != '=') = '=' :: value.toList := ⟨rfl, rfl⟩
  rw [takeLong, text, List.takeWhile_append_of_pos noEquals, List.dropWhile_append_of_pos noEquals,
    behind.1, behind.2, List.append_nil, String.ofList_toList, Switch.ofLong?_longName]
  show a.attach o (String.ofList value.toList) = _
  rw [String.ofList_toList]

theorem take_name (h : a.onlyInputs = false) {s : Switch} {name : String} (hname : s.Names name) :
    a.take name = a.named s := by
  rcases hname with rfl | ⟨c, hc, rfl⟩
  · rw [take_dashes h s.longName_spec.1, takeLong_longName]
  · rw [take_letter h (Switch.ne_dash_of_letter? hc), takeLetters, Switch.ofLetter?_of_letter? hc]
    cases s with
    | option o => rfl
    | flag f =>
      show (a.raise f).bind (·.takeLetters []) = a.raise f
      cases a.raise f <;> rfl

/-! ## Reading what was written -/

theorem takeAll_cons (a : ArgumentState) (argument : String) (rest : List String) :
    a.takeAll (argument :: rest) = (a.take argument).bind (·.takeAll rest) := rfl

theorem takeAll_singleton (a : ArgumentState) (argument : String) :
    a.takeAll [argument] = a.take argument := by
  rw [takeAll_cons]
  cases a.take argument <;> rfl

theorem takeAll_append (a : ArgumentState) (first rest : List String) :
    a.takeAll (first ++ rest) = (a.takeAll first).bind (·.takeAll rest) :=
  List.foldlM_append

/-- The next argument may be a name, an input or the two dashes. -/
structure Ready (a : ArgumentState) : Prop where
  names : a.onlyInputs = false
  complete : ∀ target, a.pending ≠ some (target, none)

/-- Reading has come to what granting comes to: it has failed likewise, or is ready for more
and will settle to the same. -/
def ReadsAs (result : Except ParseStop ArgumentState) (hasInput : Bool)
    (granted : Except ParseStop Settled) : Prop :=
  match result with
  | .error stop => granted = .error stop
  | .ok a => a.Ready ∧ a.hasInput = hasInput ∧ a.outcome = granted

theorem readsAs_settled (h : a.onlyInputs = false) (granted : Except ParseStop Settled) :
    ReadsAs (granted.map a.settledAt) a.hasInput granted := by
  cases granted with
  | error stop => rfl
  | ok s => exact ⟨⟨h, fun _ => nofun⟩, rfl, rfl⟩

theorem readsAs_pending (h : a.onlyInputs = false) (s : Settled) (target : ValueTarget)
    (value : String) (hasInput : Bool) :
    ReadsAs (.ok { a.settledAt s with pending := some (target, some value), hasInput })
      hasInput (s.assign target value) :=
  ⟨⟨h, fun _ => nofun⟩, rfl, rfl⟩

/-- A form of a request settles what is pending, and then reads as the request. Only an input
needs that no option waits for its value, and that it is the first. -/
theorem takeAll_form {r : Request} {form : List String} (hform : r.Writes form)
    (h : a.onlyInputs = false) (hinput : r.isInput = true → a.Ready ∧ a.hasInput = false) :
    ∃ next, a.takeAll form = a.outcome.bind next
      ∧ ∀ s : Settled, ReadsAs (next s) (a.hasInput || r.isInput) (s.grant r) := by
  cases hform with
  | attached o value =>
    refine ⟨fun s => (s.assign (.option o) value).map a.settledAt, ?_, fun s => ?_⟩
    · have text : "--" ++ (Switch.option o).longName ++ "=" ++ value
          = "--" ++ ((Switch.option o).longName ++ "=" ++ value) := by
        simp only [String.append_assoc]
      have body : ((Switch.option o).longName ++ "=" ++ value).toList ≠ [] := by
        simp
      rw [takeAll_singleton, text, take_dashes h body, takeLong_attached, attach_eq]
    · rw [Request.isInput, Bool.or_false]
      exact readsAs_settled h _
  | @apart o name value hname alone =>
    refine ⟨fun s => .ok { a.settledAt s with pending := some (.option o, some value) }, ?_,
      fun s => ?_⟩
    · have named : a.take name = a.await o := take_name h hname
      rw [takeAll_cons, named, await_eq]
      cases a.outcome with
      | error stop => rfl
      | ok s =>
        have waiting : { a.settledAt s with pending := some (.option o, none) }.onlyInputs
            = false := h
        show takeAll _ [value] = _
        rw [takeAll_singleton]
        exact take_word waiting alone
    · rw [Request.isInput, Bool.or_false]
      exact readsAs_pending h s _ value _
  | @flag f name hname =>
    refine ⟨fun s => (s.raise f).map a.settledAt, ?_, fun s => ?_⟩
    · have named : a.take name = a.raise f := take_name h hname
      rw [takeAll_singleton, named, raise_eq]
    · rw [Request.isInput, Bool.or_false]
      exact readsAs_settled h _
  | @input value alone =>
    obtain ⟨ready, first⟩ := hinput rfl
    refine ⟨fun s => .ok { a.settledAt s with
      pending := some (.input, some value), hasInput := true }, ?_, fun s => ?_⟩
    · have word : a.takeWord value = a.takeInput value := by
        rw [takeWord]
        split
        · next o hpending => exact absurd hpending (ready.complete _)
        · rfl
      rw [takeAll_singleton, take_word h alone, word, takeInput_eq first]
    · rw [Request.isInput, Bool.or_true]
      exact readsAs_pending h s _ value true

/-- Forms of requests read as these requests, as long as there is only one input among them. -/
theorem takeAll_of_writes {requests : List Request} {arguments : List String}
    (h : Request.WritesAll requests arguments) (ready : a.Ready)
    (one : a.hasInput.toNat + requests.countP Request.isInput ≤ 1) :
    ReadsAs (a.takeAll arguments) (a.hasInput || requests.any Request.isInput)
      (a.outcome.bind (·.grantAll requests)) := by
  induction h generalizing a with
  | nil =>
    refine ⟨ready, (Bool.or_false _).symm, ?_⟩
    cases a.outcome <;> rfl
  | @cons r form requests arguments hform _ ih =>
    rw [List.countP_cons] at one
    have first : r.isInput = true → a.hasInput = false := by
      intro hinput
      rw [if_pos hinput] at one
      exact Bool.toNat_eq_zero.mp (by omega)
    obtain ⟨next, hnext, reads⟩ := takeAll_form hform ready.names fun hinput =>
      ⟨ready, first hinput⟩
    rw [takeAll_append, hnext]
    cases a.outcome with
    | error stop => rfl
    | ok s =>
      have read := reads s
      show ReadsAs ((next s).bind _) _ (s.grantAll (r :: requests))
      rw [Settled.grantAll_cons]
      cases hread : next s with
      | error stop =>
        rw [hread] at read
        rw [show s.grant r = .error stop from read]
        rfl
      | ok b =>
        rw [hread] at read
        obtain ⟨bReady, bInput, bOutcome⟩ := read
        have seen : (a.hasInput || r.isInput).toNat
            ≤ a.hasInput.toNat + if r.isInput = true then 1 else 0 := by
          cases a.hasInput <;> cases r.isInput <;> decide
        have later : b.hasInput.toNat + requests.countP Request.isInput ≤ 1 := by
          rw [bInput]
          omega
        have rest := ih bReady later
        rw [bInput, bOutcome, Bool.or_assoc] at rest
        exact rest

/-- The two dashes, and the input behind them. -/
theorem takeAll_input_last (ready : a.Ready) (first : a.hasInput = false) (value : String) :
    a.takeAll ["--", value] = a.outcome.bind fun s =>
      .ok ⟨s, some (.input, some value), true, true⟩ := by
  have dashes : a.take "--" = .ok { a with onlyInputs := true } := by
    rw [take, if_neg (by rw [ready.names]; decide)]
    rfl
  have behind : ({ a with onlyInputs := true } : ArgumentState).take value
      = ({ a with onlyInputs := true } : ArgumentState).takeInput value := if_pos rfl
  have seen : ({ a with onlyInputs := true } : ArgumentState).hasInput = false := first
  rw [takeAll_cons, dashes]
  show takeAll _ [value] = _
  rw [takeAll_singleton, behind, takeInput_eq seen]
  rfl

/-- At the end, what is pending is settled, and then the whole is checked. -/
theorem parse_eq (arguments : List String) :
    CommandLine.parse arguments = (takeAll {} arguments).bind fun a =>
      a.outcome.bind Settled.toCommandLine := by
  rw [CommandLine.parse]
  congr 1
  funext a
  rw [settle_eq]
  cases a.outcome <;> rfl

end ArgumentState

open ArgumentState

/-- From the start, forms of requests read as what granting them in turn comes to. -/
theorem reads_of_writes {requests : List Request} {arguments : List String}
    (front : Request.WritesAll requests arguments) (one : requests.countP Request.isInput ≤ 1) :
    ReadsAs (takeAll {} arguments) (requests.any Request.isInput)
      (({} : Settled).grantAll requests) := by
  have ready : ({} : ArgumentState).Ready := ⟨rfl, fun _ => nofun⟩
  have reads := takeAll_of_writes front ready (by
    show 0 + _ ≤ 1
    omega)
  exact reads

/-- **Written requests are granted in turn.** Arguments that were written for requests, with at
most one input among them, are read as the command line that results when the requests are
granted one after the other; what fails first there is what the reading fails for. -/
theorem parse_of_writes {requests last : List Request} {arguments more : List String}
    (front : Request.WritesAll requests arguments) (back : Request.WritesLast last more)
    (one : (requests ++ last).countP Request.isInput ≤ 1) :
    CommandLine.parse (arguments ++ more)
      = (({} : Settled).grantAll (requests ++ last)).bind Settled.toCommandLine := by
  rw [List.countP_append] at one
  have reads := reads_of_writes front (by omega)
  rw [parse_eq, takeAll_append, Settled.grantAll_append]
  cases hread : takeAll {} arguments with
  | error stop =>
    rw [hread] at reads
    rw [show ({} : Settled).grantAll requests = .error stop from reads]
    rfl
  | ok b =>
    rw [hread] at reads
    obtain ⟨ready, seen, granted⟩ := reads
    rw [← granted]
    cases back with
    | nothing =>
      show b.outcome.bind _ = (b.outcome.bind _).bind _
      cases b.outcome <;> rfl
    | input value =>
      have first : b.hasInput = false := by
        rw [seen, List.any_eq_false]
        have none : requests.countP Request.isInput + 1 ≤ 1 := one
        exact List.countP_eq_zero.mp (by omega)
      show (b.takeAll ["--", value]).bind _ = (b.outcome.bind _).bind _
      rw [takeAll_input_last ready first]
      cases b.outcome with
      | error stop => rfl
      | ok s =>
        show (s.assign .input value).bind _ = ((s.assign .input value).bind _).bind _
        cases s.assign .input value <;> rfl

/-- **A name does not count as a value.** If the name of an option is followed by a form that
begins with a name, the reading ends for lack of a value, unless it has failed before. -/
theorem parse_of_interrupted {requests : List Request} {arguments : List String}
    (front : Request.WritesAll requests arguments)
    (one : requests.countP Request.isInput ≤ 1) {o : ValueOption} {name : String}
    (hname : (Switch.option o).Names name) {r : Request} {form : List String}
    (hform : r.Writes form) (hr : r.isInput = false) (rest : List String) :
    CommandLine.parse (arguments ++ name :: (form ++ rest))
      = (({} : Settled).grantAll requests).bind fun _ => .error (.refused .invalidValue) := by
  have reads := reads_of_writes front one
  rw [parse_eq, takeAll_append]
  cases hread : takeAll {} arguments with
  | error stop =>
    rw [hread] at reads
    rw [show ({} : Settled).grantAll requests = .error stop from reads]
    rfl
  | ok b =>
    rw [hread] at reads
    obtain ⟨ready, -, granted⟩ := reads
    have named : b.take name = b.await o := take_name ready.names hname
    rw [← granted]
    show (b.takeAll (name :: (form ++ rest))).bind _ = _
    rw [takeAll_cons, named, await_eq]
    cases b.outcome with
    | error stop => rfl
    | ok s =>
      -- the option waits, and to settle that is to refuse it
      obtain ⟨next, hnext, -⟩ := takeAll_form hform
        (a := { b.settledAt s with pending := some (.option o, none) }) ready.names
        (fun hinput => absurd hinput (by rw [hr]; decide))
      show (takeAll _ (form ++ rest)).bind _ = _
      rw [takeAll_append, hnext]
      rfl

end DataInlay
