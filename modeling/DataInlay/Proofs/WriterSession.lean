/-
# DataInlay.Proofs.WriterSession — what a writer leaves in a sink that may be full

A push to a bounded sink writes as much of its literals as there is room for, and counts
the literals of which all has arrived (`Writer.push_eq`). So a session never takes
anything back, and until its first failing push the sink holds a beginning of the
declaration of all that was pushed, as long as the limit and what it held before allow.

The laws of sessions are stated of any script and the step behind it, and so of every
step of every script (`session_invariant`). Behind them is what a script without a
failure has come to (`Session.Accounted`), which each step that does not fail keeps.
-/
import DataInlay.Declaration.Session
import DataInlay.Proofs.StreamFaults
import Mathlib.Data.List.TakeWhile

namespace DataInlay

/-! ## Literals of which all has arrived -/

/-- How many literals of a layout lie wholly within its first bytes, which are `arrived`. -/
def arrivedLiterals (width : Option Width) (written : Nat) (data arrived : Bytes) : Nat :=
  (List.range data.length).countP fun i => layout width written (data.take (i + 1)) <+: arrived

theorem layout_cons_eq_append (width : Option Width) (written : Nat) (b : UInt8) (data : Bytes) :
    layout width written (b :: data) =
      layout width written [b] ++ layout width (written + 1) data :=
  layout_append width written [b] data

/-- A first literal that has arrived is one more than those behind it. -/
theorem arrivedLiterals_cons (width : Option Width) (written : Nat) (b : UInt8)
    (data arrived : Bytes) :
    arrivedLiterals width written (b :: data) (layout width written [b] ++ arrived) =
      arrivedLiterals width (written + 1) data arrived + 1 := by
  have first : layout width written ((b :: data).take (0 + 1))
      <+: layout width written [b] ++ arrived := List.prefix_append _ _
  have others : ∀ i, (layout width written ((b :: data).take (i + 1 + 1))
      <+: layout width written [b] ++ arrived)
        ↔ layout width (written + 1) (data.take (i + 1)) <+: arrived := by
    intro i
    rw [List.take_succ_cons, layout_cons_eq_append, List.prefix_append_right_inj]
  rw [arrivedLiterals, List.length_cons, List.range_succ_eq_map, List.countP_cons, List.countP_map,
    if_pos (decide_eq_true first), arrivedLiterals]
  congr 2
  funext i
  simp only [Function.comp_apply, others]

/-- Before all of the first literal has arrived, none counts. -/
theorem arrivedLiterals_eq_zero {width : Option Width} {written : Nat} {b : UInt8}
    {arrived : Bytes} (h : arrived.length < (layout width written [b]).length) (data : Bytes) :
    arrivedLiterals width written (b :: data) arrived = 0 := by
  rw [arrivedLiterals, List.countP_eq_zero]
  intro i _
  rw [decide_eq_true_eq, List.take_succ_cons, layout_cons_eq_append]
  intro whole
  have := whole.length_le
  rw [List.length_append] at this
  omega

example : arrivedLiterals none 0 (utf8 "ab") (utf8 "0x61, 0x") = 1 := by decide +kernel

theorem layout_singleton_length_pos (width : Option Width) (written : Nat) (b : UInt8) :
    0 < (layout width written [b]).length := by
  simp [layout_cons, literal]

theorem arrivedLiterals_nil (width : Option Width) (written : Nat) (data : Bytes) :
    arrivedLiterals width written data [] = 0 := by
  cases data with
  | nil => rfl
  | cons b data =>
    apply arrivedLiterals_eq_zero
    exact layout_singleton_length_pos width written b

/-! ## Sinks without room -/

namespace BoundedSink

theorem taken_content (s : BoundedSink) (bytes : Bytes) :
    (s.taken bytes).content.toList = s.content.toList ++ bytes.take (s.room bytes.length) :=
  Array.toList_appendList

/-- What arrives of some bytes, by what was there before. -/
theorem taken_content_drop (s : BoundedSink) (bytes : Bytes) :
    (s.taken bytes).content.toList.drop s.content.toList.length
      = bytes.take (s.room bytes.length) := by
  rw [taken_content, List.drop_left]

/-- Where something did not fit, nothing does any more. -/
theorem room_taken_of_not_fits {s : BoundedSink} {bytes : Bytes} (h : ¬ s.Fits bytes.length)
    (count : Nat) : (s.taken bytes).room count = 0 := by
  have size := s.taken_size bytes
  have limit : (s.taken bytes).limit = s.limit := rfl
  unfold Fits at h
  unfold room at h size ⊢
  rw [limit, size]
  cases hlimit : s.limit with
  | none => simp [hlimit] at h
  | some most =>
    simp only [hlimit] at h ⊢
    omega

theorem taken_of_no_room {s : BoundedSink} (h : ∀ count, s.room count = 0) (bytes : Bytes) :
    s.taken bytes = s := by
  rw [taken, h, List.take_zero, Array.appendList_nil]

end BoundedSink

/-! ## Pushing to a bounded sink -/

namespace Writer

variable {σ : Type} [Sink σ]

/-- Putting a piece changes the sink and nothing else, even when it fails. -/
theorem put_state (w : Writer σ) (piece : Bytes) :
    (w.put piece).state = w.advance 0 (w.put piece).state.sink := by
  rw [put]
  cases Sink.write w.sink piece <;> rfl

/-- A byte that could not be written is not counted. -/
theorem pushByte_failed {w w' : Writer σ} {b : UInt8} {fault : Fault}
    (h : w.pushByte b = .failed fault w') : w' = w.advance 0 w'.sink := by
  -- whichever of its two pieces was refused
  have literal_failed : ∀ {w₁ : Writer σ}, w₁ = w.advance 0 w₁.sink →
      ((w₁.put (literal b)).andThen fun w => .done { w with written := w.written + 1 })
        = .failed fault w' → w' = w.advance 0 w'.sink := by
    intro w₁ hw₁ h
    have state := w₁.put_state (literal b)
    cases hput : w₁.put (literal b) with
    | done w₂ =>
      rw [hput] at h
      cases h
    | failed f w₂ =>
      rw [hput] at h state
      cases h
      rw [hw₁] at state
      exact state
  rw [pushByte] at h
  split at h
  · exact literal_failed rfl h
  · have state := w.put_state (separator w.width w.written)
    cases hput : w.put (separator w.width w.written) with
    | done w₁ =>
      rw [hput] at h state
      exact literal_failed state h
    | failed f w₁ =>
      rw [hput] at h state
      cases h
      exact state

theorem pushByte_eq (w : Writer BoundedSink) (b : UInt8) :
    w.pushByte b =
      if w.sink.Fits (layout w.width w.written [b]).length then
        .done (w.advance 1 (w.sink.taken (layout w.width w.written [b])))
      else .failed "disk full" (w.advance 0 (w.sink.taken (layout w.width w.written [b]))) := by
  have follows := w.pushByte_follows b
  rw [BoundedSink.writeAll_eq, layoutPieces_flatten] at follows
  split
  · next h => exact follows.of_done (if_pos h)
  · next h =>
    obtain ⟨w', hpush, hsink⟩ := follows.of_failed (if_neg h)
    rw [hpush, pushByte_failed hpush, hsink]

/-- **A push to a bounded sink** writes what there is room for. When that is not all, the
literals that count are those of which all has arrived. -/
theorem push_eq (w : Writer BoundedSink) (data : Bytes) :
    w.push data =
      if w.sink.Fits (layout w.width w.written data).length then
        .done (w.advance data.length (w.sink.taken (layout w.width w.written data)))
      else .failed "disk full" (w.advance
        (arrivedLiterals w.width w.written data ((layout w.width w.written data).take
          (w.sink.room (layout w.width w.written data).length)))
        (w.sink.taken (layout w.width w.written data))) := by
  induction data generalizing w with
  | nil =>
    have fits : w.sink.Fits 0 := Nat.le_zero.mp (w.sink.room_le 0)
    rw [layout_nil, List.length_nil, if_pos fits, BoundedSink.taken_nil]
    rfl
  | cons b data ih =>
    rw [push, Attempt.each_cons, pushByte_eq, layout_cons_eq_append w.width w.written b data]
    by_cases h : w.sink.Fits (layout w.width w.written [b]).length
    · have later := ih (w.advance 1 (w.sink.taken (layout w.width w.written [b])))
      simp only [push, advance_sink, advance_width, advance_written, advance_advance] at later
      rw [if_pos h, BoundedSink.taken_append h, Attempt.andThen, later]
      simp only [BoundedSink.fits_append h]
      split
      · rw [List.length_cons, Nat.add_comm 1]
      · rw [List.length_append, BoundedSink.room_add h, List.take_length_add_append,
          arrivedLiterals_cons, Nat.add_comm 1]
    · obtain ⟨least, none⟩ :=
        BoundedSink.room_of_not_fits h (layout w.width (w.written + 1) data).length
      rw [← List.length_append] at none least
      have short : ((layout w.width w.written [b] ++ layout w.width (w.written + 1) data).take
          (w.sink.room (layout w.width w.written [b]
            ++ layout w.width (w.written + 1) data).length)).length
            < (layout w.width w.written [b]).length := by
        have := w.sink.room_le (layout w.width w.written [b]).length
        unfold BoundedSink.Fits at h
        rw [List.length_take, least]
        omega
      rw [if_neg h, if_neg none, BoundedSink.taken_append_of_not_fits h,
        arrivedLiterals_eq_zero short]
      rfl

/-- Without room, a push changes nothing. -/
theorem push_of_no_room {w : Writer BoundedSink} (h : ∀ count, w.sink.room count = 0)
    (data : Bytes) : (w.push data).state = w := by
  rw [push_eq, BoundedSink.taken_of_no_room h, h, List.take_zero, arrivedLiterals_nil]
  split
  · next fits =>
    -- only nothing fits where there is no room
    have none : data = [] := by
      cases data with
      | nil => rfl
      | cons b data =>
        have long := layout_singleton_length_pos w.width w.written b
        rw [BoundedSink.Fits, h, layout_cons_eq_append, List.length_append] at fits
        omega
    subst none
    rfl
  · rfl

/-- How data is split into pushes does not matter, not even when one of them fails. -/
theorem push_state_append (w : Writer BoundedSink) (a b : Bytes) :
    ((w.push a).state.push b).state = (w.push (a ++ b)).state := by
  rw [push_append]
  cases hpush : w.push a with
  | done w' => rfl
  | failed fault w' =>
    apply push_of_no_room
    intro count
    rw [push_eq] at hpush
    split at hpush
    · cases hpush
    · next h =>
      cases hpush
      exact BoundedSink.room_taken_of_not_fits h count

end Writer

namespace Session

/-! ## What each step does -/

theorem take_start (sink : BoundedSink) (symbol : String) (width : Option Width) :
    (fresh sink).take (.start symbol width) =
      if sink.Fits (header symbol).length then
        (writing ⟨sink.taken (header symbol), width, 0⟩, .done)
      else (ended (sink.taken (header symbol)), .failed "disk full") := by
  have follows := Writer.start_follows sink symbol width
  have text : (headerPieces symbol).flatten = header symbol := rfl
  rw [BoundedSink.writeAll_eq, text] at follows
  rw [take]
  by_cases h : sink.Fits (header symbol).length
  · rw [follows.of_done (if_pos h), if_pos h]
  · obtain ⟨w, hstart, hsink⟩ := follows.of_failed (if_neg h)
    rw [hstart, if_neg h, ← hsink]

theorem take_push (w : Writer BoundedSink) (data : Bytes) :
    (writing w).take (.push data) =
      if w.sink.Fits (layout w.width w.written data).length then
        (writing (w.advance data.length (w.sink.taken (layout w.width w.written data))), .done)
      else (writing (w.advance
        (arrivedLiterals w.width w.written data ((layout w.width w.written data).take
          (w.sink.room (layout w.width w.written data).length)))
        (w.sink.taken (layout w.width w.written data))), .failed "disk full") := by
  rw [take, Writer.push_eq]
  by_cases h : w.sink.Fits (layout w.width w.written data).length
  · rw [if_pos h, if_pos h]
  · rw [if_neg h, if_neg h]

/-- The sink when the trailing literal and the closing have been handed over. -/
def closedSink (w : Writer BoundedSink) : BoundedSink :=
  w.sink.taken (layout w.width w.written [trailingByte] ++ closing)

theorem take_finish (w : Writer BoundedSink) :
    (writing w).take .finish =
      if w.sink.Fits (layout w.width w.written [trailingByte] ++ closing).length then
        (ended { closedSink w with flushes := w.sink.flushes + 1 },
          if w.sink.flushFails then .failed "flush failed" else .finished (w.written + 1))
      else (ended (closedSink w), .failed "disk full") := by
  have follows := w.finish_follows
  have text : (endPieces w.width w.written).flatten
      = layout w.width w.written [trailingByte] ++ closing := by
    rw [endPieces, List.flatten_append, layoutPieces_flatten, List.flatten_singleton]
  rw [BoundedSink.writeAll_eq, text] at follows
  rw [take]
  by_cases h : w.sink.Fits (layout w.width w.written [trailingByte] ++ closing).length
  · rw [if_pos h, Attempt.andThen, BoundedSink.flush_eq] at follows
    rw [if_pos h]
    by_cases hflush : w.sink.flushFails
    · obtain ⟨w', hfinish, hsink⟩ := follows.of_failed (if_pos hflush)
      rw [hfinish, if_pos hflush]
      show (ended w'.sink, _) = _
      rw [hsink]
      rfl
    · rw [follows.of_done (if_neg hflush), if_neg hflush]
      rfl
  · rw [if_neg h] at follows
    obtain ⟨w', hfinish, hsink⟩ := follows.of_failed rfl
    rw [hfinish, if_neg h]
    show (ended w'.sink, _) = _
    rw [hsink]
    rfl

/-- **What has arrived stays.** A step only adds to the bytes in the sink. -/
theorem content_take (s : Session) (step : Step) : s.content <+: (s.take step).1.content := by
  have longer : ∀ (sink : BoundedSink) (bytes : Bytes),
      sink.content.toList <+: (sink.taken bytes).content.toList := by
    intro sink bytes
    rw [BoundedSink.taken_content]
    exact List.prefix_append _ _
  cases s with
  | fresh sink =>
    cases step with
    | start symbol width =>
      rw [take_start]
      split <;> exact longer sink _
    | _ => exact List.prefix_rfl
  | writing w =>
    cases step with
    | push data =>
      rw [take_push]
      split <;> exact longer w.sink _
    | finish =>
      rw [take_finish]
      split <;> exact longer w.sink _
    | _ => exact List.prefix_rfl
  | ended sink => cases step <;> exact List.prefix_rfl

theorem content_after (s : Session) (script : List Step) :
    s.content <+: (s.after script).content := by
  induction script generalizing s with
  | nil => exact List.prefix_rfl
  | cons step script ih => exact (s.content_take step).trans (ih _)

/-- Behind its end, a session keeps its sink, limit and flush behaviour apart. -/
theorem after_ended (sink : BoundedSink) (script : List Step) :
    ∃ limit flushFails, (ended sink).after script = ended { sink with limit, flushFails } := by
  induction script generalizing sink with
  | nil => exact ⟨sink.limit, sink.flushFails, rfl⟩
  | cons step script ih =>
    cases step with
    | setLimit limit => exact ih { sink with limit }
    | setFlushFails flushFails => exact ih { sink with flushFails }
    | _ => exact ih sink

/-- Pushes leave a session where one push of all their data leaves it. -/
theorem after_pushes (s : Session) (parts : List Bytes) :
    s.after (parts.map .push) = s.after [.push parts.flatten] := by
  have pushed : ∀ (w : Writer BoundedSink) (data : Bytes),
      ((writing w).take (.push data)).1 = writing (w.push data).state := by
    intro w data
    rw [take]
    cases w.push data <;> rfl
  induction parts generalizing s with
  | nil =>
    cases s with
    | writing w => exact (pushed w []).symm
    | _ => rfl
  | cons part parts ih =>
    cases s with
    | writing w =>
      show ((writing w).take (.push part)).1.after (parts.map .push)
        = ((writing w).take (.push (part ++ parts.flatten))).1
      rw [pushed, ih, pushed, ← Writer.push_state_append]
      exact pushed _ _
    | fresh sink => exact ih (fresh sink)
    | ended sink => exact ih (ended sink)

/-! ## Scripts without a failure -/

/-- The declaration that a step begins. -/
def Step.opening? : Step → Option (String × Option Width)
  | .start symbol width => some (symbol, width)
  | _ => none

/-- The data that a step pushes. -/
def Step.data : Step → Bytes
  | .push data => data
  | _ => []

/-- The first declaration that a script begins; no other can follow it. -/
def opening? (script : List Step) : Option (String × Option Width) :=
  script.findSome? Step.opening?

/-- The data that a script pushes behind the beginning of a declaration. -/
def pushed (script : List Step) : Bytes :=
  (script.dropWhile (·.opening?.isNone)).flatMap Step.data

theorem opening?_concat (script : List Step) (step : Step) :
    opening? (script ++ [step]) = (opening? script).or step.opening? := by
  rw [opening?, opening?, List.findSome?_append, List.findSome?_singleton]

theorem pushed_concat (script : List Step) (step : Step) :
    pushed (script ++ [step])
      = pushed script ++ if opening? script = none then [] else step.data := by
  have none_iff : script.dropWhile (·.opening?.isNone) = [] ↔ opening? script = none := by
    rw [List.dropWhile_eq_nil_iff, opening?, List.findSome?_eq_none_iff]
    simp only [Option.isNone_iff_eq_none]
  rw [pushed, pushed, List.dropWhile_append]
  by_cases h : opening? script = none
  · rw [none_iff.mpr h, if_pos h]
    cases step <;> rfl
  · have some : script.dropWhile (·.opening?.isNone) ≠ [] := mt none_iff.mp h
    simp [some, h]

/-- What a script has come to in whose course nothing failed: unless the declaration is
finished, the sink holds the header and the literals of all data pushed, and the writer
has counted these. -/
def Accounted (script : List Step) : Session → Prop
  | fresh sink => opening? script = none ∧ sink.content = #[]
  | writing w => ∃ symbol, opening? script = some (symbol, w.width)
      ∧ w.sink.content.toList = header symbol ++ layout w.width 0 (pushed script)
      ∧ w.written = (pushed script).length
  | ended _ => True

/-- Before a declaration is begun, only its beginning changes the account. -/
theorem pushed_of_fresh {script : List Step} (h : opening? script = none) (step : Step) :
    pushed (script ++ [step]) = [] := by
  have nothing : script.dropWhile (·.opening?.isNone) = [] := by
    rw [List.dropWhile_eq_nil_iff]
    intro step mem
    rw [List.findSome?_eq_none_iff.mp h step mem]
    rfl
  rw [pushed_concat, if_pos h, pushed, nothing]
  rfl

theorem pushed_of_writing {script : List Step} {begun : String × Option Width}
    (h : opening? script = some begun) (step : Step) :
    pushed (script ++ [step]) = pushed script ++ step.data := by
  rw [pushed_concat, if_neg (by rw [h]; exact Option.some_ne_none _)]

theorem opening?_of_writing {script : List Step} {begun : String × Option Width}
    (h : opening? script = some begun) (step : Step) :
    opening? (script ++ [step]) = some begun := by
  rw [opening?_concat, h]
  rfl

/-- A step keeps the account unless it fails. -/
theorem Accounted.take {script : List Step} {s : Session} (h : Accounted script s) (step : Step)
    (hdone : ∀ fault, (s.take step).2 ≠ .failed fault) :
    Accounted (script ++ [step]) (s.take step).1 := by
  cases s with
  | fresh sink =>
    rcases h with ⟨hopening, hempty⟩
    have nothing := pushed_of_fresh hopening step
    cases step with
    | start symbol width =>
      rw [take_start] at hdone ⊢
      by_cases fits : sink.Fits (header symbol).length
      · rw [if_pos fits]
        refine ⟨symbol, ?_, ?_, ?_⟩
        · rw [opening?_concat, hopening]
          rfl
        · show (sink.taken (header symbol)).content.toList = _
          rw [BoundedSink.taken_content, hempty, fits, List.take_length, nothing, layout_nil,
            List.append_nil]
          rfl
        · rw [nothing]
          rfl
      · rw [if_neg fits] at hdone
        exact absurd rfl (hdone _)
    | _ => exact ⟨by rw [opening?_concat, hopening]; rfl, hempty⟩
  | writing w =>
    rcases h with ⟨symbol, hopening, hcontent, hwritten⟩
    have opening := opening?_of_writing hopening step
    have data := pushed_of_writing hopening step
    cases step with
    | push new =>
      rw [take_push] at hdone ⊢
      by_cases fits : w.sink.Fits (layout w.width w.written new).length
      · rw [if_pos fits]
        refine ⟨symbol, opening, ?_, ?_⟩
        · rw [data, layout_append, Nat.zero_add, ← hwritten, ← List.append_assoc]
          show (w.sink.taken (layout w.width w.written new)).content.toList
            = header symbol ++ layout w.width 0 (pushed script) ++ layout w.width w.written new
          rw [BoundedSink.taken_content, fits, List.take_length, hcontent]
        · rw [data, List.length_append, ← hwritten]
          rfl
      · rw [if_neg fits] at hdone
        exact absurd rfl (hdone _)
    | finish =>
      rw [take_finish]
      split <;> exact trivial
    | _ =>
      have same := data.trans (List.append_nil _)
      exact ⟨symbol, opening, by rw [same]; exact hcontent, by rw [same]; exact hwritten⟩
  | ended sink => cases step <;> exact trivial

/-- So a script in whose course nothing fails keeps it. -/
theorem Accounted.after {script : List Step} {s : Session} (h : Accounted script s)
    (more : List Step) (hdone : ∀ fault, .failed fault ∉ s.answers more) :
    Accounted (script ++ more) (s.after more) := by
  induction more generalizing s script with
  | nil => rwa [List.append_nil]
  | cons step more ih =>
    simp only [answers, List.mem_cons, not_or] at hdone
    rw [List.append_cons]
    exact ih (h.take step fun fault => Ne.symm (hdone fault).1) fun fault => (hdone fault).2

theorem accounted_after {sink : BoundedSink} (hempty : sink.content = #[]) (script : List Step)
    (hdone : ∀ fault, .failed fault ∉ (fresh sink).answers script) :
    Accounted script ((fresh sink).after script) := by
  have begun : Accounted [] (fresh sink) := ⟨rfl, hempty⟩
  exact begun.after script hdone

/-! ## Up to the first failing push -/

/-- How many of `all` bytes a sink holds that already held `before` of them and is handed
the others. -/
def reach (limit : Option Nat) (before all : Nat) : Nat :=
  match limit with
  | none => all
  | some most => min all (max most before)

theorem reach_self (limit : Option Nat) (all : Nat) : reach limit all all = all := by
  unfold reach
  split
  · rfl
  · omega

/-- A sink that is handed bytes takes as many as it reaches. -/
theorem taken_reaches (sink : BoundedSink) (bytes : Bytes) :
    (sink.taken bytes).content.toList <+: sink.content.toList ++ bytes
      ∧ (sink.taken bytes).content.toList.length = reach sink.limit sink.content.toList.length
        (sink.content.toList ++ bytes).length := by
  constructor
  · rw [BoundedSink.taken_content]
    exact (List.prefix_append_right_inj _).mpr (List.take_prefix _ _)
  · have before : sink.content.toList.length = sink.content.size := Array.length_toList
    rw [Array.length_toList, sink.taken_size, List.length_append, before]
    unfold BoundedSink.room reach
    cases sink.limit with
    | none => rfl
    | some most =>
      simp only
      omega

/-- **Until a push fails**, and with the one that does, the sink holds a beginning of the
header and the literals of all data pushed, as much of it as the limit allows, and never
less than before. -/
theorem Accounted.take_reaches {script : List Step} {s : Session} (h : Accounted script s)
    {step : Step} {symbol : String} {width : Option Width}
    (hopening : opening? (script ++ [step]) = some (symbol, width))
    (hended : ∀ sink, s ≠ ended sink) (hstep : step ≠ .finish) :
    (s.take step).1.content <+: header symbol ++ layout width 0 (pushed (script ++ [step]))
      ∧ (s.take step).1.content.length = reach (s.take step).1.sink.limit s.content.length
        (header symbol ++ layout width 0 (pushed (script ++ [step]))).length := by
  cases s with
  | fresh sink =>
    rcases h with ⟨hnone, hempty⟩
    rw [opening?_concat, hnone, Option.none_or] at hopening
    cases step with
    | start symbol' width' =>
      cases hopening
      have reaches := taken_reaches sink (header symbol)
      rw [pushed_of_fresh hnone, layout_nil, List.append_nil, content, take_start]
      rw [hempty, List.nil_append] at reaches
      rw [show (fresh sink).content = #[].toList from congrArg Array.toList hempty]
      split <;> exact reaches
    | _ => cases hopening
  | writing w =>
    rcases h with ⟨symbol', hbegun, hcontent, hwritten⟩
    rw [opening?_of_writing hbegun] at hopening
    cases hopening
    have text : header symbol ++ layout w.width 0 (pushed (script ++ [step]))
        = w.sink.content.toList ++ layout w.width w.written step.data := by
      rw [pushed_of_writing hbegun, layout_append, Nat.zero_add, ← hwritten, ← List.append_assoc,
        ← hcontent]
    rw [text]
    -- a step without data leaves all of it in place, under whatever limit
    have unchanged : ∀ limit, w.sink.content.toList <+: w.sink.content.toList ++ []
        ∧ w.sink.content.toList.length = reach limit w.sink.content.toList.length
          (w.sink.content.toList ++ []).length := by
      intro limit
      rw [List.append_nil, reach_self]
      exact ⟨List.prefix_rfl, rfl⟩
    cases step with
    | push new =>
      rw [take_push]
      split <;> exact taken_reaches w.sink (layout w.width w.written new)
    | finish => exact absurd rfl hstep
    | _ => exact unchanged _
  | ended sink => exact absurd rfl (hended sink)

/-! ## The count, the end, and behind it -/

/-- How many literals a step adds to those counted, when it came to `answer` and these bytes
have arrived by it. -/
def Step.counted (step : Step) (answer : Answer) (w : Writer BoundedSink) (arrived : Bytes) : Nat :=
  match step, answer with
  | .push data, .done => data.length
  | .push data, .failed _ => arrivedLiterals w.width w.written data arrived
  | _, _ => 0

/-- A push that fails counts the literals of which all has arrived by it. -/
theorem written_take {w w' : Writer BoundedSink} {step : Step}
    (h : ((writing w).take step).1 = writing w') :
    w'.written = w.written + step.counted ((writing w).take step).2 w
      ((writing w').content.drop (writing w).content.length) := by
  cases step with
  | push data =>
    rw [take_push] at h ⊢
    split at h
    · next fits =>
      cases h
      rw [if_pos fits]
      rfl
    · next full =>
      cases h
      rw [if_neg full]
      show _ = w.written + arrivedLiterals w.width w.written data
        ((w.sink.taken _).content.toList.drop w.sink.content.toList.length)
      rw [BoundedSink.taken_content_drop]
      rfl
  | finish =>
    rw [take_finish] at h
    split at h <;> cases h
  | _ =>
    cases h
    rfl

/-- A finish that succeeds completes the declaration. -/
theorem Accounted.finished {script : List Step} {s : Session} (h : Accounted script s)
    {step : Step} {total : Nat} (hanswer : (s.take step).2 = .finished total) :
    ∃ symbol width, opening? script = some (symbol, width)
      ∧ (s.take step).1.content = declaration symbol width (pushed script)
      ∧ total = (pushed script).length + 1 := by
  cases s with
  | fresh sink =>
    cases step with
    | start symbol width =>
      rw [take_start] at hanswer
      split at hanswer <;> cases hanswer
    | _ => cases hanswer
  | writing w =>
    cases step with
    | push data =>
      rw [take_push] at hanswer
      split at hanswer <;> cases hanswer
    | finish =>
      rcases h with ⟨symbol, hopening, hcontent, hwritten⟩
      rw [take_finish] at hanswer ⊢
      split at hanswer
      · next fits =>
        rw [if_pos fits]
        split at hanswer
        · cases hanswer
        · cases hanswer
          refine ⟨symbol, w.width, hopening, ?_, by rw [hwritten]⟩
          show (closedSink w).content.toList = _
          rw [closedSink, BoundedSink.taken_content, fits, List.take_length, hcontent, declaration,
            layout_append, Nat.zero_add, hwritten]
          simp only [List.append_assoc]
      · cases hanswer
    | _ => cases hanswer
  | ended sink => cases step <;> cases hanswer

/-- Nothing comes behind a beginning that failed, nor behind any finish. -/
theorem ended_of_last {s : Session} {step : Step}
    (h : (∃ symbol width fault, step = .start symbol width ∧ (s.take step).2 = .failed fault)
      ∨ step = .finish ∧ (∃ w, s = writing w)) :
    ∃ sink, (s.take step).1 = ended sink := by
  rcases h with ⟨symbol, width, fault, rfl, hanswer⟩ | ⟨rfl, w, rfl⟩
  · cases s with
    | fresh sink =>
      rw [take_start] at hanswer ⊢
      split at hanswer
      · cases hanswer
      · next full => exact ⟨_, by rw [if_neg full]⟩
    | _ => cases hanswer
  · rw [take_finish]
    split <;> exact ⟨_, rfl⟩

/-- **Sessions with a writer.** Of any script on an empty sink, and the step behind it:
* what is in the sink stays, whatever comes;
* the writer's count grows by the data of a push that succeeds, by the literals that arrived
  whole when it fails, and by nothing else;
* unless something failed before, what a step leaves in the sink is a beginning of the
  header and the literals of all data pushed, as long as the limit and what was there allow;
* pushes leave what one push of all their data leaves;
* a finish that succeeds, when nothing failed before, leaves the declaration of all data
  pushed, and tells its number of literals;
* behind a beginning that failed and behind every finish, nothing changes any more. -/
theorem session_invariant (limit : Option Nat) (flushFails : Bool) (script : List Step)
    (step : Step) :
    let start := fresh { limit, flushFails }
    let s := start.after script
    let s' := (s.take step).1
    let answer := (s.take step).2
    let faultless := ∀ fault, .failed fault ∉ start.answers script
    (∀ more, s.content <+: (s.after more).content)
    ∧ (∀ w w', s = writing w → s' = writing w' →
        w'.written = w.written + step.counted answer w (s'.content.drop s.content.length))
    ∧ (faultless → ∀ symbol width, opening? (script ++ [step]) = some (symbol, width) →
        (∀ sink, s ≠ ended sink) → step ≠ .finish →
        let text := header symbol ++ layout width 0 (pushed (script ++ [step]))
        s'.content <+: text
          ∧ s'.content.length = reach s'.sink.limit s.content.length text.length)
    ∧ (∀ parts : List Bytes, s.after (parts.map .push) = s.after [.push parts.flatten])
    ∧ (faultless → ∀ total, answer = .finished total →
        ∃ symbol width, opening? script = some (symbol, width)
          ∧ s'.content = declaration symbol width (pushed script)
          ∧ total = (pushed script).length + 1)
    ∧ ((∃ symbol width fault, step = .start symbol width ∧ answer = .failed fault)
        ∨ step = .finish ∧ (∃ w, s = writing w) →
        ∀ more, ∃ sink, s'.after more = ended sink ∧ sink.content.toList = s'.content
          ∧ sink.flushes = s'.sink.flushes) := by
  intro start s s' answer faultless
  have account : faultless → Accounted script s := accounted_after rfl script
  refine ⟨s.content_after, ?_, ?_, s.after_pushes, ?_, ?_⟩
  · intro w w' hs hs'
    have taken : ((writing w).take step).1 = writing w' := by rw [← hs]; exact hs'
    have counted := written_take taken
    rw [← hs, ← hs'] at counted
    exact counted
  · intro hdone symbol width hopening hended hstep
    exact (account hdone).take_reaches hopening hended hstep
  · intro hdone total hanswer
    exact (account hdone).finished hanswer
  · intro hended more
    obtain ⟨sink, hsink⟩ := ended_of_last hended
    obtain ⟨limit', flushFails', hafter⟩ := after_ended sink more
    have closed : s' = ended sink := hsink
    rw [closed]
    exact ⟨_, hafter, rfl, rfl⟩

example : ((fresh { limit := some 33 }).after [.start "j" none, .push (utf8 "ab")]).content
    = utf8 "static const char j[] = \x7b0x61, 0x" := by decide +kernel

end Session

end DataInlay
