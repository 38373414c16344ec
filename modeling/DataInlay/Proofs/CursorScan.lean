/-
# DataInlay.Proofs.CursorScan — stripping with a cursor on the line

Comments can be stripped without taking the line apart: a cursor moves along it, and at each
turn the bytes from the cursor on are looked at, searched for the end of what starts there,
and copied or passed over. Such a loop has two ways to go wrong that `spans` has not. It may
ask for bytes that the line does not have, and it may not come to its end.

Here every stretch of bytes that a turn takes is checked (`slice?`), and the loop may take so
many turns and no more (`loop?`). At each place of a line a span starts that fits what follows
it, and the turn there moves the cursor over exactly that span (`turn?_of_fits`). From this
follow the bounds that hold at every turn (`Reached.bounds`), that no check ever fails, and
that the loop is over after as many turns as the line has bytes, with the stripped line as its
output (`cursor_stays_on_line`).
-/
import DataInlay.Proofs.StrippedLine

namespace DataInlay

/-! ## Stretches of bytes -/

/-- The bytes from one position up to another; none when there are not so many. -/
def slice? (s : Bytes) (start stop : Nat) : Option Bytes :=
  if start ≤ stop ∧ stop ≤ s.length then some ((s.take stop).drop start) else none

/-- The first position at which the bytes sought stand. -/
def position? (sought s : Bytes) : Option Nat :=
  if sought = [] ∨ s.length < sought.length then none
  else (List.range (s.length - sought.length + 1)).find? fun i =>
    (s.drop i).take sought.length == sought

theorem slice?_from {s : Bytes} {start : Nat} (h : start ≤ s.length) :
    slice? s start s.length = some (s.drop start) := by
  rw [slice?, if_pos ⟨h, Nat.le_refl _⟩, List.take_length]

theorem slice?_upTo {s : Bytes} {stop : Nat} (h : stop ≤ s.length) :
    slice? s 0 stop = some (s.take stop) := by
  rw [slice?, if_pos ⟨Nat.zero_le _, h⟩, List.drop_zero]

theorem take_eq_iff_prefix {sought s : Bytes} : s.take sought.length = sought ↔ sought <+: s := by
  rw [List.prefix_iff_eq_take, eq_comm]

/-- The search fails when the bytes sought stand nowhere. -/
theorem position?_of_absent {sought s : Bytes} (h : ¬ sought <:+: s) :
    position? sought s = none := by
  rw [position?]
  split
  · rfl
  · rw [List.find?_eq_none]
    intro i _ found
    have stands : sought <+: s.drop i := take_eq_iff_prefix.mp (beq_iff_eq.mp found)
    exact h (stands.isInfix.trans (List.drop_suffix i s).isInfix)

/-- The search finds the position behind which the bytes sought stand first. -/
theorem position?_of_first {sought before after : Bytes} (hsought : sought ≠ [])
    (first : ∀ i < before.length, ¬ sought <+: (before ++ sought ++ after).drop i) :
    position? sought (before ++ sought ++ after) = some before.length := by
  have long : (before ++ sought ++ after).length
      = before.length + sought.length + after.length := by
    rw [List.length_append, List.length_append]
  have here : (before ++ sought ++ after).drop before.length = sought ++ after := by
    rw [List.append_assoc, List.drop_left]
  have searched : ¬ (sought = [] ∨ (before ++ sought ++ after).length < sought.length) := by
    rw [not_or]
    exact ⟨hsought, by omega⟩
  rw [position?, if_neg searched, List.find?_range_eq_some]
  refine ⟨?_, ?_, ?_⟩
  · rw [here, List.take_left, beq_self_eq_true]
  · rw [List.mem_range]
    omega
  · intro i hi
    rw [Bool.not_eq_true', beq_eq_false_iff_ne, Ne, take_eq_iff_prefix]
    exact first i hi

/-- The first close behind the body of a block comment stands right behind it. -/
theorem position?_close {body : Bytes} (h : ClosesFirstBehind body) (rest : Bytes) :
    position? blockCommentClose (body ++ blockCommentClose ++ rest) = some body.length := by
  apply position?_of_first (by decide)
  intro i hi stands
  have whole : (body ++ blockCommentClose ++ rest).drop i
      = (body ++ [Ascii.star]).drop i ++ Ascii.slash :: rest := by
    rw [← List.drop_append_of_le_length (by rw [List.length_append]; omega)]
    simp [blockCommentClose]
  -- both bytes of the close would stand in front of the last byte of the true one
  have inside : blockCommentClose <+: (body ++ [Ascii.star]).drop i := by
    rw [whole] at stands
    apply List.prefix_of_prefix_length_le stands (List.prefix_append _ _)
    rw [List.length_drop, List.length_append]
    show 2 ≤ body.length + 1 - i
    omega
  exact closesFirstBehind_iff.mp h (inside.isInfix.trans (List.drop_suffix i _).isInfix)

/-! ## The loop -/

/-- How far the loop has come. -/
structure Scan where
  /-- How many bytes of the line have been passed. -/
  cursor : Nat := 0
  /-- What has been kept of them. -/
  output : Bytes := []

/-- The end of a turn. -/
inductive Turn
  | goesOn (next : Scan)
  /-- The rest of the line is a comment. -/
  | breaksOff

namespace Scan

/-- Copies quoted text up to and with the closing quote, or else to the end of the line. -/
def copyQuoted? (s : Scan) (quote : UInt8) (rest : Bytes) : Option Turn :=
  (slice? rest 1 rest.length).bind fun behind =>
    let length := match behind.findIdx? (· == quote) with
      | some close => close + 2
      | none => rest.length
    (slice? rest 0 length).map fun kept => .goesOn ⟨s.cursor + length, s.output ++ kept⟩

/-- Passes over a block comment; one without a close is the rest of the line. -/
def skipBlock? (s : Scan) (rest : Bytes) : Option Turn :=
  (slice? rest blockCommentOpen.length rest.length).map fun body =>
    match position? blockCommentClose body with
    | some close => .goesOn
        ⟨s.cursor + (blockCommentOpen.length + close + blockCommentClose.length), s.output⟩
    | none => .breaksOff

/-- What a turn does when the line goes on with `rest`; none when it asks for bytes that are
not there. -/
def lookAt? (s : Scan) (rest : Bytes) : Option Turn :=
  rest.head?.bind fun b =>
    if isQuote b then s.copyQuoted? b rest
    else if lineCommentOpen.isPrefixOf rest then some .breaksOff
    else if blockCommentOpen.isPrefixOf rest then s.skipBlock? rest
    else some (.goesOn ⟨s.cursor + 1, s.output ++ [b]⟩)

/-- One turn of the loop. -/
def turn? (line : Bytes) (s : Scan) : Option Turn :=
  (slice? line s.cursor line.length).bind s.lookAt?

/-- The loop with at most so many turns: its output, unless a turn fails or one more would be
needed. -/
def loop? (line : Bytes) : Nat → Scan → Option Bytes
  | 0, s => if s.cursor < line.length then none else some s.output
  | turns + 1, s =>
    if s.cursor < line.length then
      match s.turn? line with
      | some (.goesOn next) => loop? line turns next
      | some .breaksOff => some s.output
      | none => none
    else some s.output

/-- So many turns from the start of the line, none of which broke off, have led to the scan. -/
inductive Reached (line : Bytes) : Nat → Scan → Prop
  | start : Reached line 0 {}
  | turn {turns : Nat} {s next : Scan} :
      Reached line turns s → s.cursor < line.length → s.turn? line = some (.goesOn next) →
      Reached line (turns + 1) next

/-! ## A turn passes over a span -/

/-- The turn that passes over a span. -/
def past (s : Scan) (part : Span) : Turn :=
  match part with
  | .quoted .. | .unclosedQuoted .. | .plain _ =>
    .goesOn ⟨s.cursor + part.text.length, s.output ++ part.text⟩
  | .blockComment _ => .goesOn ⟨s.cursor + part.text.length, s.output⟩
  | .lineComment _ | .unclosedBlockComment _ => .breaksOff

theorem findIdx?_of_not_mem {b : UInt8} {s : Bytes} (h : b ∉ s) :
    s.findIdx? (· == b) = none := by
  rw [List.findIdx?_eq_none_iff]
  intro c hc
  rw [beq_eq_false_iff_ne]
  rintro rfl
  exact h hc

theorem copyQuoted?_of_closed (s : Scan) {q : UInt8} {body : Bytes} (h : q ∉ body)
    (rest : Bytes) :
    s.copyQuoted? q (q :: body ++ [q] ++ rest)
      = some (.goesOn ⟨s.cursor + (body.length + 2), s.output ++ (q :: body ++ [q])⟩) := by
  have whole : slice? (q :: body ++ [q] ++ rest) 1 (q :: body ++ [q] ++ rest).length
      = some (body ++ q :: rest) := by
    rw [slice?_from (by simp)]
    simp
  have close : (body ++ q :: rest).findIdx? (· == q) = some body.length := by
    rw [List.findIdx?_append, findIdx?_of_not_mem h, List.findIdx?_cons, beq_self_eq_true]
    simp
  have kept : slice? (q :: body ++ [q] ++ rest) 0 (body.length + 2)
      = some (q :: body ++ [q]) := by
    rw [slice?_upTo (by simp), List.take_left' (by simp)]
  rw [copyQuoted?, whole, Option.bind_some, close]
  dsimp only
  rw [kept]
  rfl

theorem copyQuoted?_of_open (s : Scan) {q : UInt8} {body : Bytes} (h : q ∉ body) :
    s.copyQuoted? q (q :: body)
      = some (.goesOn ⟨s.cursor + (body.length + 1), s.output ++ q :: body⟩) := by
  have whole : slice? (q :: body) 1 (q :: body).length = some body :=
    slice?_from (Nat.succ_pos _)
  have kept : slice? (q :: body) 0 (q :: body).length = some (q :: body) := by
    rw [slice?_upTo (Nat.le_refl _), List.take_length]
  rw [copyQuoted?, whole, Option.bind_some, findIdx?_of_not_mem h]
  dsimp only
  rw [kept]
  rfl

theorem skipBlock?_eq (s : Scan) (inner : Bytes) :
    s.skipBlock? (blockCommentOpen ++ inner) =
      some (match position? blockCommentClose inner with
        | some close => .goesOn
            ⟨s.cursor + (blockCommentOpen.length + close + blockCommentClose.length), s.output⟩
        | none => .breaksOff) := by
  have behind : slice? (blockCommentOpen ++ inner) blockCommentOpen.length
      (blockCommentOpen ++ inner).length = some inner := by
    rw [slice?_from (by simp), List.drop_left]
  rw [skipBlock?, behind]
  rfl

/-- A span that fits what follows it is passed over, and no byte is asked for that is not
there. -/
theorem lookAt?_of_fits (s : Scan) {part : Span} {rest : Bytes} (fits : part.Fits rest) :
    s.lookAt? (part.text ++ rest) = some (s.past part) := by
  cases part with
  | quoted q body =>
    have quote : isQuote q.byte = true := by cases q <;> rfl
    have looked : s.lookAt? ((Span.quoted q body).text ++ rest)
        = s.copyQuoted? q.byte (q.byte :: body ++ [q.byte] ++ rest) := if_pos quote
    rw [looked, copyQuoted?_of_closed s fits]
    simp [past, Span.text]
  | unclosedQuoted q body =>
    obtain ⟨noQuote, rfl⟩ := fits
    have quote : isQuote q.byte = true := by cases q <;> rfl
    have looked : s.lookAt? ((Span.unclosedQuoted q body).text ++ [])
        = s.copyQuoted? q.byte (q.byte :: body ++ []) := if_pos quote
    rw [looked, List.append_nil, copyQuoted?_of_open s noQuote]
    rfl
  | lineComment body => rfl
  | blockComment body =>
    have looked : s.lookAt? ((Span.blockComment body).text ++ rest)
        = s.skipBlock? (blockCommentOpen ++ (body ++ blockCommentClose ++ rest)) := by
      rw [Span.text, List.append_assoc, List.append_assoc, List.append_assoc]
      rfl
    rw [looked, skipBlock?_eq, position?_close fits]
    simp [past, Span.text, Nat.add_assoc]
  | unclosedBlockComment body =>
    obtain ⟨unclosed, rfl⟩ := fits
    have looked : s.lookAt? ((Span.unclosedBlockComment body).text ++ [])
        = s.skipBlock? (blockCommentOpen ++ body) := by
      rw [List.append_nil]
      rfl
    rw [looked, skipBlock?_eq, position?_of_absent unclosed]
    rfl
  | plain b =>
    obtain ⟨noLine, noBlock⟩ := Span.Fits.no_marker fits
    rw [← List.isPrefixOf_iff_prefix] at noLine noBlock
    show (if isQuote b = true then _ else if lineCommentOpen.isPrefixOf (b :: rest) = true then _
      else if blockCommentOpen.isPrefixOf (b :: rest) = true then _ else _) = _
    rw [if_neg (by rw [fits.1]; decide), if_neg noLine, if_neg noBlock]
    rfl

/-- A turn passes over the span that starts at the cursor. -/
theorem turn?_of_fits {line : Bytes} {s : Scan} {part : Span} {rest : Bytes}
    (fits : part.Fits rest) (h : line.drop s.cursor = part.text ++ rest) :
    s.cursor < line.length ∧ s.turn? line = some (s.past part) := by
  have inside : s.cursor < line.length := by
    apply Nat.lt_of_not_le
    intro beyond
    rw [List.drop_of_length_le beyond] at h
    exact part.text_ne_nil (List.append_eq_nil_iff.mp h.symm).1
  refine ⟨inside, ?_⟩
  rw [turn?, slice?_from (Nat.le_of_lt inside), Option.bind_some, h, lookAt?_of_fits s fits]

/-- Before the end of the line there always is such a span. -/
theorem exists_span {line : Bytes} {cursor : Nat} (h : cursor < line.length) :
    ∃ (part : Span) (rest : Bytes), part.Fits rest ∧ line.drop cursor = part.text ++ rest := by
  obtain ⟨b, behind, hbehind⟩ : ∃ b behind, line.drop cursor = b :: behind :=
    List.exists_cons_of_ne_nil (List.drop_eq_nil_iff.not.mpr (Nat.not_le.mpr h))
  refine ⟨_, _, Span.leading_fits b behind, ?_⟩
  rw [hbehind, Span.leading_text]

/-! ## The bounds -/

/-- What holds of a scan of the line at any time. -/
structure Bounds (line : Bytes) (s : Scan) : Prop where
  onLine : s.cursor ≤ line.length
  noLonger : s.output.length ≤ s.cursor
  inOrder : s.output.Sublist (line.take s.cursor)

/-- A turn that goes on moves the cursor by the length of its span, and keeps all of it or
nothing. -/
theorem past_eq_goesOn {s next : Scan} {part : Span} (h : s.past part = .goesOn next) :
    next.cursor = s.cursor + part.text.length
      ∧ next.output = s.output ++ if part.isComment then [] else part.text := by
  cases part with
  | quoted | unclosedQuoted | plain =>
    cases h
    exact ⟨rfl, rfl⟩
  | blockComment =>
    cases h
    exact ⟨rfl, (List.append_nil _).symm⟩
  | lineComment | unclosedBlockComment => cases h

/-- A turn that goes on moves the cursor, not past the end of the line, and keeps the bounds. -/
theorem Bounds.turn {line : Bytes} {s next : Scan} (bounds : Bounds line s)
    (hcursor : s.cursor < line.length) (hturn : s.turn? line = some (.goesOn next)) :
    s.cursor < next.cursor ∧ Bounds line next := by
  obtain ⟨part, rest, fits, htext⟩ := exists_span hcursor
  rw [(turn?_of_fits fits htext).2, Option.some.injEq] at hturn
  obtain ⟨moved, kept⟩ := past_eq_goesOn hturn
  have positive : 0 < part.text.length := List.length_pos_iff.mpr part.text_ne_nil
  have passed : line.take next.cursor = line.take s.cursor ++ part.text := by
    rw [moved, List.take_add, htext, List.take_left]
  have order : next.output.Sublist (line.take next.cursor) := by
    rw [passed, kept]
    apply bounds.inOrder.append
    split
    · exact List.nil_sublist _
    · exact List.Sublist.refl _
  have onLine : next.cursor ≤ line.length := by
    have length := congrArg List.length htext
    rw [List.length_drop, List.length_append] at length
    omega
  refine ⟨by omega, onLine, ?_, order⟩
  have length := order.length_le
  rwa [List.length_take, Nat.min_eq_left onLine] at length

/-- The bounds hold at every turn, and there have been no more turns than bytes passed. -/
theorem Reached.bounds {line : Bytes} {turns : Nat} {s : Scan} (h : Reached line turns s) :
    turns ≤ s.cursor ∧ Bounds line s := by
  induction h with
  | start => exact ⟨Nat.le_refl _, Nat.zero_le _, Nat.le_refl _, List.nil_sublist _⟩
  | turn _ hcursor hturn ih =>
    obtain ⟨moved, bounds⟩ := ih.2.turn hcursor hturn
    exact ⟨Nat.lt_of_le_of_lt ih.1 moved, bounds⟩

/-! ## The end of the loop -/

/-- The loop breaks off in front of a comment that is the rest of the line. -/
theorem past_eq_breaksOff {s : Scan} {part : Span} {rest : Bytes} (h : s.past part = .breaksOff)
    (fits : part.Fits rest) : part.isComment = true ∧ rest = [] := by
  cases part with
  | quoted | unclosedQuoted | blockComment | plain => cases h
  | lineComment => exact ⟨rfl, fits⟩
  | unclosedBlockComment => exact ⟨rfl, fits.2⟩

/-- The loop goes through the spans that are left, and takes a turn for each at most. -/
theorem loop?_of_reading {line rest : Bytes} {parts : List Span} (h : Reading rest parts)
    {turns : Nat} (hturns : rest.length ≤ turns) {s : Scan} (hrest : line.drop s.cursor = rest) :
    loop? line turns s = some (s.output ++ keptText parts) := by
  induction h generalizing turns s with
  | nil =>
    have ended : ¬ s.cursor < line.length := Nat.not_lt.mpr (List.drop_eq_nil_iff.mp hrest)
    have ends : loop? line turns s = some s.output := by
      cases turns <;> rw [loop?, if_neg ended]
    rw [ends]
    exact congrArg some (List.append_nil _).symm
  | @cons part rest parts fits reading ih =>
    obtain ⟨inside, hturn⟩ := turn?_of_fits fits hrest
    have positive : 0 < part.text.length := List.length_pos_iff.mpr part.text_ne_nil
    rw [List.length_append] at hturns
    obtain ⟨turns, rfl⟩ := Nat.exists_eq_succ_of_ne_zero (show turns ≠ 0 by omega)
    rw [loop?, if_pos inside, hturn]
    cases hpast : s.past part with
    | goesOn next =>
      obtain ⟨moved, kept⟩ := past_eq_goesOn hpast
      have left : line.drop next.cursor = rest := by
        rw [moved, ← List.drop_drop, hrest, List.drop_left]
      dsimp only
      rw [ih (by omega) left, kept, keptText_cons, List.append_assoc]
    | breaksOff =>
      obtain ⟨comment, rfl⟩ := past_eq_breaksOff hpast fits
      rw [keptText_cons, if_pos comment, reading.eq_spans, spans_nil]
      exact congrArg some (List.append_nil _).symm

/-- **The cursor stays on the line, and the loop ends.** However many turns have been taken, the
cursor has moved by one byte at least in each and not past the end of the line, and what has
been kept are bytes from before the cursor, in order, and no more than those. Before the end of
the line a turn asks for no bytes that are not there. So as many turns as the line has bytes are
enough, and the output of the loop is the stripped line, which is no longer than the line. -/
theorem cursor_stays_on_line (line : Bytes) :
    (∀ turns s, Reached line turns s →
      turns ≤ s.cursor ∧ s.cursor ≤ line.length
      ∧ s.output.length ≤ s.cursor ∧ s.output.Sublist (line.take s.cursor)
      ∧ (s.cursor < line.length → ∃ turn, s.turn? line = some turn ∧
          ∀ next, turn = .goesOn next →
            s.cursor < next.cursor ∧ next.cursor ≤ line.length))
    ∧ loop? line line.length {} = some (strip line)
    ∧ (strip line).length ≤ line.length := by
  refine ⟨?turns, ?output, (strip_sublist line).length_le⟩
  case turns =>
    intro turns s reached
    obtain ⟨moved, bounds⟩ := reached.bounds
    refine ⟨moved, bounds.onLine, bounds.noLonger, bounds.inOrder, ?_⟩
    intro hcursor
    obtain ⟨part, rest, fits, htext⟩ := exists_span hcursor
    have hturn := (turn?_of_fits fits htext).2
    refine ⟨_, hturn, ?_⟩
    intro next hnext
    obtain ⟨further, within⟩ := bounds.turn hcursor (hturn.trans (congrArg some hnext))
    exact ⟨further, within.onLine⟩
  case output =>
    exact loop?_of_reading (reading_spans line) (Nat.le_refl _) (s := {}) rfl

-- the slash of the opening does not close the comment
example : loop? (utf8 "a/*/") 2 {} = some (utf8 "a") := by decide +kernel

end Scan

end DataInlay
