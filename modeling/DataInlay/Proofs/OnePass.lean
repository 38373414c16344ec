/-
# DataInlay.Proofs.OnePass — cleaning a whole input in one pass

Cleaning is defined by cutting: the input into lines, a line into spans, and what is
left of it at its double quotes. This file gives the machine that does all of it one
byte at a time, over the whole input, with nothing in its state but a mode and a
parity. A slash outside quotes and comments is held back for one byte; a line feed is
handled like any other byte, and then the machine starts afresh.

The machine is two stages in a row. The comment stage alone (`scan`) agrees with
stripping because it does so on each span that fits its line (`scan_span`), and the
parity stage (`release`) is compaction that can stop and go on. Between two line feeds
the stages compose to the machine (`run_line`), and along the lines of an input the
machine gives the input's data (`output_eq_dataOf`).
-/
import DataInlay.Proofs.QuoteParity
import DataInlay.Proofs.SpanGrammar
import DataInlay.Proofs.StreamFaults

namespace DataInlay.OnePass

/-! ## The machine -/

/-- What the comment stage is in the middle of. -/
inductive Mode
  | plain
  /-- Behind a slash that has been held back. -/
  | slashPending
  | inQuote (quote : Quote)
  | lineComment
  | blockComment
  /-- In a block comment, behind a star that may be half of its close. -/
  | blockCommentAfterStar
  deriving DecidableEq, Repr

/-- All that the machine remembers. -/
structure State where
  mode : Mode := .plain
  /-- The number of double quotes put out since the last line feed is odd. -/
  odd : Bool := false
  deriving DecidableEq, Repr

/-- A byte outside quotes and comments: what the comment stage lets out, and its mode
afterwards. -/
def enter (b : UInt8) : Bytes × Mode :=
  if b = Ascii.slash then ([], .slashPending)
  else match Quote.ofByte? b with
    | some q => ([b], .inQuote q)
    | none => ([b], .plain)

/-- One byte through the comment stage. -/
def Mode.step : Mode → UInt8 → Bytes × Mode
  | plain, b => enter b
  | slashPending, b =>
    if b = Ascii.slash then ([], lineComment)
    else if b = Ascii.star then ([], blockComment)
    else (Ascii.slash :: (enter b).1, (enter b).2)
  | inQuote q, b => ([b], if b = q.byte then plain else inQuote q)
  | lineComment, _ => ([], lineComment)
  | blockComment, b => ([], if b = Ascii.star then blockCommentAfterStar else blockComment)
  | blockCommentAfterStar, b =>
    ([], if b = Ascii.slash then plain
      else if b = Ascii.star then blockCommentAfterStar else blockComment)

/-- What the comment stage still holds back. -/
def Mode.held : Mode → Bytes
  | slashPending => [Ascii.slash]
  | plain | inQuote _ | lineComment | blockComment | blockCommentAfterStar => []

/-- Bytes that leave the comment stage, through the parity stage: what is put out, and the
parity afterwards. -/
def release (odd : Bool) : Bytes → Bytes × Bool
  | [] => ([], odd)
  | b :: rest =>
    if b = compactQuote then (b :: (release (!odd) rest).1, (release (!odd) rest).2)
    else if isBlank b && !odd then release odd rest
    else (b :: (release odd rest).1, (release odd rest).2)

/-- One byte through the machine. Behind a line feed it starts afresh. -/
def State.step (s : State) (b : UInt8) : Bytes × State :=
  ((release s.odd (s.mode.step b).1).1,
    if b = Ascii.lineFeed then {}
    else ⟨(s.mode.step b).2, (release s.odd (s.mode.step b).1).2⟩)

/-- What the machine puts out from a state to the end of the input. -/
def run (s : State) : Bytes → Bytes
  | [] => (release s.odd s.mode.held).1
  | b :: rest => (s.step b).1 ++ run (s.step b).2 rest

/-- What the machine puts out for an input. -/
def output (input : Bytes) : Bytes := run {} input

/-! ## The comment stage strips comments -/

/-- What the comment stage lets out from a mode to the end of the line. -/
def scan (m : Mode) : Bytes → Bytes
  | [] => m.held
  | b :: rest => (m.step b).1 ++ scan (m.step b).2 rest

theorem enter_quote (q : Quote) : enter q.byte = ([q.byte], .inQuote q) := by
  cases q <;> rfl

theorem enter_plain {b : UInt8} (hquote : isQuote b = false) (hslash : b ≠ Ascii.slash) :
    enter b = ([b], .plain) := by
  have none : Quote.ofByte? b = none := by simpa [isQuote] using hquote
  rw [enter, if_neg hslash, none]

theorem scan_inQuote {q : Quote} {body : Bytes} (h : q.byte ∉ body) (rest : Bytes) :
    scan (.inQuote q) (body ++ rest) = body ++ scan (.inQuote q) rest := by
  induction body with
  | nil => rfl
  | cons b body ih =>
    rw [List.mem_cons, not_or] at h
    rw [List.cons_append, scan, Mode.step, if_neg (Ne.symm h.1), ih h.2]
    rfl

theorem scan_lineComment (body : Bytes) : scan .lineComment body = [] := by
  induction body with
  | nil => rfl
  | cons b body ih => exact ih

/-- Only a slash tells the two block comment modes apart. -/
theorem scan_afterStar {s : Bytes} (h : s.head? ≠ some Ascii.slash) :
    scan .blockCommentAfterStar s = scan .blockComment s := by
  cases s with
  | nil => rfl
  | cons b s =>
    have hb : b ≠ Ascii.slash := by simpa using h
    rw [scan, scan, Mode.step, Mode.step, if_neg hb]

/-- A byte of a block comment that opens no close is dropped. -/
theorem scan_blockComment_cons {b : UInt8} {s : Bytes}
    (h : ¬ (b = Ascii.star ∧ s.head? = some Ascii.slash)) :
    scan .blockComment (b :: s) = scan .blockComment s := by
  rw [scan, Mode.step, List.nil_append]
  by_cases hb : b = Ascii.star
  · rw [if_pos hb, scan_afterStar fun hs => h ⟨hb, hs⟩]
  · rw [if_neg hb]

theorem scan_blockComment {body : Bytes} (h : ClosesFirstBehind body) (rest : Bytes) :
    scan .blockComment (body ++ blockCommentClose ++ rest) = scan .plain rest := by
  rw [closesFirstBehind_iff] at h
  induction body with
  | nil => rfl
  | cons b body ih =>
    rw [List.cons_append, close_infix_cons, not_or] at h
    rw [List.cons_append, List.cons_append, scan_blockComment_cons, ih h.2]
    -- a star followed by a slash here would be a close before the one at the end
    intro opens
    rcases opens with ⟨hb, hhead⟩
    refine h.1 ⟨hb, ?_⟩
    cases body <;> simpa [blockCommentClose] using hhead

theorem scan_unclosedBlockComment {body : Bytes} (h : ¬ blockCommentClose <:+: body) :
    scan .blockComment body = [] := by
  induction body with
  | nil => rfl
  | cons b body ih =>
    rw [close_infix_cons, not_or] at h
    rw [scan_blockComment_cons h.1, ih h.2]

/-- Behind a slash that opens no comment, the comment stage is where it was before it. -/
theorem scan_slash {rest : Bytes}
    (h : ¬ (rest.head? = some Ascii.slash ∨ rest.head? = some Ascii.star)) :
    scan .plain (Ascii.slash :: rest) = Ascii.slash :: scan .plain rest := by
  cases rest with
  | nil => rfl
  | cons c rest =>
    obtain ⟨hslash, hstar⟩ : c ≠ Ascii.slash ∧ c ≠ Ascii.star := by simpa using h
    -- the slash is let out only now, together with what the next byte lets out
    show scan .slashPending (c :: rest) = Ascii.slash :: scan .plain (c :: rest)
    rw [scan, scan, Mode.step, Mode.step, if_neg hslash, if_neg hstar]
    rfl

/-- The comment stage drops a span that is a comment, lets out any other, and is in plain
mode behind it. -/
theorem scan_span {part : Span} {rest : Bytes} (h : part.Fits rest) :
    scan .plain (part.text ++ rest) =
      (if part.isComment then [] else part.text) ++ scan .plain rest := by
  cases part with
  | quoted q body =>
    have closes : scan (.inQuote q) (q.byte :: rest) = q.byte :: scan .plain rest := by
      rw [scan, Mode.step, if_pos rfl]
      rfl
    show scan .plain (q.byte :: body ++ [q.byte] ++ rest) = q.byte :: body ++ [q.byte] ++ _
    rw [List.append_assoc, List.singleton_append, List.cons_append, scan, Mode.step, enter_quote,
      scan_inQuote h, closes]
    simp
  | unclosedQuoted q body =>
    rcases h with ⟨noQuote, rfl⟩
    show scan .plain (q.byte :: body ++ []) = q.byte :: body ++ []
    rw [List.cons_append, scan, Mode.step, enter_quote, scan_inQuote noQuote]
    rfl
  | lineComment body =>
    obtain rfl : rest = [] := h
    show scan .lineComment (body ++ []) = []
    exact scan_lineComment _
  | blockComment body =>
    show scan .blockComment (body ++ blockCommentClose ++ rest) = scan .plain rest
    exact scan_blockComment h rest
  | unclosedBlockComment body =>
    rcases h with ⟨unclosed, rfl⟩
    show scan .blockComment (body ++ []) = []
    rw [List.append_nil, scan_unclosedBlockComment unclosed]
  | plain b =>
    rcases h with ⟨noQuote, noComment⟩
    show scan .plain (b :: rest) = b :: scan .plain rest
    by_cases hslash : b = Ascii.slash
    · subst hslash
      apply scan_slash
      intro opens
      exact noComment ⟨rfl, opens⟩
    · rw [scan, Mode.step, enter_plain noQuote hslash]
      rfl

/-- The comment stage lets out the line without its comments. -/
theorem scan_plain (line : Bytes) : scan .plain line = strip line := by
  -- along any reading of the line, of which there is one
  have general : ∀ parts, Reading line parts → scan .plain line = keptText parts := by
    intro parts reading
    induction reading with
    | nil => rfl
    | cons fits _ ih => rw [scan_span fits, ih, keptText_cons]
  exact general (spans line) (reading_spans line)

/-! ## The parity stage compacts -/

/-- What the parity stage lets out is what compaction keeps, and it is left with the parity of
all the quotes passed. -/
theorem release_eq (odd : Bool) (a : Bytes) :
    release odd a = (compactFrom odd [] a, odd ^^ oddQuotes a) := by
  induction a generalizing odd with
  | nil =>
    rw [oddQuotes_nil, Bool.xor_false]
    rfl
  | cons b a ih =>
    rw [release, oddQuotes_cons, ← Bool.xor_assoc]
    by_cases hquote : b = compactQuote
    · subst hquote
      rw [if_pos rfl, ih, compactFrom_quote, beq_self_eq_true, Bool.xor_true]
    · rw [if_neg hquote, ih, compactFrom_cons, beq_false_of_ne hquote, Bool.xor_false]
      split <;> rfl

/-! ## The machine on one line and on all of them -/

/-- On a line that the input ends, the machine is one stage after the other. -/
theorem run_open (m : Mode) (odd : Bool) {s : Bytes} (h : Ascii.lineFeed ∉ s) :
    run ⟨m, odd⟩ s = compactFrom odd [] (scan m s) := by
  induction s generalizing m odd with
  | nil => rw [run, release_eq, scan]
  | cons b s ih =>
    -- the state is not reset, so both stages go on from the byte's modes
    rw [List.mem_cons, not_or] at h
    rw [run, State.step, if_neg (Ne.symm h.1), ih _ _ h.2, release_eq, scan, compactFrom_append]

/-- No mode holds anything back behind a line feed. -/
theorem held_lineFeed (m : Mode) : (m.step Ascii.lineFeed).2.held = [] := by
  cases m with
  | inQuote q => cases q <;> rfl
  | _ => rfl

/-- On a line that a line feed ends, it is so as well, and then the machine starts afresh. -/
theorem run_line (m : Mode) (odd : Bool) {s : Bytes} (h : Ascii.lineFeed ∉ s) (rest : Bytes) :
    run ⟨m, odd⟩ (s ++ Ascii.lineFeed :: rest) =
      compactFrom odd [] (scan m (s ++ [Ascii.lineFeed])) ++ run {} rest := by
  induction s generalizing m odd with
  | nil =>
    -- the line feed itself: the line is over, and nothing of it is held back
    rw [List.nil_append, List.nil_append, run, State.step, if_pos rfl, release_eq, scan, scan,
      held_lineFeed, List.append_nil]
  | cons b s ih =>
    rw [List.mem_cons, not_or] at h
    rw [List.cons_append, List.cons_append, run, State.step, if_neg (Ne.symm h.1), ih _ _ h.2,
      release_eq, scan, compactFrom_append, List.append_assoc]

/-- The machine puts out the data of the input. -/
theorem output_eq_dataOf (input : Bytes) : output input = dataOf input := by
  have cleans : ∀ s, compactFrom false [] (scan .plain s) = cleanLine s := by
    intro s
    rw [scan_plain, cleanLine, compact]
  induction input using lines_induction with
  | unended s h => rw [output, run_open _ _ h, cleans, dataOf_open h]
  | line s rest h ih => rw [output, run_line _ _ h, cleans, ← output, ih, dataOf_append_lineFeed h]

/-- The star that opens a comment is no half of its close, and no comment starts in quotes. -/
example : output (utf8 "1 /*/ 2 */ '//' 3\n/") = utf8 "1'//'3/" := by decide +kernel

/-- **One pass is enough.** A conversion of any input succeeds, and what it writes between
the header and the closing are the literals of what the machine puts out for the whole
input, and then the literal of the trailing byte. -/
theorem transform_one_pass (input : Bytes) (options : Options) :
    let report := transform (.ofBytes input) ({} : BoundedSink) options
    report.result = .ok (Summary.ofLines (lines input))
      ∧ report.sink.content.toList =
        header options.symbol ++ layout options.width 0 (output input ++ [trailingByte])
          ++ closing := by
  intro report
  rw [output_eq_dataOf, show report = _ from transform_unlimited input options]
  exact ⟨rfl, rfl⟩

end DataInlay.OnePass
