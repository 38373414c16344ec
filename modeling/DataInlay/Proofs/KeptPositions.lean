/-
# DataInlay.Proofs.KeptPositions — compaction seen by position and by segment

Two descriptions of compaction do without a state that runs along the line. By position:
a byte stays where it is when it is not blank, or when an odd number of double quotes
precedes it. By segment: the quotes cut a line into pieces that stand outside and inside of
quotes by turns, the first one outside, and only the pieces outside lose their blanks.

Both are the compaction of the line (`compact_eq_positions`, `compact_eq_segments`), and what
a line keeps, loses and hands on to what is put behind it follows (`compact_by_position`).
-/
import DataInlay.Proofs.QuoteParity
import Mathlib.Data.List.FinRange

namespace DataInlay

/-! ## By position -/

/-- The byte at a position is not blank, or an odd number of quotes precedes it. -/
def KeepsAt (line : Bytes) (i : Fin line.length) : Prop :=
  isBlank (line.get i) = false ∨ Odd ((line.take i).count compactQuote)

instance (line : Bytes) (i : Fin line.length) : Decidable (KeepsAt line i) :=
  inferInstanceAs (Decidable (_ ∨ _))

/-- The bytes at the positions that compaction keeps, in their order. -/
def keptPositions (line : Bytes) : Bytes :=
  ((List.finRange line.length).filter (KeepsAt line ·)).map line.get

theorem compactFrom_eq_positions (inside : Bool) (line : Bytes) :
    compactFrom inside [] line = ((List.finRange line.length).filter fun i : Fin line.length =>
      !isBlank (line.get i) || (inside ^^ oddQuotes (line.take i))).map line.get := by
  induction line generalizing inside with
  | nil => rfl
  | cons b rest ih =>
    have later : (fun i : Fin (b :: rest).length =>
          !isBlank ((b :: rest).get i) || (inside ^^ oddQuotes ((b :: rest).take i))) ∘ Fin.succ
        = fun i : Fin rest.length => !isBlank (rest.get i)
          || ((inside ^^ (b == compactQuote)) ^^ oddQuotes (rest.take i)) := by
      funext i
      show (!isBlank (rest.get i) || (inside ^^ oddQuotes (b :: rest.take i))) = _
      rw [oddQuotes_cons, Bool.xor_assoc]
    have first : (!isBlank b || (inside ^^ oddQuotes [])) = !(isBlank b && !inside) := by
      rw [oddQuotes_nil, Bool.xor_false, Bool.not_and, Bool.not_not]
    have positions : List.finRange (b :: rest).length
        = 0 :: (List.finRange rest.length).map Fin.succ := List.finRange_succ
    rw [compactFrom_cons, ih, positions, List.filter_cons, List.filter_map, later]
    show (if _ then [] else [b]) ++ _
      = List.map _ (if (!isBlank b || (inside ^^ oddQuotes [])) = true then _ else _)
    rw [first]
    cases isBlank b && !inside with
    | true =>
      rw [if_pos rfl, if_neg (by decide), List.nil_append, List.map_map]
      rfl
    | false =>
      rw [if_neg (by decide), if_pos (by decide), List.map_cons, List.map_map]
      rfl

/-- Compaction keeps the bytes at those positions. -/
theorem compact_eq_positions (line : Bytes) : compact line = keptPositions line := by
  rw [compact, compactFrom_eq_positions, keptPositions]
  congr 2
  funext i
  rw [Bool.false_xor, Bool.eq_iff_iff, decide_eq_true_iff, KeepsAt, ← oddQuotes_eq_true_iff]
  cases isBlank (line.get i) <;> simp

/-! ## By segment -/

/-- What compaction keeps of a segment without quotes, when so many quotes precede it. -/
def keptOfSegment (quotes : Nat) (segment : Bytes) : Bytes :=
  if quotes % 2 = 0 then segment.filter (!isBlank ·) else segment

/-- The segments that the quotes of a line cut it into, each without what it loses, and with
the quotes between them again. -/
def compactSegments (line : Bytes) : Bytes :=
  [compactQuote].intercalate ((line.splitOn compactQuote).mapIdx keptOfSegment)

theorem compactFrom_segment (quotes : Nat) {segment : Bytes} (h : compactQuote ∉ segment) :
    compactFrom (quotes % 2 == 1) [] segment = keptOfSegment quotes segment := by
  rw [keptOfSegment]
  rcases Nat.mod_two_eq_zero_or_one quotes with heven | hodd
  · rw [heven, if_pos rfl]
    exact compactFrom_outside h
  · rw [hodd, if_neg (by decide)]
    exact compactFrom_inside h

theorem compactFrom_eq_segments (quotes : Nat) (line : Bytes) :
    compactFrom (quotes % 2 == 1) [] line = [compactQuote].intercalate
      ((line.splitOn compactQuote).mapIdx fun i => keptOfSegment (quotes + i)) := by
  -- the first quote, if there is one, cuts off the first segment and changes the parity
  induction hlength : line.length using Nat.strongRecOn generalizing line quotes with
  | _ n ih =>
    by_cases hquote : compactQuote ∈ line
    · obtain ⟨segment, rest, rfl, hfirst⟩ := List.eq_append_cons_of_mem hquote
      have shorter : rest.length < n := by
        rw [← hlength, List.length_append, List.length_cons]
        omega
      have flipped : (!(quotes % 2 == 1)) = ((quotes + 1) % 2 == 1) := by
        rcases Nat.mod_two_eq_zero_or_one quotes with h | h <;> simp [Nat.add_mod, h]
      have segments : ∀ i, keptOfSegment (quotes + (i + 1)) = keptOfSegment (quotes + 1 + i) :=
        fun i => by rw [Nat.add_assoc, Nat.add_comm i 1]
      have others : (rest.splitOn compactQuote).mapIdx (fun i => keptOfSegment (quotes + 1 + i))
          ≠ [] := by
        rw [Ne, List.mapIdx_eq_nil_iff]
        exact List.splitOn_ne_nil _ _
      rw [compactFrom_append, oddQuotes_of_not_mem hfirst, Bool.xor_false, compactFrom_quote,
        compactFrom_segment quotes hfirst, flipped, ih _ shorter _ _ rfl,
        List.splitOn_append_cons_self_of_not_mem hfirst, List.mapIdx_cons]
      simp only [segments]
      rw [List.intercalate_cons_of_ne_nil others, List.append_assoc]
      rfl
    · rw [compactFrom_segment quotes hquote, List.splitOn_eq_singleton hquote]
      exact (List.intercalate_singleton).symm

/-- Compaction drops the blanks of every other segment. -/
theorem compact_eq_segments (line : Bytes) : compact line = compactSegments line := by
  rw [compact, compactSegments]
  have segments := compactFrom_eq_segments 0 line
  simp only [Nat.zero_add] at segments
  exact segments

/-! ## What is kept, and what is not -/

/-- Nothing but blanks is lost. -/
theorem filter_compactFrom (inside : Bool) (line : Bytes) :
    (compactFrom inside [] line).filter (!isBlank ·) = line.filter (!isBlank ·) := by
  induction line generalizing inside with
  | nil => rfl
  | cons b rest ih =>
    have whole : b :: rest = [b] ++ rest := rfl
    rw [compactFrom_cons, List.filter_append, ih, whole, List.filter_append]
    congr 1
    split
    · next hdropped =>
      rw [Bool.and_eq_true] at hdropped
      simp [hdropped.1]
    · rfl

theorem filter_compact (line : Bytes) :
    (compact line).filter (!isBlank ·) = line.filter (!isBlank ·) :=
  filter_compactFrom false line

theorem count_quote_compact (line : Bytes) :
    (compact line).count compactQuote = line.count compactQuote := by
  have kept : (!isBlank compactQuote) = true := by rw [isBlank_compactQuote]; rfl
  have count := fun s : Bytes => List.count_filter (p := (!isBlank ·)) (l := s) kept
  rw [← count (compact line), filter_compact, count]

/-- Compaction goes on behind an odd number of quotes as it does behind a single one. -/
theorem compact_append_of_odd {a : Bytes} (h : oddQuotes a = true) (b : Bytes) :
    ∃ rest, compact (compactQuote :: b) = compactQuote :: rest
      ∧ compact (a ++ b) = compact a ++ rest := by
  refine ⟨compactFrom true [] b, ?_, ?_⟩
  · rw [compact, compactFrom_quote]
    rfl
  · rw [compact_append, h]

/-- **Compaction by position.** A byte is kept exactly when it is not blank or an odd number
of double quotes precedes it, and what is kept stays in order; so only blanks are lost, and of
the segments between the quotes every other one loses all it has. What is left has no blank
behind an even number of quotes, and nothing to lose. A line may be compacted in two parts:
the second as if it were a line when the first has an even number of quotes, and otherwise as
if it stood behind a single quote. -/
theorem compact_by_position (line : Bytes) :
    compact line = ((List.finRange line.length).filter fun i : Fin line.length =>
        isBlank (line.get i) = false ∨ Odd ((line.take i).count Ascii.doubleQuote)).map line.get
    ∧ compact line = compactSegments line
    ∧ (compact line).filter (!isBlank ·) = line.filter (!isBlank ·)
    ∧ (compact line).count Ascii.doubleQuote = line.count Ascii.doubleQuote
    ∧ (∀ before b after, compact line = before ++ b :: after → isBlank b = true →
        Odd (before.count Ascii.doubleQuote))
    ∧ compact (compact line) = compact line
    ∧ ∀ more : Bytes,
        if Even (line.count Ascii.doubleQuote) then
          compact (line ++ more) = compact line ++ compact more
        else ∃ rest, compact (Ascii.doubleQuote :: more) = Ascii.doubleQuote :: rest
          ∧ compact (line ++ more) = compact line ++ rest := by
  have twice : compact (compact line) = compact line := compactFrom_compactFrom false line
  refine ⟨compact_eq_positions line, compact_eq_segments line, filter_compact line,
    count_quote_compact line, ?blanks, twice, ?parts⟩
  case blanks =>
    intro before b after hsplit hblank
    have odd := compactFrom_eq_self_iff.mp twice before b after hsplit hblank
    rw [Bool.false_xor] at odd
    exact oddQuotes_eq_true_iff.mp odd
  case parts =>
    intro more
    split
    · next heven =>
      rw [compact_append, oddQuotes_eq_false_iff.mpr heven]
      rfl
    · next hodd =>
      exact compact_append_of_odd (oddQuotes_eq_true_iff.mpr (Nat.not_even_iff_odd.mp hodd)) more

/-- The blanks of a string stay, those around it go, and a quote without a second keeps what
follows it. -/
example : compact (utf8 "\" a\" b ' ' \" c ") = utf8 "\" a\"b''\" c " := by decide +kernel

end DataInlay
