/-
# DataInlay.Proofs.WrappedRows — what a wrap width does to a declaration

A wrap width chooses between two separators that differ in their second byte, and so moves no
literal: with every wrapped separator put back to an ordinary one, the wrapped declaration is
the one without a width (`unwrapped_layout`).

Where the line breaks are follows from the rows of the array. It is cut into full rows and a
last one that is never empty (`exists_rows`); the layout is the texts of these rows, with a
break between any two (`layout_rows`). As no row's text holds a line feed, the text lines of
the body are exactly the rows.
-/
import DataInlay.Proofs.Decoding
import Mathlib.Data.List.Basic

namespace DataInlay

/-! ## Putting the separators back -/

/-- The comma, the first byte of both separators. -/
def comma : UInt8 := 0x2c

/-- The bytes with a space in place of each line feed that follows a comma. -/
def unwrapped : Bytes → Bytes
  | 0x2c :: 0x0a :: rest => 0x2c :: 0x20 :: unwrapped rest
  | b :: rest => b :: unwrapped rest
  | [] => []

theorem unwrapped_append {s : Bytes} (h : comma ∉ s) (rest : Bytes) :
    unwrapped (s ++ rest) = s ++ unwrapped rest := by
  induction s with
  | nil => rfl
  | cons b s ih =>
    rw [List.mem_cons, not_or] at h
    have plain : unwrapped (b :: (s ++ rest)) = b :: unwrapped (s ++ rest) := by
      rw [unwrapped]
      intro _ hb
      exact absurd hb.symm h.1
    rw [List.cons_append, plain, ih h.2]
    rfl

theorem unwrapped_separator (width : Option Width) (written : Nat) (rest : Bytes) :
    unwrapped (separator width written ++ rest) = separator none written ++ unwrapped rest := by
  have row : unwrapped (rowSeparator ++ rest) = rowSeparator ++ unwrapped rest := rfl
  have wrap : unwrapped (wrapSeparator ++ rest) = rowSeparator ++ unwrapped rest := rfl
  rcases separator_cases width written with ⟨rfl, hnone⟩ | ⟨hlater, hsome⟩
  · rw [hnone]
    rfl
  · have unbroken : separator none written = rowSeparator := if_neg hlater
    rw [unbroken]
    rcases hsome with hrow | hwrap
    · rwa [hrow]
    · rwa [hwrap]

/-- A wrapped layout and one without a width differ in nothing else. -/
theorem unwrapped_layout (width : Option Width) (written : Nat) (data rest : Bytes) :
    unwrapped (layout width written data ++ rest)
      = layout none written data ++ unwrapped rest := by
  induction data generalizing written with
  | nil => rfl
  | cons b data ih =>
    rw [layout_cons, layout_cons, List.append_assoc, List.append_assoc, unwrapped_separator,
      unwrapped_append (comma_not_mem_literal b), ih, List.append_assoc, List.append_assoc]

/-! ## The separator behind each literal -/

/-- The literals of an array, with `behind k` behind literal number `k` unless it is the
last; they are counted from one. -/
def literalsWith (behind : Nat → Bytes) (array : Bytes) : Bytes :=
  (array.zipIdx 1).flatMap fun entry =>
    literal entry.1 ++ if entry.2 = array.length then [] else behind entry.2

/-- The separator in front of a literal is the one behind the literal before it. -/
theorem layout_eq_behind (width : Option Width) (written : Nat) (b : UInt8) (data : Bytes) :
    layout width written (b :: data) = separator width written
      ++ ((b :: data).zipIdx (written + 1)).flatMap fun entry => literal entry.1
        ++ if entry.2 = written + 1 + data.length then [] else separator width entry.2 := by
  induction data generalizing written b with
  | nil => simp [layout_cons]
  | cons c data ih =>
    have last : written + 1 + (c :: data).length = written + 1 + 1 + data.length := by
      rw [List.length_cons]
      omega
    have inner : written + 1 ≠ written + 1 + 1 + data.length := by omega
    have first : (b :: c :: data).zipIdx (written + 1)
        = (b, written + 1) :: (c :: data).zipIdx (written + 1 + 1) := rfl
    rw [layout_cons, ih, first, List.flatMap_cons, last, if_neg inner]
    simp only [List.append_assoc]

theorem layout_eq_literalsWith {width : Option Width} {behind : Nat → Bytes}
    (h : ∀ k, k ≠ 0 → separator width k = behind k) (array : Bytes) :
    layout width 0 array = literalsWith behind array := by
  cases array with
  | nil => rfl
  | cons b data =>
    have first : separator width 0 = [] := rfl
    rw [layout_eq_behind, first, List.nil_append, literalsWith, List.length_cons]
    apply List.flatMap_congr
    intro entry hentry
    have counted := List.le_snd_of_mem_zipIdx hentry
    rw [h entry.2 (by omega), Nat.zero_add, Nat.add_comm 1]

/-! ## Rows -/

/-- The text of a row. -/
def rowText (row : Bytes) : Bytes := rowSeparator.intercalate (row.map literal)

theorem rowText_cons (b : UInt8) (data : Bytes) (written : Nat) :
    rowText (b :: data) = literal b ++ layout none (written + 1) data := by
  induction data generalizing b written with
  | nil =>
    rw [layout_nil, List.append_nil]
    exact List.intercalate_singleton
  | cons c data ih =>
    have first : rowText (b :: c :: data) = literal b ++ rowSeparator ++ rowText (c :: data) :=
      List.intercalate_cons_cons
    have between : separator none (written + 1) = rowSeparator := rfl
    rw [first, ih c (written + 1), layout_cons, between]
    simp only [List.append_assoc]

theorem rowText_eq_layout (row : Bytes) : rowText row = layout none 0 row := by
  cases row with
  | nil => rfl
  | cons b data => rw [rowText_cons b data 0, layout_cons]; rfl

/-- The width does not matter where no count of literals is a multiple of it. -/
theorem layout_within_row {w : Width} {written : Nat} {data : Bytes}
    (h : ∀ i < data.length, (written + i) % w.val ≠ 0) :
    layout (some w) written data = layout none written data := by
  induction data generalizing written with
  | nil => rfl
  | cons b data ih =>
    have here : separator (some w) written = separator none written := by
      have unbroken : written % w.val ≠ 0 := h 0 (Nat.succ_pos _)
      simp only [separator, if_neg unbroken]
    have later : ∀ i < data.length, (written + 1 + i) % w.val ≠ 0 := by
      intro i hi
      rw [Nat.add_assoc, Nat.add_comm 1]
      exact h (i + 1) (Nat.succ_lt_succ hi)
    rw [layout_cons, layout_cons, here, ih later]

/-- A row that begins where a row may begin has no break inside. -/
theorem layout_row {w : Width} {written : Nat} (h : written % w.val = 0) {row : Bytes}
    (hsome : 0 < row.length) (hfits : row.length ≤ w.val) :
    layout (some w) written row = separator (some w) written ++ rowText row := by
  obtain ⟨b, data, rfl⟩ := List.exists_cons_of_length_pos hsome
  rw [List.length_cons] at hfits
  have inside : ∀ i < data.length, (written + 1 + i) % w.val ≠ 0 := by
    intro i hi
    rw [Nat.add_assoc, Nat.add_mod, h, Nat.zero_add, Nat.mod_mod, Nat.mod_eq_of_lt (by omega)]
    omega
  rw [layout_cons, layout_within_row inside, rowText_cons b data written, List.append_assoc]

/-- Full rows and a last one are laid out with a break behind each but the last. -/
theorem layout_rows {w : Width} {written : Nat} (h : written % w.val = 0) {rows : List Bytes}
    {last : Bytes} (hfull : ∀ row ∈ rows, row.length = w.val) (hsome : 0 < last.length)
    (hfits : last.length ≤ w.val) :
    layout (some w) written (rows.flatten ++ last) = separator (some w) written
      ++ (rows.flatMap fun row => rowText row ++ wrapSeparator) ++ rowText last := by
  induction rows generalizing written with
  | nil =>
    rw [List.flatten_nil, List.nil_append, layout_row h hsome hfits, List.flatMap_nil,
      List.append_nil]
  | cons row rows ih =>
    obtain ⟨hrow, hrows⟩ := List.forall_mem_cons.mp hfull
    have positive := w.property
    -- behind a full row the count is a multiple of the width again
    have next : (written + row.length) % w.val = 0 := by
      rw [hrow, Nat.add_mod_right, h]
    have wrap : separator (some w) (written + row.length) = wrapSeparator := by
      have : written + row.length ≠ 0 := by omega
      rw [separator, if_neg this, if_pos next]
    rw [List.flatten_cons, List.append_assoc, layout_append, ih next hrows, wrap,
      layout_row h (by omega) (by omega), List.flatMap_cons]
    simp only [List.append_assoc]

/-- Every array is cut into full rows and a last one that holds something. -/
theorem exists_rows (w : Width) {array : Bytes} (h : array ≠ []) :
    ∃ (rows : List Bytes) (last : Bytes), rows.flatten ++ last = array
      ∧ (∀ row ∈ rows, row.length = w.val) ∧ 0 < last.length ∧ last.length ≤ w.val := by
  induction hlength : array.length using Nat.strongRecOn generalizing array with
  | _ n ih =>
    have positive := w.property
    by_cases hfits : n ≤ w.val
    · refine ⟨[], array, rfl, fun _ hrow => absurd hrow List.not_mem_nil, ?_, ?_⟩
      · exact List.length_pos_iff.mpr h
      · rw [hlength]
        exact hfits
    · -- a full row comes off, and something is left
      have shorter : (array.drop w.val).length < n := by
        rw [List.length_drop]
        omega
      have some : array.drop w.val ≠ [] := by
        rw [Ne, List.drop_eq_nil_iff]
        omega
      obtain ⟨rows, last, hcut, hfull, hlast⟩ := ih _ shorter some rfl
      refine ⟨array.take w.val :: rows, last, ?_, ?_, hlast⟩
      · rw [List.flatten_cons, List.append_assoc, hcut, List.take_append_drop]
      · refine List.forall_mem_cons.mpr ⟨?_, hfull⟩
        rw [List.length_take]
        omega

theorem length_flatten_full {w : Nat} {rows : List Bytes} (h : ∀ row ∈ rows, row.length = w) :
    rows.flatten.length = rows.length * w := by
  induction rows with
  | nil => exact (Nat.zero_mul w).symm
  | cons row rows ih =>
    obtain ⟨hrow, hrows⟩ := List.forall_mem_cons.mp h
    rw [List.flatten_cons, List.length_append, hrow, ih hrows, List.length_cons, Nat.succ_mul,
      Nat.add_comm]

/-- There are as many rows as the width goes into the length, rounded up. -/
theorem count_rows {w : Width} {rows : List Bytes} {last : Bytes}
    (hfull : ∀ row ∈ rows, row.length = w.val) (hsome : 0 < last.length)
    (hfits : last.length ≤ w.val) :
    rows.length + 1 = ((rows.flatten ++ last).length + w.val - 1) / w.val := by
  rw [List.length_append, length_flatten_full hfull]
  symm
  apply Nat.div_eq_of_lt_le
  · rw [Nat.succ_mul]
    omega
  · rw [Nat.succ_mul, Nat.succ_mul]
    omega

/-! ## Text lines -/

theorem lineFeed_not_mem_rowText (row : Bytes) : Ascii.lineFeed ∉ rowText row := by
  rw [rowText_eq_layout]
  intro hmem
  obtain ⟨entry, -, hmem⟩ := List.mem_flatMap.mp hmem
  rcases List.mem_append.mp hmem with hseparator | hliteral
  · rw [separator] at hseparator
    split at hseparator
    · exact absurd hseparator List.not_mem_nil
    · exact absurd hseparator (by decide +kernel)
  · exact absurd (literal_ge entry.1 _ hliteral) (by decide)

/-- The text of a row ends in a digit. -/
theorem getLast?_rowText {row : Bytes} (h : row ≠ []) :
    ∃ c, (rowText row).getLast? = some c ∧ 0x30 ≤ c := by
  obtain ⟨front, b, hrow⟩ := (List.eq_nil_or_concat row).resolve_left h
  rw [List.concat_eq_append] at hrow
  refine ⟨hexDigit (b.toNat % 16), ?_, hexDigit_ge _ (Nat.mod_lt _ (by decide))⟩
  rw [hrow, rowText_eq_layout, layout_append, layout_cons, layout_nil, List.append_nil,
    ← List.append_assoc, List.getLast?_append]
  rfl

/-- The text lines of rows with breaks between them are the rows, with a comma behind each
but the last. -/
theorem splitOn_rows (rows : List Bytes) (last : Bytes) :
    ((rows.flatMap fun row => rowText row ++ wrapSeparator) ++ rowText last).splitOn Ascii.lineFeed
      = (rows.map fun row => rowText row ++ [comma]) ++ [rowText last] := by
  induction rows with
  | nil => exact List.splitOn_eq_singleton (lineFeed_not_mem_rowText last)
  | cons row rows ih =>
    have broken : rowText row ++ wrapSeparator = rowText row ++ [comma] ++ [Ascii.lineFeed] := by
      rw [List.append_assoc]
      rfl
    have unbroken : Ascii.lineFeed ∉ rowText row ++ [comma] := by
      rw [List.mem_append, not_or]
      exact ⟨lineFeed_not_mem_rowText row, by decide⟩
    rw [List.flatMap_cons, broken, List.append_assoc, List.append_assoc, List.singleton_append,
      List.splitOn_append_cons_self_of_not_mem unbroken, ih, List.map_cons, List.cons_append]

/-! ## Wrapped declarations -/

/-- **Wrapping only moves line breaks.** With a width, a declaration has `,` and a line feed
behind the literals whose number is a multiple of the width, and `,` and a space behind the
others; without one it has the latter behind all. So putting a space for each line feed that
follows a comma, from the header on, gives the declaration without a width. The text lines of
the body hold as many literals as the width says, a comma behind them and no space at the end;
the last holds between one and as many. There are as many lines as the width goes into the
number of literals that the summary gives, rounded up. -/
theorem wrapping_moves_line_breaks (input : Bytes) (symbol : String) (w : Width) :
    let array := (lines input).flatMap cleanLine ++ [trailingByte]
    let plain := writtenFor input ⟨symbol, none⟩
    let wrapped := writtenFor input ⟨symbol, some w⟩
    (∀ width, ∃ summary, (transform (.ofBytes input) ({} : BoundedSink) ⟨symbol, width⟩).result
        = .ok summary ∧ summary.bytesEmitted = array.length)
    ∧ ∃ body, wrapped = header symbol ++ body ++ closing
      ∧ body = literalsWith (fun k => if w.val ∣ k then utf8 ",\n" else utf8 ", ") array
      ∧ plain = header symbol ++ literalsWith (fun _ => utf8 ", ") array ++ closing
      ∧ header symbol ++ unwrapped (wrapped.drop (header symbol).length) = plain
      ∧ (body.splitOn Ascii.lineFeed).length = (array.length + w.val - 1) / w.val
      ∧ (∀ line ∈ body.splitOn Ascii.lineFeed, line.getLast? ≠ some 0x20)
      ∧ ∃ (rows : List Bytes) (last : Bytes),
          body.splitOn Ascii.lineFeed
            = (rows.map fun row => rowText row ++ utf8 ",") ++ [rowText last]
          ∧ rows.flatten ++ last = array
          ∧ (∀ row ∈ rows, row.length = w.val) ∧ 0 < last.length ∧ last.length ≤ w.val := by
  intro array plain wrapped
  have written : wrapped = header symbol ++ layout (some w) 0 array ++ closing :=
    writtenFor_eq input ⟨symbol, some w⟩
  have unwritten : plain = header symbol ++ layout none 0 array ++ closing :=
    writtenFor_eq input ⟨symbol, none⟩
  have nonempty : array ≠ [] := List.append_ne_nil_of_right_ne_nil _ (List.cons_ne_nil _ _)
  obtain ⟨rows, last, hcut, hfull, hsome, hfits⟩ := exists_rows w nonempty
  have breaks : (layout (some w) 0 array).splitOn Ascii.lineFeed
      = (rows.map fun row => rowText row ++ [comma]) ++ [rowText last] := by
    rw [← hcut, layout_rows (Nat.zero_mod _) hfull hsome hfits, ← splitOn_rows]
    rfl
  refine ⟨?summary, layout (some w) 0 array, written, ?behind, ?plain, ?replaced, ?count, ?ends,
    rows, last, breaks, hcut, hfull, hsome, hfits⟩
  case summary =>
    intro width
    have total : array.length = (Summary.ofLines (lines input)).bytesEmitted := List.length_append
    exact ⟨_, by rw [transform_unlimited], total.symm⟩
  case behind =>
    apply layout_eq_literalsWith
    intro k hk
    simp only [separator, if_neg hk, Nat.dvd_iff_mod_eq_zero]
    rfl
  case plain =>
    rw [unwritten, layout_eq_literalsWith]
    intro k hk
    simp only [separator, if_neg hk]
    rfl
  case replaced =>
    have end' : unwrapped closing = closing := rfl
    rw [written, List.append_assoc, List.drop_left, unwrapped_layout, end', unwritten,
      List.append_assoc]
  case count =>
    rw [breaks, ← hcut, ← count_rows hfull hsome hfits, List.length_append, List.length_map]
    rfl
  case ends =>
    intro line hline
    rw [breaks, List.mem_append, List.mem_map, List.mem_singleton] at hline
    rcases hline with ⟨row, -, rfl⟩ | rfl
    · rw [List.getLast?_concat]
      decide
    · obtain ⟨c, hlast, hdigit⟩ := getLast?_rowText (List.length_pos_iff.mp hsome)
      rw [hlast]
      rintro ⟨rfl⟩
      exact absurd hdigit (by decide)

/-- A count that is a multiple of the width leaves no empty line behind. -/
example : layout (some ⟨2, by decide⟩) 0 [1, 2, 3, 4] = utf8 "0x01, 0x02,\n0x03, 0x04" := by
  decide +kernel

end DataInlay
