/-
# DataInlay.Proofs.BlockBuffers — what a block buffer has stored, and what it holds back

A block buffer in front of a store never fails. What it was handed is what is stored,
followed by what waits; being handed more only makes what is stored longer, and a flush
stores the rest. How much is stored in between depends on how the pieces fall into
blocks, and all that these laws say of it is that no more than a block waits
(`length_le_stored`): they hold of `storeAll` pieces whatever those are. Those of `Buffer`
are shared with buffers that hand over whole lines.

The reader's side is `readLine_spec`: the line that a block reader finds is the first
line of the bytes at hand and what is stored behind its offset.
-/
import DataInlay.Proofs.Pieces
import DataInlay.Stream.BlockReader
import Mathlib.Data.List.TakeWhile

namespace DataInlay

namespace Buffer

/-! ## One piece -/

/-- The bytes that a buffer was handed: those stored, then those that wait. -/
def handed (b : Buffer) : Bytes := b.device.content.toList ++ b.pending.toList

/-- An operation on a buffer in front of a store takes these bytes: it succeeds, and
what is stored only becomes longer. -/
def Takes (b : Buffer) (bytes : Bytes) (attempt : Attempt Buffer) : Prop :=
  ∃ b', attempt = .done b' ∧ (∃ content, b'.device = .store content)
    ∧ b'.handed = b.handed ++ bytes ∧ b.device.content.toList <+: b'.device.content.toList

theorem Takes.andThen {b : Buffer} {x y : Bytes} {attempt : Attempt Buffer}
    {next : Buffer → Attempt Buffer} (first : b.Takes x attempt)
    (second : ∀ b', attempt = .done b' → (∃ content, b'.device = .store content) →
      b'.Takes y (next b')) :
    b.Takes (x ++ y) (attempt.andThen next) := by
  rcases first with ⟨b', hdone, hstore, hhanded, hstored⟩
  obtain ⟨b'', hnext, hstore', hhanded', hstored'⟩ := second b' hdone hstore
  refine ⟨b'', ?_, hstore', ?_, hstored.trans hstored'⟩
  · rw [hdone]
    exact hnext
  · rw [hhanded', hhanded, List.append_assoc]

variable {b : Buffer} {content : Array UInt8}

theorem takes_nothing (h : b.device = .store content) : b.Takes [] (.done b) :=
  ⟨b, rfl, ⟨content, h⟩, (List.append_nil _).symm, List.prefix_rfl⟩

theorem drain_eq (h : b.device = .store content) :
    b.drain = .done ⟨b.capacity, .store (content ++ b.pending), #[]⟩ := by
  rcases b with ⟨capacity, device, pending⟩
  obtain rfl : device = .store content := h
  rfl

theorem drain_takes (h : b.device = .store content) : b.Takes [] b.drain := by
  refine ⟨_, drain_eq h, ⟨_, rfl⟩, ?_, ?_⟩
  · simp [handed, h, Device.content]
  · rw [h]
    show content.toList <+: (content ++ b.pending).toList
    rw [Array.toList_append]
    exact List.prefix_append _ _

theorem keep_takes (h : b.device = .store content) (piece : Bytes) :
    b.Takes piece (.done (b.keep piece)) := by
  refine ⟨_, rfl, ⟨content, h⟩, ?_, List.prefix_rfl⟩
  show b.device.content.toList ++ (b.pending ++ piece).toList = _
  rw [Array.toList_appendList, ← List.append_assoc, handed]

/-- A piece may go past the buffer when nothing waits in it. -/
theorem pass_takes (h : b.device = .store content) {piece : Bytes}
    (hempty : b.pending = #[] ∨ piece = []) : b.Takes piece (b.pass piece) := by
  rcases b with ⟨capacity, device, pending⟩
  obtain rfl : device = .store content := h
  refine ⟨⟨capacity, .store (content ++ piece.toArray), pending⟩, rfl, ⟨_, rfl⟩, ?_, ?_⟩
  · rcases hempty with hpending | hpiece
    · obtain rfl : pending = #[] := hpending
      simp [handed, Device.content]
    · simp [handed, Device.content, hpiece]
  · show content.toList <+: (content ++ piece.toArray).toList
    rw [Array.toList_append]
    exact List.prefix_append _ _

theorem putLarge_takes (h : b.device = .store content) (piece : Bytes) :
    b.Takes piece (b.putLarge piece) := by
  have room : b.Takes [] (if b.capacity - b.pending.size < piece.length then b.drain else .done b) := by
    split
    · exact drain_takes h
    · exact takes_nothing h
  apply room.andThen
  intro b' hroom hstore
  rcases hstore with ⟨content', h'⟩
  split
  · next hlarge =>
    apply pass_takes h'
    -- the piece is as large as the buffer, so room for it means that nothing waits
    split at hroom
    · rw [drain_eq h] at hroom
      cases hroom
      exact Or.inl rfl
    · next hfits =>
      cases hroom
      by_cases hnone : b.pending.size = 0
      · exact Or.inl (Array.eq_empty_of_size_eq_zero hnone)
      · exact Or.inr (List.eq_nil_of_length_eq_zero (by omega))
  · exact keep_takes h' piece

theorem put_takes (h : b.device = .store content) (piece : Bytes) : b.Takes piece (b.put piece) := by
  unfold put
  split
  · exact keep_takes h piece
  · exact putLarge_takes h piece

/-! ## Many pieces -/

/-- When each piece is taken, all are, one after the other. -/
theorem each_takes {put : Buffer → Bytes → Attempt Buffer}
    (hput : ∀ {b : Buffer} {content : Array UInt8}, b.device = .store content →
      ∀ piece, b.Takes piece (put b piece))
    (h : b.device = .store content) (pieces : List Bytes) :
    b.Takes pieces.flatten (Attempt.each put b pieces) := by
  induction pieces generalizing b content with
  | nil => exact takes_nothing h
  | cons piece pieces ih =>
    rw [Attempt.each_cons, List.flatten_cons]
    apply (hput h piece).andThen
    intro b' _ hstore
    rcases hstore with ⟨content', h'⟩
    exact ih h'

/-- A drain stores all that the buffer was handed. -/
theorem drain_stores (h : b.device = .store content) :
    ∃ b', b.drain = .done b' ∧ b'.device.content.toList = b.handed := by
  refine ⟨_, drain_eq h, ?_⟩
  rw [handed, h]
  exact Array.toList_append

/-! ## What waits -/

/-- The buffer has this capacity, and no more waits in it. -/
def Within (b : Buffer) (capacity : Nat) : Prop :=
  b.capacity = capacity ∧ b.pending.size ≤ capacity

theorem size_keep (b : Buffer) (piece : Bytes) :
    (b.keep piece).pending.size = b.pending.size + piece.length := by
  show (b.pending ++ piece).size = _
  rw [← Array.length_toList, Array.toList_appendList, List.length_append, Array.length_toList]

theorem keep_within {capacity : Nat} {piece : Bytes} (hcapacity : b.capacity = capacity)
    (hroom : b.pending.size + piece.length ≤ capacity) : (b.keep piece).Within capacity := by
  refine ⟨hcapacity, ?_⟩
  rwa [size_keep]

/-- A piece that is to wait finds room. -/
theorem put_within {capacity : Nat} (h : b.Within capacity) (hstore : b.device = .store content)
    {piece : Bytes} {b' : Buffer} (hput : b.put piece = .done b') : b'.Within capacity := by
  obtain ⟨hcapacity, hpending⟩ := h
  rw [put] at hput
  split at hput
  · cases hput
    exact keep_within hcapacity (by omega)
  · rw [putLarge] at hput
    split at hput
    · -- the buffer is drained first
      rw [drain_eq hstore, Attempt.andThen] at hput
      split at hput
      · cases hput
        exact ⟨hcapacity, Nat.zero_le _⟩
      · next hshort =>
        cases hput
        refine keep_within hcapacity ?_
        rw [Array.size_empty, Nat.zero_add, ← hcapacity]
        exact Nat.le_of_not_le hshort
    · rw [Attempt.andThen] at hput
      split at hput
      · rw [pass, hstore] at hput
        cases hput
        exact ⟨hcapacity, hpending⟩
      · cases hput
        exact keep_within hcapacity (by omega)

theorem each_within {capacity : Nat} (h : b.Within capacity) (hstore : b.device = .store content)
    {pieces : List Bytes} {all : Buffer} (hall : Attempt.each put b pieces = .done all) :
    all.Within capacity := by
  induction pieces generalizing b content with
  | nil =>
    cases hall
    exact h
  | cons piece pieces ih =>
    obtain ⟨b', hput, ⟨content', hstore'⟩, -⟩ := put_takes hstore piece
    rw [Attempt.each_cons, hput] at hall
    exact ih (put_within h hstore hput) hstore' hall

end Buffer

namespace BlockBuffer

/-! ## All pieces -/

/-- The block buffer in front of an empty store once it was handed these pieces. -/
def storeAll (pieces : List Bytes) : BlockBuffer :=
  (writeAll (ofDevice (.store #[])) pieces).state

/-- The bytes that are stored. -/
def stored (b : BlockBuffer) : Bytes := b.buffer.device.content.toList

theorem writeAll_eq (b : BlockBuffer) (pieces : List Bytes) :
    writeAll b pieces = (Attempt.each Buffer.put b.buffer pieces).map mk := by
  show Attempt.each Sink.write (mk b.buffer) pieces = _
  exact Attempt.each_map (fun _ _ => rfl) b.buffer pieces

theorem writeAll_takes {b : BlockBuffer} {content : Array UInt8} (h : b.buffer.device = .store content)
    (pieces : List Bytes) :
    ∃ b', writeAll b pieces = .done b' ∧ b.buffer.Takes pieces.flatten (.done b'.buffer) := by
  obtain ⟨all, hall, taken⟩ := Buffer.each_takes Buffer.put_takes h pieces
  rw [writeAll_eq, hall]
  exact ⟨⟨all⟩, rfl, all, rfl, taken⟩

theorem storeAll_spec (pieces : List Bytes) :
    writeAll (ofDevice (.store #[])) pieces = .done (storeAll pieces)
      ∧ (∃ content, (storeAll pieces).buffer.device = .store content)
      ∧ (storeAll pieces).buffer.handed = pieces.flatten := by
  obtain ⟨b, hall, b', hb', hstore, hhanded, -⟩ :=
    writeAll_takes (b := ofDevice (.store #[])) rfl pieces
  cases hb'
  have same : storeAll pieces = b := by rw [storeAll, hall]; rfl
  rw [same]
  exact ⟨hall, hstore, hhanded⟩

theorem writeAll_storeAll (a b : List Bytes) : writeAll (storeAll a) b = .done (storeAll (a ++ b)) := by
  have both := (storeAll_spec (a ++ b)).1
  rw [writeAll_append, (storeAll_spec a).1] at both
  exact both

/-- What is stored stays, and more pieces only add to it. -/
theorem stored_isPrefix (a b : List Bytes) : (storeAll a).stored <+: (storeAll (a ++ b)).stored := by
  obtain ⟨content, hstore⟩ := (storeAll_spec a).2.1
  obtain ⟨all, hall, b', hb', -, -, longer⟩ := writeAll_takes hstore b
  cases hb'
  rw [writeAll_storeAll] at hall
  cases hall
  exact longer

/-- What is not stored waits, and that is a block at most. -/
theorem length_le_stored (pieces : List Bytes) :
    pieces.flatten.length ≤ (storeAll pieces).stored.length + blockSize := by
  obtain ⟨all, hall, -⟩ :=
    Buffer.each_takes Buffer.put_takes (b := (ofDevice (.store #[])).buffer) rfl pieces
  have within : (storeAll pieces).buffer.Within blockSize := by
    rw [storeAll, writeAll_eq, hall]
    exact Buffer.each_within ⟨rfl, Nat.zero_le _⟩ rfl hall
  rw [← (storeAll_spec pieces).2.2, Buffer.handed, List.length_append, Array.length_toList]
  exact Nat.add_le_add_left within.2 _

/-- A flush stores all that was handed over. -/
theorem flush_storeAll (pieces : List Bytes) :
    ∃ b, Sink.flush (storeAll pieces) = .done b ∧ b.stored = pieces.flatten := by
  obtain ⟨-, ⟨content, hstore⟩, hhanded⟩ := storeAll_spec pieces
  obtain ⟨b, hdrain, hstored⟩ := Buffer.drain_stores hstore
  exact ⟨⟨b⟩, congrArg (Attempt.map mk) hdrain, hstored.trans hhanded⟩

/-- Pieces that together are shorter than a block all wait. -/
theorem writeAll_waits {pending : Array UInt8} {pieces : List Bytes}
    (h : pending.size + pieces.flatten.length < blockSize) :
    writeAll (⟨⟨blockSize, .store #[], pending⟩⟩ : BlockBuffer) pieces
      = .done ⟨⟨blockSize, .store #[], pending ++ pieces.flatten⟩⟩ := by
  induction pieces generalizing pending with
  | nil =>
    have same : pending ++ ([] : List Bytes).flatten = pending := Array.appendList_nil
    rw [same]
    rfl
  | cons piece pieces ih =>
    rw [List.flatten_cons, List.length_append] at h
    have kept : Sink.write (⟨⟨blockSize, .store #[], pending⟩⟩ : BlockBuffer) piece
        = .done ⟨⟨blockSize, .store #[], pending ++ piece⟩⟩ := by
      show (if piece.length < blockSize - pending.size then _ else _ : Attempt Buffer).map _ = _
      rw [if_pos (by omega)]
      rfl
    have size : (pending ++ piece).size = pending.size + piece.length :=
      Buffer.size_keep ⟨blockSize, .store #[], pending⟩ piece
    have joined : pending ++ piece ++ pieces.flatten = pending ++ (piece :: pieces).flatten := by
      apply Array.ext'
      simp
    rw [← List.singleton_append, writeAll_append, writeAll_singleton, kept]
    show writeAll _ pieces = _
    rw [ih (by omega), joined, List.singleton_append]

/-- Before a block is full, nothing is stored. -/
theorem stored_of_lt {pieces : List Bytes} (h : pieces.flatten.length < blockSize) :
    (storeAll pieces).stored = [] := by
  have waits : writeAll (ofDevice (.store #[])) pieces = _ :=
    writeAll_waits (by rwa [Array.size_empty, Nat.zero_add])
  rw [storeAll, waits]
  rfl

end BlockBuffer

namespace BlockReader

/-! ## The reader -/

/-- The bytes that a reader comes by when the file stays as it is: those at hand, then
what is stored behind its offset. -/
def ahead (r : BlockReader) (content : Array UInt8) : Bytes :=
  r.ready ++ content.toList.drop r.offset

/-- From one state to the next the reader gives these bytes out, and takes only from the
store what is next there. -/
def Gives (content : Array UInt8) (r : BlockReader) (bytes : Bytes) (r' : BlockReader) : Prop :=
  ∃ block, block <+: content.toList.drop r.offset ∧ r'.offset = r.offset + block.length
    ∧ r.ready ++ block = bytes ++ r'.ready

variable {content : Array UInt8} {r r' r'' : BlockReader} {x y : Bytes}

theorem Gives.trans (first : Gives content r x r') (second : Gives content r' y r'') :
    Gives content r (x ++ y) r'' := by
  rcases first with ⟨block, ⟨later, hlater⟩, hoffset, hready⟩
  rcases second with ⟨block', hblock', hoffset', hready'⟩
  refine ⟨block ++ block', ?_, ?_, ?_⟩
  · rw [← hlater]
    rw [hoffset, ← List.drop_drop, ← hlater, List.drop_left] at hblock'
    exact (List.prefix_append_right_inj block).mpr hblock'
  · rw [hoffset', hoffset, List.length_append, Nat.add_assoc]
  · rw [← List.append_assoc, hready, List.append_assoc, hready', List.append_assoc]

/-- What was given out is what was ahead. -/
theorem Gives.ahead_eq (given : Gives content r x r') :
    r.ahead content = x ++ r'.ahead content := by
  rcases given with ⟨block, ⟨later, hlater⟩, hoffset, hready⟩
  rw [ahead, ahead, hoffset, ← List.drop_drop, ← hlater, List.drop_left, ← List.append_assoc, hready,
    List.append_assoc]

theorem fill_gives (r : BlockReader) (content : Array UInt8) :
    Gives content r [] (r.fill content) := by
  unfold fill
  split
  · next hnone =>
    refine ⟨r.block content, ?_, rfl, ?_⟩
    · rw [block, Array.toList_extract]
      exact List.take_prefix _ _
    · rw [hnone, List.nil_append]
  · exact ⟨[], List.nil_prefix, rfl, List.append_nil _⟩

/-- No bytes are at hand after that only at the end of the file. -/
theorem ahead_of_fill_eq_nil (h : (r.fill content).ready = []) : r.ahead content = [] := by
  unfold fill at h
  split at h
  · next hnone =>
    have length := congrArg List.length h
    simp only [block, Array.length_toList, Array.size_extract, List.length_nil,
      BlockBuffer.blockSize] at length
    rw [ahead, hnone, List.nil_append, List.drop_eq_nil_iff, Array.length_toList]
    omega
  · next hsome => exact absurd h hsome

theorem not_mem_takeWhile (s : Bytes) : Ascii.lineFeed ∉ s.takeWhile (· != Ascii.lineFeed) :=
  fun mem => absurd (List.mem_takeWhile_imp mem) (by simp)

/-- At a line feed, a reader is left with what follows it. -/
theorem ready_eq_of_dropWhile {ready rest : Bytes} {b : UInt8}
    (h : ready.dropWhile (· != Ascii.lineFeed) = b :: rest) :
    ready = ready.takeWhile (· != Ascii.lineFeed) ++ Ascii.lineFeed :: rest := by
  have stops := List.head?_dropWhile_not (· != Ascii.lineFeed) ready
  rw [h] at stops
  have feed : b = Ascii.lineFeed := by simpa using stops
  rw [feed] at h
  rw [← h, List.takeWhile_append_dropWhile]

/-- **The line that a reader finds** is the first of the bytes ahead of it. -/
theorem readLineFrom_spec (line : Bytes) (r : BlockReader) (content : Array UInt8) :
    (readLineFrom line r content).1 = line ++ firstLine (r.ahead content)
      ∧ Gives content r (firstLine (r.ahead content)) (readLineFrom line r content).2 := by
  fun_induction readLineFrom line r content with
  | case1 line r b rest hdrop =>
    -- the line ends within the bytes at hand
    have ready := ready_eq_of_dropWhile hdrop
    have before := not_mem_takeWhile (r.fill content).ready
    have first : firstLine (r.ahead content)
        = (r.fill content).ready.takeWhile (· != Ascii.lineFeed) ++ [Ascii.lineFeed] := by
      rw [(r.fill_gives content).ahead_eq, List.nil_append, ahead, ready, List.append_assoc,
        List.cons_append, firstLine_append_lineFeed (ready ▸ before), ← ready]
    rw [first]
    refine ⟨List.append_assoc _ _ _, (r.fill_gives content).trans ⟨[], List.nil_prefix, rfl, ?_⟩⟩
    rw [List.append_nil]
    exact ready.trans (List.append_cons _ _ _)
  | case2 line r hdrop hnone =>
    -- the file is over
    have first : firstLine (r.ahead content) = [] :=
      firstLine_eq_nil.mpr (ahead_of_fill_eq_nil hnone)
    rw [first]
    exact ⟨(List.append_nil line).symm, r.fill_gives content⟩
  | case3 line r hdrop hsome ih =>
    -- the line goes on in the next block
    have unended : Ascii.lineFeed ∉ (r.fill content).ready := fun mem =>
      absurd (List.dropWhile_eq_nil_iff.mp hdrop _ mem) (by simp)
    have given : Gives content r (r.fill content).ready { r.fill content with ready := [] } :=
      (r.fill_gives content).trans
        ⟨[], List.nil_prefix, rfl, rfl⟩
    have first := firstLine_open_append unended
      (ahead { r.fill content with ready := [] } content)
    rw [← given.ahead_eq] at first
    rw [first]
    refine ⟨?_, given.trans ih.2⟩
    rw [ih.1, List.append_assoc]

theorem readLine_spec (r : BlockReader) (content : Array UInt8) :
    (r.readLine content).1 = firstLine (r.ahead content)
      ∧ Gives content r (firstLine (r.ahead content)) (r.readLine content).2 :=
  readLineFrom_spec [] r content

end BlockReader

end DataInlay
