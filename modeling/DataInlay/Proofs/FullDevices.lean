/-
# DataInlay.Proofs.FullDevices — what comes of pieces that a device refuses

A device that takes nothing refuses the first bytes that it is handed. A buffer in front of
it puts this off, but not for ever: each piece is refused or waits (`Buffer.Withholds`), so
that in the end all are refused but those that wait, and a flush refuses these. It is all
one for this whether the buffer hands over blocks or lines. A conversion to such a device
fails when it writes, as a declaration is never empty.
-/
import DataInlay.FileTree
import DataInlay.Proofs.LineBuffers

namespace DataInlay

theorem Device.write_full {bytes : Array UInt8} (h : bytes ≠ #[]) :
    Device.write bytes .full = .failed Fault.storageFull .full := by
  have some : bytes.isEmpty = false := by simpa using h
  rw [write, some]
  rfl

namespace Buffer

/-! ## One piece -/

/-- An operation on a buffer in front of a full device is refused, or lets these bytes wait. -/
def Withholds (b : Buffer) (bytes : Bytes) (attempt : Attempt Buffer) : Prop :=
  (∃ b', attempt = .failed Fault.storageFull b') ∨ attempt = .done (b.keep bytes)

/-- The buffer stands in front of a device that takes nothing. -/
structure Blocked (b : Buffer) : Prop where
  device : b.device = .full
  capacity : 0 < b.capacity

theorem Blocked.keep {b : Buffer} (h : b.Blocked) (bytes : Bytes) : (b.keep bytes).Blocked :=
  ⟨h.device, h.capacity⟩

theorem keep_nil (b : Buffer) : b.keep [] = b := by
  rw [keep, Array.appendList_nil]

theorem keep_keep (b : Buffer) (x y : Bytes) : (b.keep x).keep y = b.keep (x ++ y) := by
  have both : b.pending ++ x ++ y = b.pending ++ (x ++ y) := by
    apply Array.ext'
    simp
  simp only [keep, both]

theorem withholds_nothing (b : Buffer) : b.Withholds [] (.done b) := by
  right
  rw [keep_nil]

theorem Withholds.andThen {b : Buffer} {x y : Bytes} {attempt : Attempt Buffer}
    {next : Buffer → Attempt Buffer} (first : b.Withholds x attempt)
    (second : (b.keep x).Withholds y (next (b.keep x))) :
    b.Withholds (x ++ y) (attempt.andThen next) := by
  rcases first with ⟨b', hrefused⟩ | hwaits
  · rw [hrefused]
    exact .inl ⟨b', rfl⟩
  · rw [hwaits]
    rwa [Withholds, keep_keep] at second

variable {b : Buffer}

/-- Whatever waits cannot be drained. -/
theorem drain_blocked (h : b.Blocked) (hwaiting : b.pending ≠ #[]) :
    ∃ b', b.drain = .failed Fault.storageFull b' := by
  rw [drain, h.device, Device.write_full hwaiting]
  exact ⟨_, rfl⟩

theorem drain_withholds (h : b.Blocked) : b.Withholds [] b.drain := by
  by_cases hwaiting : b.pending = #[]
  · obtain ⟨capacity, device, pending⟩ := b
    obtain rfl : pending = #[] := hwaiting
    obtain rfl : device = .full := h.device
    exact withholds_nothing _
  · exact .inl (drain_blocked h hwaiting)

theorem pass_withholds (h : b.Blocked) {piece : Bytes} (hpiece : piece ≠ []) :
    b.Withholds piece (b.pass piece) := by
  have something : piece.toArray ≠ #[] := by simpa using hpiece
  left
  rw [pass, h.device, Device.write_full something]
  exact ⟨_, rfl⟩

theorem putLarge_withholds (h : b.Blocked) (piece : Bytes) : b.Withholds piece (b.putLarge piece) := by
  have room : b.Withholds []
      (if b.capacity - b.pending.size < piece.length then b.drain else .done b) := by
    split
    · exact drain_withholds h
    · exact withholds_nothing b
  apply room.andThen
  rw [keep_nil]
  split
  · next hlarge =>
    -- a piece as large as the buffer is not empty
    apply pass_withholds h
    rintro rfl
    exact absurd h.capacity (Nat.not_lt.mpr hlarge)
  · exact .inr rfl

theorem put_withholds (h : b.Blocked) (piece : Bytes) : b.Withholds piece (b.put piece) := by
  unfold put
  split
  · exact .inr rfl
  · exact putLarge_withholds h piece

/-! ## Many pieces -/

/-- When each piece is refused or waits, so are all, one after the other. -/
theorem each_withholds {put : Buffer → Bytes → Attempt Buffer}
    (hput : ∀ {b : Buffer}, b.Blocked → ∀ piece, b.Withholds piece (put b piece))
    (h : b.Blocked) (pieces : List Bytes) :
    b.Withholds pieces.flatten (Attempt.each put b pieces) := by
  induction pieces generalizing b with
  | nil => exact withholds_nothing b
  | cons piece pieces ih =>
    rw [Attempt.each_cons, List.flatten_cons]
    exact (hput h piece).andThen (ih (h.keep piece))

/-- Behind them all, a drain is refused at the latest, unless there was nothing. -/
theorem drain_refuses {put : Buffer → Bytes → Attempt Buffer}
    (hput : ∀ {b : Buffer}, b.Blocked → ∀ piece, b.Withholds piece (put b piece))
    (h : b.Blocked) {pieces : List Bytes} (hpieces : pieces.flatten ≠ []) :
    ∃ b', (Attempt.each put b pieces).andThen drain = .failed Fault.storageFull b' := by
  rcases each_withholds hput h pieces with ⟨b', hrefused⟩ | hwaits
  · exact ⟨b', by rw [hrefused]; rfl⟩
  · have waiting : b.pending ++ pieces.flatten ≠ #[] := by
      intro nothing
      apply hpieces
      have none := congrArg Array.toList nothing
      rw [Array.toList_appendList] at none
      exact (List.append_eq_nil_iff.mp none).2
    rw [hwaits]
    exact drain_blocked (h.keep _) waiting

end Buffer

namespace LineBuffer

/-- Whether a piece completes lines or not, it is refused or waits. -/
theorem put_withholds {b : Buffer} (h : b.Blocked) (piece : Bytes) :
    b.Withholds piece (put b piece) := by
  have split := splitLines_append piece
  rw [put]
  split
  · next tail hsplit =>
    rw [hsplit] at split
    rw [← split]
    have room : b.Withholds []
        (if b.pending.back? = some Ascii.lineFeed then b.drain else .done b) := by
      split
      · exact Buffer.drain_withholds h
      · exact b.withholds_nothing
    exact room.andThen (Buffer.put_withholds (h.keep []) tail)
  · next completed tail hsome hsplit =>
    rw [hsplit] at split
    rw [← split]
    have lines : b.Withholds completed (if b.pending.isEmpty then b.pass completed
        else (b.put completed).andThen Buffer.drain) := by
      split
      · exact Buffer.pass_withholds h hsome
      · have drained : b.Withholds (completed ++ []) ((b.put completed).andThen Buffer.drain) :=
          (Buffer.put_withholds h completed).andThen (Buffer.drain_withholds (h.keep completed))
        rwa [List.append_nil] at drained
    exact lines.andThen (Buffer.put_withholds (h.keep completed) tail)

end LineBuffer

/-! ## Conversions -/

section Sinks

variable {σ : Type} [Sink σ] {mk : Buffer → σ} {put : Buffer → Bytes → Attempt Buffer}
  (hwrite : ∀ b piece, Sink.write (mk b) piece = (put b piece).map mk)
  (hflush : ∀ b, Sink.flush (mk b) = b.drain.map mk)
  (hput : ∀ {b : Buffer}, b.Blocked → ∀ piece, b.Withholds piece (put b piece))

include hwrite hflush hput

/-- A sink that is such a buffer refuses pieces at the latest when it is flushed. -/
theorem flush_blocked {b : Buffer} (h : b.Blocked) {pieces : List Bytes}
    (hpieces : pieces.flatten ≠ []) :
    ∃ b', (writeAll (mk b) pieces).andThen Sink.flush = .failed Fault.storageFull (mk b') := by
  obtain ⟨b', hrefused⟩ := Buffer.drain_refuses hput h hpieces
  refine ⟨b', ?_⟩
  calc (writeAll (mk b) pieces).andThen Sink.flush
      = ((Attempt.each put b pieces).map mk).andThen Sink.flush := by
        rw [writeAll, Attempt.each_map hwrite]
    _ = ((Attempt.each put b pieces).andThen Buffer.drain).map mk := by
        cases Attempt.each put b pieces with
        | done all => exact hflush all
        | failed fault all => rfl
    _ = .failed Fault.storageFull (mk b') := by rw [hrefused]; rfl

/-- So it fails the conversion of any input. -/
theorem transform_of_blocked {b : Buffer} (h : b.Blocked) (input : Bytes) (options : Options) :
    (transform (.ofBytes input) (mk b) options).result
      = .error (.streamWrite Fault.storageFull) := by
  have something : (bodyPieces options (dataOf input)
      ++ endPieces options.width (dataOf input).length).flatten ≠ [] := by
    have ends : closing ≠ [] := by decide +kernel
    rw [pieces_flatten, declaration]
    exact List.append_ne_nil_of_right_ne_nil _ ends
  obtain ⟨b', hrefused⟩ := flush_blocked hwrite hflush hput h something
  have data : (Source.ofBytes input).lines.flatMap cleanLine = dataOf input := rfl
  rw [← data] at hrefused
  exact (transform_of_untaken rfl hrefused).2

end Sinks

/-- A conversion to a file on a full device fails when it writes, -/
theorem transform_to_full (input : Bytes) (options : Options) :
    (transform (.ofBytes input) (BlockBuffer.ofDevice .full) options).result
      = .error (.streamWrite Fault.storageFull) :=
  transform_of_blocked (fun _ _ => rfl) (fun _ => rfl) Buffer.put_withholds ⟨rfl, by decide⟩
    input options

/-- and so does one to a standard output that takes nothing. -/
theorem transform_to_full_output (input : Bytes) (options : Options) :
    (transform (.ofBytes input) (LineBuffer.ofDevice .full) options).result
      = .error (.streamWrite Fault.storageFull) :=
  transform_of_blocked (fun _ _ => rfl) (fun _ => rfl) LineBuffer.put_withholds ⟨rfl, by decide⟩
    input options

end DataInlay
