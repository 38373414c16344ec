/-
# DataInlay.Proofs.QuoteParity — compaction by the number of quotes passed

What compaction does with a byte depends on what stands before it in one respect only:
whether the number of double quotes there is odd (`oddQuotes`). So compaction may stop
anywhere and go on with that parity (`compactFrom_append`), and the result of a part of a
line is known from the parity in front of it: text without double quotes is kept as it is
behind an odd number of them, and loses its blanks behind an even one.
-/
import DataInlay.Whitespace
import Mathlib.Algebra.Ring.Parity

namespace DataInlay

/-! ## The parity -/

/-- The number of double quotes is odd. -/
def oddQuotes (s : Bytes) : Bool := s.count compactQuote % 2 == 1

@[simp] theorem oddQuotes_nil : oddQuotes [] = false := rfl

/-- A double quote changes the parity, and no other byte does. -/
theorem oddQuotes_cons (b : UInt8) (s : Bytes) :
    oddQuotes (b :: s) = ((b == compactQuote) ^^ oddQuotes s) := by
  rw [oddQuotes, oddQuotes, List.count_cons]
  rcases Nat.mod_two_eq_zero_or_one (s.count compactQuote) with heven | hodd
  · cases b == compactQuote <;> simp [Nat.add_mod, heven]
  · cases b == compactQuote <;> simp [Nat.add_mod, hodd]

theorem oddQuotes_append (a b : Bytes) : oddQuotes (a ++ b) = (oddQuotes a ^^ oddQuotes b) := by
  induction a with
  | nil => rw [List.nil_append, oddQuotes_nil, Bool.false_xor]
  | cons c a ih => rw [List.cons_append, oddQuotes_cons, oddQuotes_cons, ih, Bool.xor_assoc]

theorem oddQuotes_eq_false_iff {s : Bytes} : oddQuotes s = false ↔ Even (s.count compactQuote) := by
  rw [oddQuotes, beq_eq_false_iff_ne, Nat.even_iff]
  omega

theorem oddQuotes_eq_true_iff {s : Bytes} : oddQuotes s = true ↔ Odd (s.count compactQuote) := by
  rw [oddQuotes, beq_iff_eq, Nat.odd_iff]

theorem oddQuotes_of_not_mem {s : Bytes} (h : compactQuote ∉ s) : oddQuotes s = false := by
  rw [oddQuotes, List.count_eq_zero_of_not_mem h]
  rfl

/-! ## Compaction under a parity -/

theorem isBlank_compactQuote : isBlank compactQuote = false := by decide

/-- A quote is kept, and behind it the parity is the other one. -/
theorem compactFrom_quote (inside : Bool) (s : Bytes) :
    compactFrom inside [] (compactQuote :: s) = compactQuote :: compactFrom (!inside) [] s := by
  rw [compactFrom, if_pos rfl, compactFrom_eq]
  rfl

/-- A byte is dropped when it is blank and the parity is even. -/
theorem compactFrom_cons (inside : Bool) (b : UInt8) (rest : Bytes) :
    compactFrom inside [] (b :: rest) =
      (if isBlank b && !inside then [] else [b])
        ++ compactFrom (inside ^^ (b == compactQuote)) [] rest := by
  by_cases hquote : b = compactQuote
  · subst hquote
    rw [compactFrom_quote, isBlank_compactQuote, beq_self_eq_true, Bool.xor_true]
    rfl
  · rw [compactFrom, if_neg hquote, beq_false_of_ne hquote, Bool.xor_false]
    split
    · rfl
    · rw [compactFrom_eq]
      rfl

/-- Compaction may stop anywhere and go on with the parity reached. -/
theorem compactFrom_append (inside : Bool) (a b : Bytes) :
    compactFrom inside [] (a ++ b) =
      compactFrom inside [] a ++ compactFrom (inside ^^ oddQuotes a) [] b := by
  induction a generalizing inside with
  | nil =>
    rw [oddQuotes_nil, Bool.xor_false]
    rfl
  | cons c a ih =>
    rw [List.cons_append, compactFrom_cons, compactFrom_cons, ih, oddQuotes_cons, Bool.xor_assoc,
      List.append_assoc]

/-- What compaction keeps of a line's beginning does not depend on what follows it. -/
theorem compact_append (a b : Bytes) :
    compact (a ++ b) = compact a ++ compactFrom (oddQuotes a) [] b := by
  rw [compact, compactFrom_append, Bool.false_xor, compact]

theorem ne_compactQuote_of_isBlank {b : UInt8} (h : isBlank b = true) : b ≠ compactQuote := by
  rintro rfl
  exact absurd h (by decide)

/-- Blanks that were left alone are left alone again, as the quotes before them are all still
there. -/
theorem compactFrom_compactFrom (inside : Bool) (s : Bytes) :
    compactFrom inside [] (compactFrom inside [] s) = compactFrom inside [] s := by
  induction s generalizing inside with
  | nil => rfl
  | cons b s ih =>
    rw [compactFrom_cons]
    split
    · next hdropped =>
      rw [Bool.and_eq_true] at hdropped
      rw [beq_false_of_ne (ne_compactQuote_of_isBlank hdropped.1), Bool.xor_false,
        List.nil_append, ih]
    · next hkept => rw [List.singleton_append, compactFrom_cons, if_neg hkept, ih]; rfl

/-- A line is left alone when an odd number of quotes precedes every blank of it. -/
theorem compactFrom_eq_self_iff {inside : Bool} {s : Bytes} :
    compactFrom inside [] s = s ↔ ∀ before b after, s = before ++ b :: after →
      isBlank b = true → (inside ^^ oddQuotes before) = true := by
  induction s generalizing inside with
  | nil => exact iff_of_true rfl fun before b after h => absurd h (by simp)
  | cons c s ih =>
    rw [compactFrom_cons]
    split
    · next hdropped =>
      rw [Bool.and_eq_true] at hdropped
      refine iff_of_false (fun hsame => ?_) fun hodd => ?_
      · have shorter := (compactFrom_sublist (inside ^^ (c == compactQuote)) s).length_le
        rw [List.nil_append] at hsame
        rw [hsame, List.length_cons] at shorter
        omega
      · have hinside := hodd [] c s rfl hdropped.1
        rw [oddQuotes_nil, Bool.xor_false] at hinside
        simp [hinside] at hdropped
    · next hkept =>
      rw [List.singleton_append, List.cons.injEq, ih]
      constructor
      · rintro ⟨-, hodd⟩ before b after hsplit hblank
        rcases before with _ | ⟨d, before⟩
        · obtain ⟨rfl, -⟩ := List.cons.inj hsplit
          simpa [hblank] using hkept
        · obtain ⟨rfl, hrest⟩ := List.cons.inj hsplit
          rw [oddQuotes_cons, ← Bool.xor_assoc]
          exact hodd before b after hrest hblank
      · refine fun hodd => ⟨rfl, fun before b after hsplit hblank => ?_⟩
        have h := hodd (c :: before) b after (by rw [hsplit]; rfl) hblank
        rwa [oddQuotes_cons, ← Bool.xor_assoc] at h

/-- Behind an odd number of quotes, all is kept up to the next quote. -/
theorem compactFrom_inside {s : Bytes} (h : compactQuote ∉ s) : compactFrom true [] s = s := by
  induction s with
  | nil => rfl
  | cons b s ih =>
    rw [List.mem_cons, not_or] at h
    rw [compactFrom_cons, Bool.not_true, Bool.and_false, beq_false_of_ne (Ne.symm h.1),
      Bool.xor_false, ih h.2]
    rfl

/-- Behind an even number of quotes, all blanks up to the next quote are dropped. -/
theorem compactFrom_outside {s : Bytes} (h : compactQuote ∉ s) :
    compactFrom false [] s = s.filter (!isBlank ·) := by
  induction s with
  | nil => rfl
  | cons b s ih =>
    rw [List.mem_cons, not_or] at h
    rw [compactFrom_cons, Bool.not_false, Bool.and_true, beq_false_of_ne (Ne.symm h.1),
      Bool.xor_false, ih h.2, List.filter_cons]
    cases isBlank b <;> rfl

end DataInlay
