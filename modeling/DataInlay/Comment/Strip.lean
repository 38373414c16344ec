/-
# DataInlay.Comment.Strip — a line without its comments

Stripping keeps the spans of a line that are not comments, as they are and in
order. What a comment cut out leaves behind is simply joined: no blank takes its
place.
-/
import DataInlay.Comment.Span

namespace DataInlay

/-- What stripping keeps of some spans. -/
def keptText (parts : List Span) : Bytes := (parts.filter (!·.isComment)).flatMap Span.text

theorem keptText_append (a b : List Span) : keptText (a ++ b) = keptText a ++ keptText b := by
  rw [keptText, List.filter_append, List.flatMap_append, keptText, keptText]

theorem keptText_cons (part : Span) (parts : List Span) :
    keptText (part :: parts) = (if part.isComment then [] else part.text) ++ keptText parts := by
  cases h : part.isComment <;> simp [keptText, h]

theorem keptText_sublist (parts : List Span) :
    (keptText parts).Sublist (parts.flatMap Span.text) := by
  induction parts with
  | nil => exact List.Sublist.refl []
  | cons part parts ih =>
    rw [keptText_cons, List.flatMap_cons]
    apply List.Sublist.append _ ih
    split
    · exact List.nil_sublist _
    · exact List.Sublist.refl _

/-- The line without its comments. -/
def strip (line : Bytes) : Bytes :=
  ((spans line).filter (!·.isComment)).flatMap Span.text

@[simp] theorem strip_nil : strip [] = [] := by simp [strip]

theorem strip_eq_keptText (line : Bytes) : strip line = keptText (spans line) := rfl

/-- Stripping never adds a byte, and keeps the order of those it leaves. -/
theorem strip_sublist (line : Bytes) : (strip line).Sublist line := by
  have kept := keptText_sublist (spans line)
  rwa [spans_text] at kept

end DataInlay
