import Highlight.Text.Identifier
import Highlight.Text.IdentifierContinue
import Highlight.Text.IdentifierStart

/-!
# Identifiers in Unicode

The characters of identifiers as the tables of one version of Unicode have them. White space is not
among them, since none of its ranges meets one of theirs.
-/

namespace Highlight.Text

/-- The ranges of white space and of the byte order mark. -/
def blankRanges : List (Nat × Nat) := (0xFEFF, 0xFEFF) :: blanks.toList

theorem exists_range_of_isBlank {c : Char} (h : isBlank c ∨ c = '\uFEFF') :
    ∃ range ∈ blankRanges, range.1 ≤ c.toNat ∧ c.toNat ≤ range.2 := by
  rcases h with hblank | rfl
  · obtain ⟨range, hmem, hrange⟩ := exists_range_of_inRanges hblank
    exact ⟨range, List.mem_cons_of_mem _ (Array.mem_toList_iff.2 hmem), hrange⟩
  · exact ⟨_, List.mem_cons_self, by decide⟩

/-- Whether no range of the table meets one of white space. The tables are too long to be compared
as a whole. -/
def isApart (table : Array (Nat × Nat)) : Bool :=
  blankRanges.all fun range ↦ table.toList.all fun other ↦
    range.2 < other.1 || other.2 < range.1

theorem inRanges_of_isApart {first second third : Array (Nat × Nat)} {c : Char}
    (hfirst : isApart first) (hsecond : isApart second) (hthird : isApart third)
    (h : isBlank c ∨ c = '\uFEFF') : inRanges (first ++ second ++ third) c = false := by
  obtain ⟨range, hrange, hc⟩ := exists_range_of_isBlank h
  have hpart {part : Array (Nat × Nat)} (hpart : isApart part) {other : Nat × Nat}
      (hother : other ∈ part) : range.2 < other.1 ∨ other.2 < range.1 := by
    have hall := List.all_eq_true.1 (List.all_eq_true.1 hpart range hrange) other
      (Array.mem_toList_iff.2 hother)
    simpa using hall
  refine inRanges_eq_false_of_outside fun other hother ↦ ?_
  rw [Array.mem_append, Array.mem_append] at hother
  have hapart : range.2 < other.1 ∨ other.2 < range.1 := by
    rcases hother with (hother | hother) | hother
    · exact hpart hfirst hother
    · exact hpart hsecond hother
    · exact hpart hthird hother
  omega

instance : IdentifierClasses where
  isStart := inRanges identifierStarts
  isContinue := inRanges identifierContinues
  apart _ h :=
    ⟨inRanges_of_isApart (by decide +kernel) (by decide +kernel) (by decide +kernel) h,
      inRanges_of_isApart (by decide +kernel) (by decide +kernel) (by decide +kernel) h⟩

end Highlight.Text
