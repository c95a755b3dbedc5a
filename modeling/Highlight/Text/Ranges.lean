import Highlight.Search

/-!
# Character ranges

A class of characters given by an ascending table of disjoint ranges of code points, both ends of
a range included.
-/

namespace Highlight.Text

/-- Where a range lies with respect to a code point. -/
def placeRange (point : Nat) (range : Nat × Nat) : Ordering :=
  if range.2 < point then .lt else if point < range.1 then .gt else .eq

/-- Whether a range of the table holds the character. -/
def inRanges (table : Array (Nat × Nat)) (c : Char) : Bool :=
  (Search.find? (placeRange c.toNat) table).isSome

variable {table : Array (Nat × Nat)} {c : Char}

/-- A character of a class lies in one of its ranges. -/
theorem exists_range_of_inRanges (h : inRanges table c) :
    ∃ range ∈ table, range.1 ≤ c.toNat ∧ c.toNat ≤ range.2 := by
  obtain ⟨range, hfind⟩ := Option.isSome_iff_exists.1 h
  obtain ⟨hmem, hplace⟩ := Search.mem_of_within hfind
  refine ⟨range, hmem, ?_⟩
  by_cases hbefore : range.2 < c.toNat
  · simp [placeRange, hbefore] at hplace
  · by_cases hbehind : c.toNat < range.1
    · simp [placeRange, hbefore, hbehind] at hplace
    · exact ⟨Nat.le_of_not_lt hbehind, Nat.le_of_not_lt hbefore⟩

theorem inRanges_eq_false_of_outside
    (h : ∀ range ∈ table, c.toNat < range.1 ∨ range.2 < c.toNat) : inRanges table c = false := by
  rw [← Bool.not_eq_true]
  intro hclass
  obtain ⟨range, hmem, hfirst, hlast⟩ := exists_range_of_inRanges hclass
  have houtside := h range hmem
  omega

/-- A class has no characters before its first range. -/
theorem inRanges_eq_false {first : Nat} (hfirst : ∀ range ∈ table, first ≤ range.1)
    (hc : c.toNat < first) : inRanges table c = false :=
  inRanges_eq_false_of_outside fun range hmem ↦ .inl (Nat.lt_of_lt_of_le hc (hfirst range hmem))

end Highlight.Text
