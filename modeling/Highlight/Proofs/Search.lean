import Highlight.Keyword

/-!
# What a binary search finds

Whatever the order of the table, a search finds only entries that are at the sought place. In an
ascending table it finds the one that is there.
-/

namespace Highlight

/-- An entry is found if the others lie to it as their places do. -/
theorem Search.within_eq_some {α : Type} {place : α → Ordering} {table : Array α} {lo hi k : Nat}
    {bound : hi ≤ table.size} (hk : k < table.size)
    (hplace : ∀ i (hi : i < table.size), place table[i] = compare i k) (hlo : lo ≤ k)
    (hhi : k < hi) : within place table lo hi bound = some table[k] := by
  fun_induction within place table lo hi bound with
  | case1 lo hi bound hlt mid hmid hlower ih =>
    rw [hplace mid hmid, Nat.compare_eq_lt] at hlower
    exact ih hlower hhi
  | case2 lo hi bound hlt mid hmid hupper ih =>
    rw [hplace mid hmid, Nat.compare_eq_gt] at hupper
    exact ih hlo hupper
  | case3 lo hi bound hlt mid hmid hhere =>
    rw [hplace mid hmid, Nat.compare_eq_eq] at hhere
    simp only [hhere]
  | case4 lo hi bound hempty => exact absurd (Nat.lt_of_le_of_lt hlo hhi) hempty

theorem Keywords.mem_of_kind? {table : Keywords} {name : List Char} {kind : Kind}
    (h : table.kind? name = some kind) : (String.ofList name, kind) ∈ table := by
  obtain ⟨entry, hfind, rfl⟩ := Option.map_eq_some_iff.1 h
  obtain ⟨hmem, hplace⟩ := Search.mem_of_within hfind
  have hname : entry.1 = String.ofList name := Std.LawfulEqCmp.eq_of_compare hplace
  rw [← hname]
  exact hmem

end Highlight
