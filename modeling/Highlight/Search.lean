/-!
# Binary search

Tables of keywords and of character ranges are ascending arrays and are searched by halving.
-/

namespace Highlight.Search

/-- Searches the window from `lo` up to `hi`. `place` says where an entry lies: before (`.lt`) or
behind (`.gt`) what is sought, or at it. -/
def within {α : Type} (place : α → Ordering) (table : Array α) (lo hi : Nat)
    (bound : hi ≤ table.size) : Option α :=
  if h : lo < hi then
    let mid := lo + (hi - lo) / 2
    have : mid < table.size := by omega
    match place table[mid] with
    | .lt => within place table (mid + 1) hi bound
    | .gt => within place table lo mid (by omega)
    | .eq => some table[mid]
  else none
termination_by hi - lo

/-- The entry of the table that `place` says is at the sought place. -/
def find? {α : Type} (place : α → Ordering) (table : Array α) : Option α :=
  within place table 0 table.size (Nat.le_refl _)

theorem mem_of_within {α : Type} {place : α → Ordering} {table : Array α} {lo hi : Nat}
    {bound : hi ≤ table.size} {entry : α} (h : within place table lo hi bound = some entry) :
    entry ∈ table ∧ place entry = .eq := by
  fun_induction within place table lo hi bound with
  | case1 lo hi bound hlt mid hmid hplace ih => exact ih h
  | case2 lo hi bound hlt mid hmid hplace ih => exact ih h
  | case3 lo hi bound hlt mid hmid hplace =>
    obtain rfl := Option.some.inj h
    exact ⟨Array.getElem_mem hmid, hplace⟩
  | case4 => simp at h

end Highlight.Search
