/-!
# Totals

The sum of a measure over a list, added up front to back.
-/

namespace Highlight

def total {α : Type} (measure : α → Nat) (items : List α) : Nat :=
  items.foldl (fun sum item ↦ sum + measure item) 0

theorem foldl_eq_add_total {α : Type} (measure : α → Nat) (start : Nat) (items : List α) :
    items.foldl (fun sum item ↦ sum + measure item) start = start + total measure items := by
  induction items generalizing start with
  | nil => rfl
  | cons item items ih =>
    have htotal : total measure (item :: items) = 0 + measure item + total measure items :=
      ih (0 + measure item)
    rw [List.foldl_cons, ih, htotal]
    omega

@[simp] theorem total_nil {α : Type} (measure : α → Nat) : total measure [] = 0 := rfl

@[simp] theorem total_cons {α : Type} (measure : α → Nat) (item : α) (items : List α) :
    total measure (item :: items) = measure item + total measure items := by
  rw [total, List.foldl_cons, foldl_eq_add_total]
  omega

@[simp] theorem total_append {α : Type} (measure : α → Nat) (xs ys : List α) :
    total measure (xs ++ ys) = total measure xs + total measure ys := by
  induction xs with
  | nil => simp
  | cons x xs ih => simp [ih, Nat.add_assoc]

end Highlight
