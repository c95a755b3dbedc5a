import Highlight.Proofs.Text.Front

/-!
# Longest fronts

What a text begins with is the longest of its fronts that have a certain form. Of two fronts of one
text the shorter one is a front of the longer one, so the longest front is the one that begins with
all the others, and it is the longest in characters and in bytes alike. Where two forms stand one
behind the other and nothing in the first one may begin the second one, the longest front of the
whole is made of the longest fronts of its parts: to end the first part early gains nothing, for the
second one would have to begin inside it.
-/

namespace Highlight.Text

variable {form first second : List Char → Prop} {s v a b : List Char} {m n : Nat}

/-- The first `n` characters of the text have the form, and begin with every front that has it: no
such front has more characters or more bytes. -/
structure IsLongestFront (form : List Char → Prop) (s : List Char) (n : Nat) : Prop where
  le_length : n ≤ s.length
  hasForm : form (s.take n)
  longest : ∀ v, v <+: s → form v → v <+: s.take n

/-- A length is that of the longest front that has the form, and 0 if no front has it. -/
inductive IsLongest (form : List Char → Prop) (s : List Char) : Nat → Prop
  | front {n : Nat} : IsLongestFront form s n → IsLongest form s n
  | none : (∀ v, v <+: s → ¬ form v) → IsLongest form s 0

theorem isLongestFront_of_length (hn : n ≤ s.length) (hform : form (s.take n))
    (hle : ∀ v, v <+: s → form v → v.length ≤ n) : IsLongestFront form s n where
  le_length := hn
  hasForm := hform
  longest v hv hform := by
    apply List.prefix_of_prefix_length_le hv (List.take_prefix n s)
    rw [List.length_take_of_le hn]
    exact hle v hv hform

theorem IsLongestFront.length_le (h : IsLongestFront form s n) (hv : v <+: s) (hform : form v) :
    v.length ≤ n := by
  have hle := (h.longest v hv hform).length_le
  rwa [List.length_take_of_le h.le_length] at hle

theorem IsLongest.isFront (h : IsLongest form s n) (hn : n ≠ 0) : IsLongestFront form s n := by
  cases h with
  | front h => exact h
  | none => exact absurd rfl hn

theorem IsLongest.hasForm (h : IsLongest form s n) (hne : s.take n ≠ []) : form (s.take n) := by
  cases h with
  | front h => exact h.hasForm
  | none => exact absurd List.take_zero hne

theorem IsLongest.prefix_take (h : IsLongest form s n) (hv : v <+: s) (hform : form v) :
    v <+: s.take n := by
  cases h with
  | front h => exact h.longest v hv hform
  | none hnone => exact absurd hform (hnone v hv)

theorem IsLongest.not_form (h : IsLongest form s 0) (hnil : ¬ form []) (hv : v <+: s) :
    ¬ form v := by
  cases h with
  | front h => exact absurd h.hasForm hnil
  | none hnone => exact hnone v hv

theorem IsLongest.unique (hm : IsLongest form s m) (hn : IsLongest form s n) : m = n := by
  have hle {m n : Nat} (hm : IsLongestFront form s m) (hn : IsLongestFront form s n) : m ≤ n := by
    have hlength := hn.length_le (List.take_prefix m s) hm.hasForm
    rwa [List.length_take_of_le hm.le_length] at hlength
  cases hm with
  | front hm =>
    cases hn with
    | front hn => exact Nat.le_antisymm (hle hm hn) (hle hn hm)
    | none hnone => exact absurd hm.hasForm (hnone _ (List.take_prefix _ s))
  | none hnone =>
    cases hn with
    | front hn => exact absurd hn.hasForm (hnone _ (List.take_prefix _ s))
    | none => rfl

/-- A measure that finds the longest front is characterised by that. -/
theorem IsLongest.eq_iff (h : IsLongest form s m) : m = n ↔ IsLongest form s n := by
  constructor
  · rintro rfl
    exact h
  · exact h.unique

/-- A measure finds the longest front if what it measures has the form, and if it measures no less
than is there. -/
theorem isLongest_of_complete {length : List Char → Nat} (hbound : ∀ s, length s ≤ s.length)
    (hnil : ¬ form []) (hsound : ∀ s, length s ≠ 0 → form (s.take (length s)))
    (hcomplete : ∀ v r, form v → v.length ≤ length (v ++ r)) (s : List Char) :
    IsLongest form s (length s) := by
  have hle : ∀ v, v <+: s → form v → v.length ≤ length s := by
    rintro v ⟨r, rfl⟩ hv
    exact hcomplete v r hv
  by_cases hzero : length s = 0
  · rw [hzero] at hle ⊢
    refine .none fun v hv hform ↦ ?_
    obtain rfl := List.length_eq_zero_iff.1 (Nat.le_zero.1 (hle v hv hform))
    exact hnil hform
  · exact .front (isLongestFront_of_length (hbound s) (hsound s hzero) hle)

/-- A text of the second form behind one of the first form. -/
def Followed (first second : List Char → Prop) (s : List Char) : Prop :=
  ∃ a b, s = a ++ b ∧ first a ∧ second b

/-- Nothing that stands in the first form begins the second one. -/
def Apart (first second : List Char → Prop) : Prop :=
  ∀ a c, first a → c ∈ a → ∀ b, ¬ second (c :: b)

/-- Where the first part ends early, there is no second part. -/
theorem IsLongestFront.split (h : IsLongestFront first s m) (hapart : Apart first second)
    (ha : first a) (hb : second b) (hab : a ++ b <+: s) :
    b = [] ∨ a = s.take m ∧ b <+: s.drop m := by
  obtain ⟨t, ht⟩ := h.longest a ((List.prefix_append a b).trans hab) ha
  have hs : s = a ++ (t ++ s.drop m) := by
    rw [← List.append_assoc, ht, List.take_append_drop]
  rw [hs, List.prefix_append_right_inj] at hab
  cases t with
  | nil =>
    rw [List.append_nil] at ht
    exact .inr ⟨ht, hab⟩
  | cons c t =>
    cases b with
    | nil => exact .inl rfl
    | cons d b =>
      obtain ⟨rfl, -⟩ := List.cons_prefix_cons.1 hab
      have hmem : d ∈ s.take m := by
        rw [← ht]
        exact List.mem_append_right a List.mem_cons_self
      exact absurd hb (hapart _ d h.hasForm hmem b)

/-- The longest front of two forms is the longest of the first and then that of the second. -/
theorem IsLongestFront.followed (h : IsLongestFront first s m)
    (hsecond : IsLongestFront second (s.drop m) n) (hapart : Apart first second) :
    IsLongestFront (Followed first second) s (m + n) := by
  have htake : s.take (m + n) = s.take m ++ (s.drop m).take n := List.take_add
  refine ⟨?_, ?_, ?_⟩
  · have hm := h.le_length
    have hn := hsecond.le_length
    rw [List.length_drop] at hn
    omega
  · rw [htake]
    exact ⟨_, _, rfl, h.hasForm, hsecond.hasForm⟩
  · rintro - hfront ⟨a, b, rfl, ha, hb⟩
    rw [htake]
    rcases h.split hapart ha hb hfront with rfl | ⟨rfl, hrest⟩
    · rw [List.append_nil] at hfront ⊢
      exact (h.longest a hfront ha).trans (List.prefix_append _ _)
    · exact (List.prefix_append_right_inj _).2 (hsecond.longest b hrest hb)

/-- Where no second part stands behind the longest first one, there is none at all. -/
theorem IsLongestFront.not_followed (h : IsLongestFront first s m) (hapart : Apart first second)
    (hnil : ¬ second []) (hnone : ∀ v, v <+: s.drop m → ¬ second v) (hv : v <+: s) :
    ¬ Followed first second v := by
  rintro ⟨a, b, rfl, ha, hb⟩
  rcases h.split hapart ha hb hv with rfl | ⟨-, hrest⟩
  · exact hnil hb
  · exact hnone b hrest hb

end Highlight.Text
