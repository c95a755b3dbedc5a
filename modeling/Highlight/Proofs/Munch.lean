import Highlight.CFamily.Operator
import Highlight.JavaScript.Operator
import Highlight.Proofs.Operator
import Highlight.Proofs.Text.Longest

/-!
# Maximal munch

The first operator of a list that a text begins with is the longest one, for none stands behind a
shorter one. So where operators are taken off a text again and again, none of them stops inside a
longer one that begins at its place. Since every character of an operator is an operator by itself,
what is taken off is all that stands before the first other character. There is one exception: a
script has a question mark alone where a point and a digit follow, for the point belongs to a
number.
-/

namespace Highlight

namespace Operator

open Text (IsLongest)

variable {operators : List String} {s t : List Char} {op : String} {n : Nat}
  {spared : String → List Char → List Char → Prop} {length : List Char → Nat}

/-- The text is an operator of the list. -/
def IsListed (operators : List String) (text : List Char) : Prop :=
  ∃ op ∈ operators, op.toList = text

/-- No operator of the list stands behind a shorter one. -/
def LongestFirst (operators : List String) : Prop :=
  operators.Pairwise fun op later ↦ later.length ≤ op.length

instance : DecidablePred LongestFirst := fun operators ↦
  inferInstanceAs (Decidable (operators.Pairwise fun op later ↦ later.length ≤ op.length))

theorem length_le_of_find? (horder : LongestFirst operators) (hfind : find? operators s = some op)
    {other : String} (hother : other ∈ operators) (hfront : other.toList <+: s) :
    other.length ≤ op.length := by
  obtain ⟨-, before, after, rfl, hbefore⟩ := List.find?_eq_some_iff_append.1 hfind
  rcases List.mem_append.1 hother with hearlier | hlater
  · have hstart : Text.startsWith other s := Text.startsWith_iff.2 hfront
    have hnone := hbefore other hearlier
    simp [hstart] at hnone
  · rcases List.mem_cons.1 hlater with rfl | hlater
    · exact Nat.le_refl _
    · have hpairwise := (List.pairwise_append.1 horder).2.1
      exact (List.pairwise_cons.1 hpairwise).1 other hlater

theorem take_length_of_find? (hfind : find? operators s = some op) :
    s.take op.length = op.toList := by
  rw [← String.length_toList]
  exact (List.prefix_iff_eq_take.1 (prefix_of_find? hfind).2).symm

theorem isLongest_of_find?_some (horder : LongestFirst operators)
    (hfind : find? operators s = some op) : IsLongest (IsListed operators) s op.length := by
  obtain ⟨hmem, hfront⟩ := prefix_of_find? hfind
  refine .front (Text.isLongestFront_of_length ?_ ⟨op, hmem, (take_length_of_find? hfind).symm⟩ ?_)
  · rw [← String.length_toList]
    exact hfront.length_le
  · rintro - hother ⟨other, hmem, rfl⟩
    rw [String.length_toList]
    exact length_le_of_find? horder hfind hmem hother

theorem isLongest_of_find?_none (hfind : find? operators s = none) :
    IsLongest (IsListed operators) s 0 := by
  refine .none ?_
  rintro - hfront ⟨op, hmem, rfl⟩
  exact List.find?_eq_none.1 hfind op hmem (Text.startsWith_iff.2 hfront)

def hasCharacter (operators : List String) (c : Char) : Bool :=
  operators.any (·.toList.contains c)

theorem hasCharacter_of_isListed (h : IsListed operators t) :
    ∀ c ∈ t, hasCharacter operators c := by
  obtain ⟨op, hmem, rfl⟩ := h
  intro c hc
  exact List.any_eq_true.2 ⟨op, hmem, List.contains_iff_mem.2 hc⟩

/-- Each character of an operator is an operator by itself. -/
def HasSingles (operators : List String) : Prop :=
  ∀ op ∈ operators, ∀ c ∈ op.toList, IsListed operators [c]

-- Only the characters that occur are gone through, and not all there are.
instance : DecidablePred HasSingles := fun operators ↦
  decidable_of_iff
    (operators.all fun op ↦ op.toList.all fun c ↦ operators.any (·.toList == [c]))
    (by simp [HasSingles, IsListed])

theorem HasSingles.exists_isListed (h : HasSingles operators)
    (hstart : Text.startsIn (hasCharacter operators) s) :
    ∃ c, [c] <+: s ∧ IsListed operators [c] := by
  cases s with
  | nil => exact absurd hstart Bool.false_ne_true
  | cons c s =>
    obtain ⟨op, hmem, hc⟩ := List.any_eq_true.1 hstart
    exact ⟨c, List.prefix_append [c] s, h op hmem c (List.contains_iff_mem.1 hc)⟩

/-- The parts of the text when as much as `length` tells is taken off its front, again and again
until that is nothing. -/
def split (length : List Char → Nat) (s : List Char) : List (List Char) :=
  let part := s.take (length s)
  if part = [] then [] else part :: split length (s.drop part.length)
termination_by s.length
decreasing_by
  rename_i hne
  have hpos : 0 < part.length := List.length_pos_iff.2 hne
  have hle : part.length ≤ s.length := (List.take_prefix (length s) s).length_le
  rw [List.length_drop]
  exact Nat.sub_lt (Nat.lt_of_lt_of_le hpos hle) hpos

/-- A part taken off the front of a text is an operator, it is something where the text begins with
a character of operators, and it begins with each operator that the text begins with, unless this
one is spared for the sake of what stands behind it. -/
structure Munches (operators : List String) (spared : String → List Char → List Char → Prop)
    (s part : List Char) : Prop where
  isListed : part ≠ [] → IsListed operators part
  ne_nil : Text.startsIn (hasCharacter operators) s → part ≠ []
  longest : ∀ op ∈ operators, op.toList <+: s →
    op.toList <+: part ∨ spared op part (s.drop op.length)

theorem munches_of_isLongest (hsingles : HasSingles operators)
    (h : IsLongest (IsListed operators) s n) : Munches operators spared s (s.take n) where
  isListed := h.hasForm
  ne_nil hstart := by
    obtain ⟨c, hfront, hlisted⟩ := hsingles.exists_isListed hstart
    exact (h.prefix_take hfront hlisted).ne_nil (List.cons_ne_nil c [])
  longest op hmem hfront := .inl (h.prefix_take hfront ⟨op, hmem, rfl⟩)

/-- The parts are the operators that a text is made of, up to the first character of another kind.
Each begins with every operator that the text has at its place, but for the ones that are spared. -/
structure Munched (operators : List String) (spared : String → List Char → List Char → Prop)
    (s : List Char) (parts : List (List Char)) : Prop where
  flatten_eq : parts.flatten = s.takeWhile (hasCharacter operators)
  isListed : ∀ part ∈ parts, IsListed operators part
  longest : ∀ before part after, parts = before ++ part :: after →
    ∀ op ∈ operators, op.toList <+: s.drop before.flatten.length →
      op.toList <+: part ∨ spared op part (s.drop (before.flatten.length + op.length))

/-- If every front is a longest one, repeated splitting takes longest ones throughout. -/
theorem munched_split (h : ∀ s, Munches operators spared s (s.take (length s))) (s : List Char) :
    Munched operators spared s (split length s) := by
  fun_induction split length s with
  | case1 s part hnil =>
    refine ⟨?_, List.forall_mem_nil _, ?_⟩
    · cases s with
      | nil => rfl
      | cons c s =>
        have hc : ¬ hasCharacter operators c := fun hc ↦ (h (c :: s)).ne_nil hc hnil
        rw [List.takeWhile_cons_of_neg hc, List.flatten_nil]
    · intro before part after hparts
      simp at hparts
  | case2 s part hne ih =>
    have hlisted : IsListed operators part := (h s).isListed hne
    refine ⟨?_, List.forall_mem_cons.2 ⟨hlisted, ih.isListed⟩, ?_⟩
    · have hsplit : part ++ s.drop part.length = s :=
        List.prefix_iff_eq_append.1 (List.take_prefix _ _)
      rw [List.flatten_cons, ih.flatten_eq,
        ← List.takeWhile_append_of_pos (hasCharacter_of_isListed hlisted), hsplit]
    · intro before piece after hparts op hmem hfront
      cases before with
      | nil =>
        obtain ⟨rfl, -⟩ := List.cons.inj hparts
        rw [List.flatten_nil, List.length_nil] at hfront ⊢
        rw [Nat.zero_add]
        exact (h s).longest op hmem hfront
      | cons first before =>
        obtain ⟨rfl, hrest⟩ := List.cons.inj hparts
        rw [List.flatten_cons, List.length_append] at hfront ⊢
        rw [← List.drop_drop] at hfront
        rw [Nat.add_assoc, ← List.drop_drop]
        exact ih.longest before piece after hrest op hmem hfront

end Operator

open Operator
open Text (IsLongest)

namespace CFamily

theorem longestFirst_operators : LongestFirst operators := by decide +kernel

theorem hasSingles_operators : HasSingles operators := by decide +kernel

theorem isLongest_operatorLength (s : List Char) :
    IsLongest (IsListed operators) s (operatorLength s) := by
  unfold operatorLength
  cases hfind : find? operators s with
  | none => exact isLongest_of_find?_none hfind
  | some op => exact isLongest_of_find?_some longestFirst_operators hfind

end CFamily

namespace JavaScript

theorem longestFirst_operators : LongestFirst operators := by decide +kernel

theorem hasSingles_operators : HasSingles operators := by decide +kernel

/-- The part is a question mark, and the operator would have taken the point off a number. -/
def SparesPoint (op : String) (part rest : List Char) : Prop :=
  op = "?." ∧ part = "?".toList ∧ Text.startsIn Char.isDigit rest

/-- The longest operator is taken, but for a point that belongs to a number. -/
theorem exists_isLongest_operatorLength (s : List Char) :
    ∃ n, IsLongest (IsListed operators) s n ∧ operatorLength s =
      if s.take n = "?.".toList ∧ Text.startsIn Char.isDigit (s.drop n) then 1 else n := by
  unfold operatorLength operator?
  cases hfind : find? operators s with
  | none => exact ⟨0, isLongest_of_find?_none hfind, rfl⟩
  | some op =>
    refine ⟨op.length, isLongest_of_find?_some longestFirst_operators hfind, ?_⟩
    have hspared : (op == "?." && Text.startsIn Char.isDigit (s.drop 2)) ↔
        op.toList = "?.".toList ∧ Text.startsIn Char.isDigit (s.drop op.length) := by
      rw [Bool.and_eq_true, beq_iff_eq, String.toList_inj]
      refine and_congr_right ?_
      rintro rfl
      rfl
    simp only [Option.bind_eq_bind, Option.bind_some, hspared, take_length_of_find? hfind]
    split_ifs <;> rfl

theorem munches_operatorLength (s : List Char) :
    Munches operators SparesPoint s (s.take (operatorLength s)) := by
  obtain ⟨n, hlongest, hlength⟩ := exists_isLongest_operatorLength s
  rw [hlength]
  split_ifs with hspared
  · obtain ⟨hchain, hdigit⟩ := hspared
    obtain ⟨rest, rfl⟩ : "?.".toList <+: s := hchain ▸ List.take_prefix n s
    have hdrop : ("?.".toList ++ rest).drop n = rest :=
      List.append_cancel_left (hchain ▸ List.take_append_drop n _)
    rw [hdrop] at hdigit
    refine ⟨fun _ ↦ ⟨"?", by decide, rfl⟩, fun _ ↦ List.cons_ne_nil _ _, fun op hmem hfront ↦ ?_⟩
    have hwithin : op.toList <+: ['?'] ++ ['.'] := by
      have hlongest := hlongest.prefix_take hfront ⟨op, hmem, rfl⟩
      rwa [hchain] at hlongest
    -- What the chain begins with is the chain itself or a front of the question mark.
    rcases List.prefix_concat_iff.1 hwithin with hop | hop
    · obtain rfl : op = "?." := String.toList_injective hop
      exact .inr ⟨rfl, rfl, hdigit⟩
    · exact .inl hop
  · exact munches_of_isLongest hasSingles_operators hlongest

end JavaScript

/-- An operator is the longest that fits, but a script has a question mark alone before a point and a
digit. So where a text is split into operators, none of them stops inside a longer one, and no
character is left over that stands before the first one of another kind. -/
theorem operators_longest (s : List Char) :
    (∀ n, CFamily.operatorLength s = n ↔ IsLongest (IsListed CFamily.operators) s n) ∧
    (∀ n, JavaScript.operatorLength s = n ↔
      ∃ m, IsLongest (IsListed JavaScript.operators) s m ∧
        n = if s.take m = "?.".toList ∧ Text.startsIn Char.isDigit (s.drop m) then 1 else m) ∧
    Munched CFamily.operators (fun _ _ _ ↦ False) s (split CFamily.operatorLength s) ∧
    Munched JavaScript.operators JavaScript.SparesPoint s
      (split JavaScript.operatorLength s) := by
  refine ⟨fun n ↦ (CFamily.isLongest_operatorLength s).eq_iff, fun n ↦ ?_, ?_, ?_⟩
  · obtain ⟨m, hlongest, hlength⟩ := JavaScript.exists_isLongest_operatorLength s
    constructor
    · rintro rfl
      exact ⟨m, hlongest, hlength⟩
    · rintro ⟨m', hlongest', rfl⟩
      rw [hlength, hlongest.unique hlongest']
  · exact munched_split (fun s ↦ munches_of_isLongest CFamily.hasSingles_operators
      (CFamily.isLongest_operatorLength s)) s
  · exact munched_split JavaScript.munches_operatorLength s

-- The point belongs to the number.
example : JavaScript.operatorLength "?.5".toList = 1 := by decide

end Highlight
