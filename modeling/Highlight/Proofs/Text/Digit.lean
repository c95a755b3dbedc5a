import Mathlib.Data.Nat.Digits.Defs
import Mathlib.Tactic.Ring
import Highlight.Text.Basic
import Highlight.Text.Digit

/-!
# What digits are worth

The digits of all bases are among the 128 characters of ASCII, so a fact about one of them is a fact
about a short list. Digits write a number with the most significant one in front: one more in front
adds a power of the base, and what is behind it stays below that power.
-/

namespace Highlight.Text

variable {c : Char} {s : List Char}

/-- What holds of the characters of ASCII one by one holds of a character among them. -/
theorem of_ascii {p : Char → Prop} (h : ∀ n < 0x80, p (.ofNat n)) (hc : c.toNat < 0x80) : p c := by
  have hchar := h c.toNat hc
  rwa [Char.ofNat_toNat] at hchar

theorem toNat_lt_of_isHexDigit (h : isHexDigit c) : c.toNat < 0x80 := by
  simp only [isHexDigit, Char.isDigit, Bool.or_eq_true, Bool.and_eq_true, decide_eq_true_eq,
    Char.le_def, ge_iff_le, UInt32.le_iff_toNat_le] at h
  rcases h with (⟨-, h⟩ | ⟨-, h⟩) | ⟨-, h⟩
  · exact Nat.lt_of_le_of_lt h (by decide)
  · exact Nat.lt_of_le_of_lt h (by decide)
  · exact Nat.lt_of_le_of_lt h (by decide)

theorem utf8Size_of_isHexDigit (h : isHexDigit c) : c.utf8Size = 1 := by
  rw [Char.utf8Size_eq_one_iff, UInt32.le_iff_toNat_le]
  exact Nat.le_of_lt_succ (toNat_lt_of_isHexDigit h)

theorem isHexDigit_of_isDigit (h : c.isDigit) : isHexDigit c := by
  simp only [isHexDigit, h, Bool.true_or]

theorem isHexDigit_of_isBinaryDigit (h : isBinaryDigit c) : isHexDigit c := by
  obtain rfl | rfl : c = '0' ∨ c = '1' := by simpa [isBinaryDigit] using h
  · rfl
  · rfl

theorem isHexDigit_of_isOctalDigit (h : isOctalDigit c) : isHexDigit c := by
  simp only [isOctalDigit, isHexDigit, Char.isDigit, Bool.or_eq_true, Bool.and_eq_true,
    decide_eq_true_eq, Char.le_def, ge_iff_le, UInt32.le_iff_toNat_le] at h ⊢
  exact .inl (.inl ⟨h.1, Nat.le_trans h.2 (by decide)⟩)

/-- The value of a digit to any base up to 16: its place among the digits. -/
def digitValue (c : Char) : Nat := "0123456789abcdef".toList.idxOf c.toLower

theorem digitValue_lt_of_isOctalDigit (h : isOctalDigit c) : digitValue c < 8 := by
  refine of_ascii (p := fun c ↦ isOctalDigit c → digitValue c < 8) ?_
    (toNat_lt_of_isHexDigit (isHexDigit_of_isOctalDigit h)) h
  decide +kernel

/-- The number that digits write to a base, the most significant one first. -/
def valueOf (base : Nat) (digits : List Char) : Nat :=
  Nat.ofDigits base (digits.reverse.map digitValue)

@[simp]
theorem valueOf_nil (base : Nat) : valueOf base [] = 0 := rfl

theorem valueOf_cons (base : Nat) (c : Char) (s : List Char) :
    valueOf base (c :: s) = digitValue c * base ^ s.length + valueOf base s := by
  simp only [valueOf, List.reverse_cons, List.map_append, Nat.ofDigits_append, List.map_cons,
    List.map_nil, Nat.ofDigits_singleton, List.length_map, List.length_reverse]
  ring

theorem valueOf_lt {base : Nat} (h : ∀ c ∈ s, digitValue c < base) :
    valueOf base s < base ^ s.length := by
  induction s with
  | nil => simp
  | cons c s ih =>
    rw [List.forall_mem_cons] at h
    have hrest := ih h.2
    rw [valueOf_cons, List.length_cons]
    calc
      _ < digitValue c * base ^ s.length + base ^ s.length := Nat.add_lt_add_left hrest _
      _ = (digitValue c + 1) * base ^ s.length := by ring
      _ ≤ base * base ^ s.length := Nat.mul_le_mul_right _ h.1
      _ = base ^ (s.length + 1) := by ring

theorem valueOf_concat (base : Nat) (s : List Char) (c : Char) :
    valueOf base (s ++ [c]) = base * valueOf base s + digitValue c := by
  simp only [valueOf, List.reverse_append, List.reverse_cons, List.reverse_nil, List.nil_append,
    List.singleton_append, List.map_cons, Nat.ofDigits_cons]
  exact Nat.add_comm _ _

theorem digitValue_digitChar : ∀ n < 16, digitValue n.digitChar = n := by decide

section ToDigits

variable {base : Nat} (hpos : 1 < base) (hsixteen : base ≤ 16) (n : Nat)

include hpos hsixteen

theorem digitValue_lt_of_mem_toDigits (h : c ∈ Nat.toDigits base n) : digitValue c < base := by
  induction n using Nat.strong_induction_on with
  | h n ih =>
    have hdigit (m : Nat) (hm : m < base) : digitValue m.digitChar < base := by
      rw [digitValue_digitChar m (by omega)]
      exact hm
    rw [Nat.toDigits_eq_if hpos] at h
    split_ifs at h with hsmall
    · rw [List.mem_singleton.1 h]
      exact hdigit n hsmall
    · rcases List.mem_append.1 h with hfront | hlast
      · exact ih (n / base) (Nat.div_lt_self (by omega) hpos) hfront
      · rw [List.mem_singleton.1 hlast]
        exact hdigit (n % base) (Nat.mod_lt n (by omega))

theorem not_mem_toDigits (h : digitValue c = 16) : c ∉ Nat.toDigits base n := by
  intro hmem
  have hlt := digitValue_lt_of_mem_toDigits hpos hsixteen n hmem
  omega

theorem valueOf_toDigits : valueOf base (Nat.toDigits base n) = n := by
  induction n using Nat.strong_induction_on with
  | h n ih =>
    have hvalue (m : Nat) (hm : m < base) : digitValue m.digitChar = m :=
      digitValue_digitChar m (by omega)
    rw [Nat.toDigits_eq_if hpos]
    split_ifs with hsmall
    · rw [← List.nil_append [n.digitChar], valueOf_concat, valueOf_nil, hvalue n hsmall]
      omega
    · rw [valueOf_concat, ih (n / base) (Nat.div_lt_self (by omega) hpos),
        hvalue (n % base) (Nat.mod_lt n (by omega)), Nat.div_add_mod]

end ToDigits

/-- The number that a text writes to a base, if there is something in it and it is all digits. -/
def number? (base : Nat) (s : List Char) : Option Nat :=
  if !s.isEmpty && s.all (digitValue · < base) then some (valueOf base s) else none

theorem number?_toDigits {base : Nat} (hpos : 1 < base) (hsixteen : base ≤ 16) (n : Nat) :
    number? base (Nat.toDigits base n) = some n := by
  have hnonempty : (Nat.toDigits base n).isEmpty = false :=
    List.isEmpty_eq_false_iff.2 Nat.toDigits_ne_nil
  have hdigits : (Nat.toDigits base n).all (digitValue · < base) :=
    List.all_eq_true.2 fun c hc ↦
      decide_eq_true (digitValue_lt_of_mem_toDigits hpos hsixteen n hc)
  rw [number?, hnonempty, hdigits, valueOf_toDigits hpos hsixteen]
  rfl

end Highlight.Text
