import Mathlib.Order.Bounds.Defs
import Highlight.Proofs.JavaScript.Ending
import Highlight.Proofs.Text.Digit

/-!
# The escapes of scripts

What an escape takes and whether it is malformed, form by form. A code point may be written with any
number of digits, and its value is read into a word of 32 bits. While the value fits it is that of
the digits read so far, and once it does not fit no further digit makes it smaller, so the word is
missing exactly where the number is too large for any code point. The forms exclude each other and
one of them is there behind every backslash, so they say all that there is to say of an escape.
-/

namespace Highlight.JavaScript

open Text (digitValue valueOf)

variable {c : Char} {s : List Char} {found : Escape}

theorem hexDigitValue_eq (h : Text.isHexDigit c) : hexDigitValue c = digitValue c := by
  refine Text.of_ascii (p := fun c ↦ Text.isHexDigit c → hexDigitValue c = digitValue c) ?_
    (Text.toNat_lt_of_isHexDigit h) h
  decide +kernel

/-- The word is there exactly where it holds the number that the digits write. -/
theorem hexWordFrom?_eq (h : ∀ c ∈ s, Text.isHexDigit c) (word : UInt32) :
    hexWordFrom? word s =
      let value := word.toNat * 16 ^ s.length + valueOf 16 s
      if value < UInt32.size then some (.ofNat value) else none := by
  induction s generalizing word with
  | nil => simp [hexWordFrom?, word.toNat_lt_size]
  | cons c s ih =>
    obtain ⟨hc, hs⟩ := List.forall_mem_cons.1 h
    rw [hexWordFrom?, hexDigitValue_eq hc, hc, Bool.true_and, Text.valueOf_cons, List.length_cons]
    generalize hvalue : 16 * word.toNat + digitValue c = value
    have htotal : word.toNat * 16 ^ (s.length + 1) +
        (digitValue c * 16 ^ s.length + valueOf 16 s) = value * 16 ^ s.length + valueOf 16 s := by
      rw [← hvalue]
      ring
    simp only [htotal, decide_eq_true_eq]
    by_cases hfits : value < UInt32.size
    · have hword : (UInt32.ofNat value).toNat = value := UInt32.toNat_ofNat_of_lt' hfits
      rw [if_pos hfits, ih hs, hword]
    · have hgrows : value ≤ value * 16 ^ s.length :=
        Nat.le_mul_of_pos_right value (Nat.pow_pos (by decide))
      rw [if_neg hfits, if_neg (by omega)]

/-- Digits give a code point if there are some and their number is not too large. -/
def IsCode (digits : List Char) : Prop :=
  digits ≠ [] ∧ (∀ c ∈ digits, Text.isHexDigit c) ∧ valueOf 16 digits ≤ 0x10FFFF

/-- The number of the digits is counted as a word of 32 bits, and digits that no word holds are no
code point either. -/
theorem isCodePoint_iff : isCodePoint s ↔ IsCode s := by
  simp only [isCodePoint, IsCode, Bool.and_eq_true, Bool.not_eq_true', List.isEmpty_eq_false_iff,
    List.all_eq_true, and_assoc]
  refine and_congr_right fun hne ↦ and_congr_right fun hdigits ↦ ?_
  have hword : hexWord? s = hexWordFrom? 0 s := by
    unfold hexWord?
    split
    · exact absurd rfl hne
    · exact absurd (hdigits '+' List.mem_cons_self) (by decide)
    · exact absurd (hdigits '+' List.mem_cons_self) (by decide)
    · rfl
  rw [hword, hexWordFrom?_eq hdigits]
  simp only [UInt32.toNat_zero, Nat.zero_mul, Nat.zero_add]
  split_ifs with hfits
  · rw [Option.any_some, decide_eq_true_eq, UInt32.le_iff_toNat_le,
      UInt32.toNat_ofNat_of_lt' hfits]
    rfl
  · have hlarge : ¬ valueOf 16 s ≤ 0x10FFFF :=
      fun hle ↦ hfits (Nat.lt_of_le_of_lt hle (by decide))
    simp [hlarge]

/-- How far a text can be read as octal digits, three at most, whose number one byte holds. -/
def octalLengths (s : List Char) : Set Nat :=
  {n | n ≤ s.length ∧ n ≤ 3 ∧ (∀ c ∈ s.take n, Text.isOctalDigit c) ∧ valueOf 8 (s.take n) ≤ 0xFF}

theorem le_three_iff (h : Text.isOctalDigit c) : c ≤ '3' ↔ digitValue c ≤ 3 := by
  refine Text.of_ascii (p := fun c ↦ Text.isOctalDigit c → (c ≤ '3' ↔ digitValue c ≤ 3)) ?_
    (Text.toNat_lt_of_isHexDigit (Text.isHexDigit_of_isOctalDigit h)) h
  decide +kernel

/-- An octal digit and those behind it fit in a byte if there are at most three with a small one in
front, or two. -/
theorem valueOf_octal_le (hc : Text.isOctalDigit c) (hs : ∀ d ∈ s, Text.isOctalDigit d)
    (hlength : s.length ≤ if c ≤ '3' then 2 else 1) : valueOf 8 (c :: s) ≤ 0xFF := by
  have hdigits : ∀ d ∈ s, digitValue d < 8 :=
    fun d hd ↦ Text.digitValue_lt_of_isOctalDigit (hs d hd)
  have hrest : valueOf 8 s < 8 ^ s.length := Text.valueOf_lt hdigits
  have hfirst := Text.digitValue_lt_of_isOctalDigit hc
  rw [Text.valueOf_cons]
  split_ifs at hlength with hsmall
  · have hthree : digitValue c ≤ 3 := (le_three_iff hc).1 hsmall
    have hpow : 8 ^ s.length ≤ 8 ^ 2 := Nat.pow_le_pow_right (by decide) hlength
    have hhead : digitValue c * 8 ^ s.length ≤ 3 * 8 ^ 2 := Nat.mul_le_mul hthree hpow
    omega
  · have hpow : 8 ^ s.length ≤ 8 ^ 1 := Nat.pow_le_pow_right (by decide) hlength
    have hhead : digitValue c * 8 ^ s.length ≤ 7 * 8 ^ 1 :=
      Nat.mul_le_mul (Nat.le_of_lt_succ hfirst) hpow
    omega

/-- Three octal digits do not fit in a byte if the first one is large. -/
theorem length_le_of_mem_octalLengths (hc : Text.isOctalDigit c) {after : List Char} {n : Nat}
    (h : n ∈ octalLengths (c :: after)) : n ≤ if c ≤ '3' then 3 else 2 := by
  obtain ⟨hlength, hthree, -, hvalue⟩ := h
  split_ifs with hsmall
  · exact hthree
  · by_contra hlarge
    obtain rfl : n = 3 := by omega
    have hfirst : ¬ digitValue c ≤ 3 := mt (le_three_iff hc).2 hsmall
    have hrest : (after.take 2).length = 2 := by
      rw [List.length_cons] at hlength
      rw [List.length_take]
      omega
    rw [List.take_succ_cons, Text.valueOf_cons, hrest] at hvalue
    omega

/-- How far octal digits reach is told by the first one. -/
theorem isGreatest_octalLengths (hc : Text.isOctalDigit c) (after : List Char) :
    IsGreatest (octalLengths (c :: after))
      (Text.spanLength Text.isOctalDigit ((c :: after).take (if c ≤ '3' then 3 else 2))) := by
  obtain ⟨limit, hlimit⟩ : ∃ limit, limit + 1 = if c ≤ '3' then 3 else 2 :=
    ⟨if c ≤ '3' then 2 else 1, by split_ifs <;> rfl⟩
  have hsmaller : limit = if c ≤ '3' then 2 else 1 := by
    split_ifs at hlimit ⊢ <;> omega
  rw [← hlimit, List.take_succ_cons, Text.spanLength_cons, if_pos hc]
  have hspan := Text.spanLength_le Text.isOctalDigit (after.take limit)
  have hdigits := Text.forall_mem_take_spanLength (p := Text.isOctalDigit) (s := after.take limit)
  rw [List.take_take, Nat.min_eq_left (hspan.trans (List.length_take_le _ _))] at hdigits
  constructor
  · rw [List.length_take] at hspan
    refine ⟨?_, ?_, ?_, ?_⟩
    · rw [List.length_cons]
      omega
    · split_ifs at hsmaller <;> omega
    · rw [List.take_succ_cons, List.forall_mem_cons]
      exact ⟨hc, hdigits⟩
    · rw [List.take_succ_cons]
      refine valueOf_octal_le hc hdigits ?_
      rw [← hsmaller, List.length_take]
      omega
  · intro n hn
    have hle := length_le_of_mem_octalLengths hc hn
    rw [← hlimit] at hle
    obtain ⟨hlength, -, hrun, -⟩ := hn
    have hlong := Text.le_spanLength_take hlength hle hrun
    rwa [List.take_succ_cons, Text.spanLength_cons, if_pos hc] at hlong

/-- What can stand before the closing bracket of a code. -/
def IsEnclosed (digits : List Char) : Prop :=
  ∀ c ∈ digits, c ≠ '\x7d' ∧ isLineTerminator c = false

theorem bracedDigits?_eq_some_iff {body digits : List Char} :
    bracedDigits? body = some digits ↔
      ∃ rest, body = digits ++ '\x7d' :: rest ∧ IsEnclosed digits := by
  change (coding.find? body).map (body.take ·) = some digits ↔ _
  rw [Option.map_eq_some_iff]
  constructor
  · rintro ⟨n, hfind, rfl⟩
    obtain ⟨code, rest, rfl, rfl, hcode⟩ := Literal.Coding.find?_eq_some_iff.1 hfind
    rw [List.take_left]
    exact ⟨rest, rfl, hcode⟩
  · rintro ⟨rest, rfl, hdigits⟩
    exact ⟨digits.length, Literal.Coding.find?_eq_some_iff.2 ⟨digits, rest, rfl, rfl, hdigits⟩,
      List.take_left⟩

theorem escape_openBracket (body : List Char) :
    escape ('\\' :: 'u' :: '\x7b' :: body) =
      (bracedDigits? body).elim ⟨3, true⟩ fun digits ↦
        ⟨3 + digits.length + 1, !isCodePoint digits⟩ := by
  rw [← bracedEscape_eq]
  rfl

/-- The letter of an escape that has a fixed number of digits. -/
def HasCount (letter : Char) (count : Nat) (after : List Char) : Prop :=
  letter = 'x' ∧ count = 2 ∨ letter = 'u' ∧ count = 4 ∧ ¬ "\x7b".toList <+: after

theorem HasCount.escape_eq {letter : Char} {count : Nat} {after : List Char}
    (h : HasCount letter count after) : escape ('\\' :: letter :: after) =
      fixedEscape count after := by
  rw [escape_cons, escapeRest]
  rcases h with ⟨rfl, rfl⟩ | ⟨rfl, rfl, hbracket⟩
  · rfl
  · rw [if_neg (by decide), if_pos rfl, if_neg (mt Text.startsWith_iff.1 hbracket)]

/-- What is said of an escape by what stands behind its backslash. -/
inductive Form : List Char → Escape → Prop
  | lone : Form [] ⟨1, true⟩
  | codePoint {digits rest : List Char} {erroneous : Bool} :
      IsEnclosed digits → (erroneous = false ↔ IsCode digits) →
        Form ('u' :: '\x7b' :: (digits ++ '\x7d' :: rest)) ⟨3 + digits.length + 1, erroneous⟩
  | openBracket {body : List Char} :
      (¬ ∃ digits rest, body = digits ++ '\x7d' :: rest ∧ IsEnclosed digits) →
        Form ('u' :: '\x7b' :: body) ⟨3, true⟩
  | fixed {letter : Char} {count : Nat} {taken rest : List Char} {erroneous : Bool} :
      HasCount letter count (taken ++ rest) →
      (∀ c ∈ taken, c.isAlphanum) → taken.length ≤ count →
      (taken.length = count ∨ Text.startsIn Char.isAlphanum rest = false) →
      (erroneous = false ↔ taken.length = count ∧ ∀ c ∈ taken, Text.isHexDigit c) →
        Form (letter :: (taken ++ rest)) ⟨2 + taken.length, erroneous⟩
  | octal {c : Char} {after : List Char} {n : Nat} :
      Text.isOctalDigit c → IsGreatest (octalLengths (c :: after)) n →
        Form (c :: after) ⟨1 + n, false⟩
  | lineEnd {after : List Char} : Form ('\r' :: '\n' :: after) ⟨3, false⟩
  | character {c : Char} {after : List Char} :
      c ∉ "xu".toList → Text.isOctalDigit c = false → ¬ "\r\n".toList <+: c :: after →
        Form (c :: after) ⟨2, false⟩

theorem escape_octal (hc : Text.isOctalDigit c) {after : List Char} {n : Nat}
    (hn : IsGreatest (octalLengths (c :: after)) n) :
    escape ('\\' :: c :: after) = ⟨1 + n, false⟩ := by
  have hx : c ≠ 'x' := fun hx ↦ absurd (hx ▸ hc) (by decide)
  have hu : c ≠ 'u' := fun hu ↦ absurd (hu ▸ hc) (by decide)
  rw [escape, if_neg hx, if_neg hu, if_pos hc, hn.unique (isGreatest_octalLengths hc after)]

theorem escape_character {after : List Char} (hletter : c ∉ "xu".toList)
    (hoctal : Text.isOctalDigit c = false) (hline : ¬ "\r\n".toList <+: c :: after) :
    escape ('\\' :: c :: after) = ⟨2, false⟩ := by
  have hx : c ≠ 'x' := fun hx ↦ hletter (hx ▸ by decide)
  have hu : c ≠ 'u' := fun hu ↦ hletter (hu ▸ by decide)
  have hreturn : ¬ (c = '\r' ∧ Text.startsWith "\n" after) := by
    rintro ⟨rfl, hnewline⟩
    exact hline (List.cons_prefix_cons.2 ⟨rfl, Text.startsWith_iff.1 hnewline⟩)
  rw [escape, if_neg hx, if_neg hu, if_neg (by simp [hoctal]), if_neg hreturn]

/-- The escape of every form is the one that the form says. -/
theorem Form.escape_eq (h : Form s found) : escape ('\\' :: s) = found := by
  cases h with
  | lone => rfl
  | codePoint hdigits herroneous =>
    rw [escape_openBracket, bracedDigits?_eq_some_iff.2 ⟨_, rfl, hdigits⟩, Option.elim_some]
    congr 1
    rw [← isCodePoint_iff] at herroneous
    rw [Bool.eq_iff_iff, Bool.not_eq_true', ← Bool.not_eq_true, ← herroneous, Bool.not_eq_false]
  | openBracket hopen =>
    have hnone : ∀ digits, bracedDigits? _ ≠ some digits :=
      fun digits hdigits ↦ hopen ⟨digits, bracedDigits?_eq_some_iff.1 hdigits⟩
    rw [escape_openBracket, Option.eq_none_iff_forall_ne_some.2 hnone, Option.elim_none]
  | @fixed letter count taken rest erroneous hcount halphanum hle hend herroneous =>
    have htaken := Text.takeWhile_take_eq_iff.2 ⟨rest, rfl, halphanum, hle, hend⟩
    rw [hcount.escape_eq, fixedEscape, htaken]
    congr 1
    rw [Bool.eq_iff_iff, ← not_iff_not, Bool.not_eq_true erroneous, herroneous]
    simp
  | octal hc hn => exact escape_octal hc hn
  | lineEnd => rfl
  | character hletter hoctal hline => exact escape_character hletter hoctal hline

theorem exists_verdict (p : Prop) : ∃ erroneous : Bool, erroneous = false ↔ p := by
  by_cases hp : p
  · exact ⟨false, iff_of_true rfl hp⟩
  · exact ⟨true, iff_of_false Bool.noConfusion hp⟩

theorem exists_form_fixed {letter : Char} {count : Nat} {after : List Char}
    (h : HasCount letter count after) : ∃ found, Form (letter :: after) found := by
  have htaken : (after.take count).takeWhile Char.isAlphanum = _ := rfl
  obtain ⟨rest, hsplit, halphanum, hle, hend⟩ := Text.takeWhile_take_eq_iff.1 htaken
  obtain ⟨erroneous, herroneous⟩ := exists_verdict _
  rw [hsplit] at h ⊢
  exact ⟨_, .fixed h halphanum hle hend herroneous⟩

/-- Every text behind a backslash has a form. -/
theorem exists_form (s : List Char) : ∃ found, Form s found := by
  cases s with
  | nil => exact ⟨_, .lone⟩
  | cons c after =>
    by_cases hletter : c ∈ "xu".toList
    · obtain rfl | rfl : c = 'x' ∨ c = 'u' := by simpa using hletter
      · exact exists_form_fixed (.inl ⟨rfl, rfl⟩)
      · by_cases hbracket : "\x7b".toList <+: after
        · obtain ⟨body, rfl⟩ := hbracket
          by_cases hclosed : ∃ digits rest, body = digits ++ '\x7d' :: rest ∧ IsEnclosed digits
          · obtain ⟨digits, rest, rfl, hdigits⟩ := hclosed
            obtain ⟨erroneous, herroneous⟩ := exists_verdict (IsCode digits)
            exact ⟨_, .codePoint hdigits herroneous⟩
          · exact ⟨_, .openBracket hclosed⟩
        · exact exists_form_fixed (.inr ⟨rfl, rfl, hbracket⟩)
    · by_cases hoctal : Text.isOctalDigit c
      · exact ⟨_, .octal hoctal (isGreatest_octalLengths hoctal after)⟩
      · by_cases hline : "\r\n".toList <+: c :: after
        · obtain ⟨rest, hrest⟩ := hline
          rw [← hrest]
          exact ⟨_, .lineEnd⟩
        · exact ⟨_, .character hletter (by simpa using hoctal) hline⟩

/-- An escape is what its form says, whatever stands behind the backslash. -/
theorem escape_eq_iff (s : List Char) (found : Escape) :
    escape ('\\' :: s) = found ↔ Form s found := by
  constructor
  · rintro rfl
    obtain ⟨found, hform⟩ := exists_form s
    rwa [hform.escape_eq]
  · exact Form.escape_eq

end Highlight.JavaScript
