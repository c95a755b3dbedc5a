import Highlight.Proofs.JavaScript.Steady
import Highlight.Proofs.Text.Longest

/-!
# The regular expressions of scripts

A regular expression is measured with one flag, which tells whether the place lies in a class. The
grammar has classes as parts of a body instead. Both agree because the flag says what must still
come: the rest of a class and then the rest of a body, or the rest of a body alone. A bracket that
opens a class inside of one and a bracket that closes one outside leave the flag as it is, and in
the grammar they are plain characters there. No body goes past the slash that the measure stops at,
so only the flags can be too short, and the longest ones are taken.
-/

namespace Highlight.JavaScript

open Text (IsLongest)

variable {c : Char} {inClass : Bool} {n : Nat} {s t u : List Char}

namespace Grammar

/-- A class behind its opening bracket, up to the first bracket that no backslash protects. -/
inductive ClassRest : List Char → Prop
  | close : ClassRest [']']
  | escaped {c : Char} {s : List Char} : isLineTerminator c = false → ClassRest s →
      ClassRest ('\\' :: c :: s)
  | plain {c : Char} {s : List Char} : c ≠ ']' → c ≠ '\\' → isLineTerminator c = false →
      ClassRest s → ClassRest (c :: s)

inductive RegexParts : List Char → Prop
  | nil : RegexParts []
  | escaped {c : Char} {s : List Char} : isLineTerminator c = false → RegexParts s →
      RegexParts ('\\' :: c :: s)
  | charClass {s t : List Char} : ClassRest s → RegexParts t → RegexParts ('[' :: (s ++ t))
  | plain {c : Char} {s : List Char} : c ∉ ['\\', '/', '['] → isLineTerminator c = false →
      RegexParts s → RegexParts (c :: s)

inductive Regex [Text.IdentifierClasses] : List Char → Prop
  | mk {body flags : List Char} : RegexParts body → body ≠ [] → body.head? ≠ some '*' →
      (∀ c ∈ flags, isIdentifierPart c) → Regex ('/' :: (body ++ '/' :: flags))

end Grammar

open Grammar

/-- What must still come before the closing slash at a place that may lie in a class. -/
inductive RegexRest : (inClass : Bool) → List Char → Prop
  | outside {s : List Char} : RegexParts s → RegexRest false s
  | inside {s t : List Char} : ClassRest s → RegexParts t → RegexRest true (s ++ t)

namespace RegexRest

theorem escaped (hc : isLineTerminator c = false) (h : RegexRest inClass s) :
    RegexRest inClass ('\\' :: c :: s) := by
  cases h with
  | outside hs => exact .outside (.escaped hc hs)
  | inside hs ht => exact .inside (.escaped hc hs) ht

theorem opening (h : RegexRest true s) : RegexRest inClass ('[' :: s) := by
  cases h with
  | inside hs ht =>
    cases inClass with
    | false => exact .outside (.charClass hs ht)
    | true => exact .inside (.plain (by decide) (by decide) (by decide) hs) ht

theorem closing (h : RegexRest false s) : RegexRest inClass (']' :: s) := by
  cases h with
  | outside hs =>
    cases inClass with
    | false => exact .outside (.plain (by decide) (by decide) hs)
    | true => exact .inside .close hs

theorem plain (hbackslash : c ≠ '\\') (hopening : c ≠ '[') (hclosing : c ≠ ']')
    (hslash : c = '/' → inClass) (hline : isLineTerminator c = false)
    (h : RegexRest inClass s) : RegexRest inClass (c :: s) := by
  cases h with
  | outside hs =>
    have hplain : c ∉ ['\\', '/', '['] := by
      simpa [hbackslash, hopening] using fun hc ↦ Bool.false_ne_true (hslash hc)
    exact .outside (.plain hplain hline hs)
  | inside hs ht => exact .inside (.plain hclosing hbackslash hline hs) ht

end RegexRest

variable [Text.IdentifierClasses]

theorem regexLengthFrom_escaped (hc : isLineTerminator c = false) (inClass : Bool) (n : Nat)
    (s : List Char) :
    regexLengthFrom inClass n ('\\' :: c :: s) = regexLengthFrom inClass (n + 2) s := by
  have hbackslash : isLineTerminator '\\' = false := by decide
  simp [regexLengthFrom, hbackslash, hc]

theorem Grammar.ClassRest.regexLengthFrom_append (h : ClassRest s) (n : Nat) (r : List Char) :
    regexLengthFrom true n (s ++ r) = regexLengthFrom false (n + s.length) r := by
  induction h generalizing n with
  | close => exact regexLengthFrom_cons (by decide) true n r
  | @escaped c s hc hs ih =>
    rw [List.cons_append, List.cons_append, regexLengthFrom_escaped hc, ih, Nat.add_assoc,
      Nat.add_comm 2]
    rfl
  | @plain c s hclosing hbackslash hline hs ih =>
    rw [List.cons_append, regexLengthFrom_cons hbackslash, hline, List.length_cons,
      Nat.add_comm s.length, ← Nat.add_assoc, ← ih]
    simp [hclosing]

theorem Grammar.RegexParts.regexLengthFrom_append (h : RegexParts s) (n : Nat) (r : List Char) :
    regexLengthFrom false n (s ++ r) = regexLengthFrom false (n + s.length) r := by
  induction h generalizing n with
  | nil => rfl
  | @escaped c s hc hs ih =>
    rw [List.cons_append, List.cons_append, regexLengthFrom_escaped hc, ih, Nat.add_assoc,
      Nat.add_comm 2]
    rfl
  | @charClass s t hs ht ih =>
    have hopening (s : List Char) :
        regexLengthFrom false n ('[' :: s) = regexLengthFrom true (n + 1) s :=
      regexLengthFrom_cons (by decide) false n s
    rw [List.cons_append, List.append_assoc, hopening, hs.regexLengthFrom_append, ih,
      List.length_cons, List.length_append]
    congr 1
    omega
  | @plain c s hplain hline hs ih =>
    obtain ⟨hbackslash, hslash, hopening⟩ : c ≠ '\\' ∧ c ≠ '/' ∧ c ≠ '[' := by
      simpa using hplain
    rw [List.cons_append, regexLengthFrom_cons hbackslash, hline, List.length_cons,
      Nat.add_comm s.length, ← Nat.add_assoc, ← ih]
    simp [hslash, hopening]

/-- Behind its body a regular expression ends with the flags that the text has. -/
theorem regexLengthFrom_slash (n : Nat) (s : List Char) :
    regexLengthFrom false n ('/' :: s) = n + 1 + Text.spanLength isIdentifierPart s :=
  regexLengthFrom_cons (by decide) false n s

omit [Text.IdentifierClasses] in
/-- No part of a body is a slash. -/
theorem Grammar.RegexParts.ne_slash (h : RegexParts (c :: s)) : c ≠ '/' := by
  cases h with
  | escaped _ _ => decide
  | charClass _ _ => decide
  | plain hplain _ _ =>
    rintro rfl
    exact absurd hplain (by decide)

theorem Grammar.Regex.length_le (h : Regex u) (r : List Char) :
    u.length ≤ regexLength (u ++ r) := by
  obtain @⟨body, flags, hbody, hne, hstar, hflags⟩ := h
  obtain ⟨c, s, rfl⟩ := List.exists_cons_of_ne_nil hne
  have hopens : Text.startsIn (fun c ↦ c == '/' || c == '*') (c :: s ++ '/' :: (flags ++ r)) =
      false := by
    have hslash : c ≠ '/' := hbody.ne_slash
    have hstar : c ≠ '*' := by simpa using hstar
    simp [hslash, hstar]
  have hlength := Text.length_le_spanLength (List.prefix_append flags r) hflags
  have hsplit : '/' :: (c :: s ++ '/' :: flags) ++ r = '/' :: (c :: s ++ '/' :: (flags ++ r)) := by
    simp
  rw [hsplit, regexLength, if_pos ⟨rfl, by rw [hopens]; rfl⟩, hbody.regexLengthFrom_append,
    regexLengthFrom_slash]
  simp only [List.length_cons, List.length_append] at hlength ⊢
  omega

/-- The text comes to a closing slash, and with the flags behind it `n` characters become `m`. -/
def EndsAtSlash (inClass : Bool) (n m : Nat) (s : List Char) : Prop :=
  ∃ t r, s = t ++ '/' :: r ∧ RegexRest inClass t ∧
    m = n + t.length + 1 + Text.spanLength isIdentifierPart r

theorem EndsAtSlash.behind {before : Bool} {m : Nat}
    (hu : ∀ t, RegexRest inClass t → RegexRest before (u ++ t))
    (h : EndsAtSlash inClass (n + u.length) m s) : EndsAtSlash before n m (u ++ s) := by
  obtain ⟨t, r, rfl, ht, rfl⟩ := h
  refine ⟨u ++ t, r, (List.append_assoc u t _).symm, hu t ht, ?_⟩
  rw [List.length_append, ← Nat.add_assoc]

/-- What the measure takes comes to a slash that closes it. -/
theorem endsAtSlash_regexLengthFrom (inClass : Bool) (n : Nat) (s : List Char)
    (h : regexLengthFrom inClass n s ≠ 0) :
    EndsAtSlash inClass n (regexLengthFrom inClass n s) s := by
  fun_induction regexLengthFrom inClass n s with
  | case1 | case2 | case3 | case4 => exact absurd rfl h
  | case5 inClass n d rest hd _ ih =>
    rw [Bool.not_eq_true] at hd
    exact (ih h).behind (u := ['\\', d]) fun _ ↦ .escaped hd
  | case6 inClass n s _ _ ih => exact (ih h).behind (u := ['[']) fun _ ↦ .opening
  | case7 inClass n s _ _ _ ih => exact (ih h).behind (u := [']']) fun _ ↦ .closing
  | case8 inClass n c s hline hbackslash hopening hclosing hslash =>
    obtain ⟨rfl, hout⟩ := hslash
    obtain rfl : inClass = false := by simpa using hout
    exact ⟨[], s, rfl, .outside .nil, rfl⟩
  | case9 inClass n c s hline hbackslash hopening hclosing hslash ih =>
    rw [Bool.not_eq_true] at hline
    refine (ih h).behind (u := [c]) fun _ ↦ .plain hbackslash hopening hclosing ?_ hline
    simpa using hslash

/-- What is measured is a regular expression in the sense of the grammar. -/
theorem regex_take (h : regexLength s ≠ 0) : Regex (s.take (regexLength s)) := by
  cases s with
  | nil => exact absurd rfl h
  | cons c s =>
    rw [regexLength] at h ⊢
    split_ifs at h ⊢ with hopens
    · obtain ⟨rfl, hopens⟩ := hopens
      obtain ⟨body, r, rfl, ⟨hbody⟩, hlength⟩ := endsAtSlash_regexLengthFrom false 1 s h
      have hsplit : '/' :: (body ++ '/' :: r) = '/' :: (body ++ ['/']) ++ r := by simp
      have hframe : 1 + body.length + 1 = ('/' :: (body ++ ['/'])).length := by
        rw [List.length_cons, List.length_append, Nat.add_comm 1]
        rfl
      rw [hlength, hsplit, hframe, List.take_length_add_append, List.cons_append,
        List.append_assoc]
      refine .mk hbody ?_ ?_ Text.forall_mem_take_spanLength
      · rintro rfl
        simp at hopens
      · intro hstar
        obtain ⟨rest, rfl⟩ := List.head?_eq_some_iff.1 hstar
        simp at hopens
    · exact absurd rfl h

/-- A regular expression is as long as the longest front of the text that the grammar derives, and
nothing is measured exactly where it derives none. -/
theorem regexLength_eq_iff_longest (s : List Char) (n : Nat) :
    regexLength s = n ↔ IsLongest Regex s n :=
  (Text.isLongest_of_complete regexLength_le nofun (fun _ ↦ regex_take)
    (fun _ r h ↦ h.length_le r) s).eq_iff

-- In a class a slash and an opening bracket are plain characters.
example : regexLength "/[/[]]/".toList = 7 := by cbv

end Highlight.JavaScript
