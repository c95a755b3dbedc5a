import Highlight.Proofs.Json.Item

/-!
# Words of JSON as the grammar has them

A number is measured in full where nothing follows that could continue it. A string is measured up
to its closing quote, and its second pass cuts it into the parts that the grammar has; whether it
names a member is decided by what follows. The names and the structural characters need no more than
what was found out about items.
-/

namespace Highlight.Json

open Grammar
open Piece (lasting textOf)

variable {r s t : List Char} {ps : List (Piece Kind)}

theorem ne_of_isDigit {c d : Char} (hc : c.isDigit) (hd : d.isDigit = false) : c ≠ d := by
  rintro rfl
  exact absurd hc (by rw [hd]; exact Bool.false_ne_true)

theorem integerLength_append (h : Integer s) (hr : Text.startsIn Char.isDigit r = false) :
    integerLength (s ++ r) = s.length := by
  cases h with
  | zero => rfl
  | @positive c s hc hzero hs =>
    have hspan : Text.spanLength Char.isDigit (s ++ r) = s.length :=
      Text.spanLength_append_iff.2 ⟨hs, hr⟩
    rw [List.cons_append, integerLength, if_neg hzero, if_pos hc, hspan, List.length_cons,
      Nat.add_comm]

theorem fractionLength_append (h : Fraction s) (hdigit : Text.startsIn Char.isDigit r = false)
    (hpoint : Text.startsIn (· == '.') r = false) : fractionLength (s ++ r) = s.length := by
  cases h with
  | absent =>
    have hnone : Text.startsWith "." r = false := by
      rw [Bool.eq_false_iff, ne_eq, Text.startsWith_iff]
      rintro ⟨rest, rfl⟩
      exact absurd hpoint (by simp)
    rw [List.nil_append, fractionLength, if_neg (by rw [hnone]; exact Bool.false_ne_true)]
    rfl
  | @mk digits hdigits =>
    have hspan : Text.spanLength Char.isDigit (digits ++ r) = digits.length :=
      Text.spanLength_append_iff.2 ⟨hdigits.2, hdigit⟩
    have hstart : Text.startsWith "." ('.' :: (digits ++ r)) :=
      Text.startsWith_iff.2 (List.prefix_append ['.'] (digits ++ r))
    have hpos : digits.length ≠ 0 := List.length_eq_zero_iff.not.2 hdigits.1
    simp [fractionLength, hstart, hspan, hpos, Nat.add_comm]

def Sign (s : List Char) : Prop := s = [] ∨ s = ['+'] ∨ s = ['-']

def signLength (s : List Char) : Nat :=
  if Text.startsIn (fun c ↦ c == '+' || c == '-') s then 1 else 0

theorem sign_take (s : List Char) : Sign (s.take (signLength s)) := by
  cases s with
  | nil => exact .inl List.take_nil
  | cons c s =>
    rw [signLength, Text.startsIn_cons]
    split_ifs with hsign
    · obtain rfl | rfl : c = '+' ∨ c = '-' := by simpa using hsign
      · exact .inr (.inl rfl)
      · exact .inr (.inr rfl)
    · exact .inl List.take_zero

theorem signLength_append (hsign : Sign s) (h : Digits t) (r : List Char) :
    signLength (s ++ (t ++ r)) = s.length := by
  rcases hsign with rfl | rfl | rfl
  · obtain ⟨c, t, rfl⟩ := List.exists_cons_of_ne_nil h.1
    have hc := h.2 c List.mem_cons_self
    simp [signLength, ne_of_isDigit (d := '+') hc (by decide),
      ne_of_isDigit (d := '-') hc (by decide)]
  · rfl
  · rfl

theorem exponentLength_cons {c : Char} (hmark : c = 'e' ∨ c = 'E') (s : List Char) :
    exponentLength (c :: s) =
      let digits := Text.spanLength Char.isDigit (s.drop (signLength s))
      if digits = 0 then 0 else 1 + signLength s + digits := by
  have hstart : Text.startsIn (fun c ↦ c == 'e' || c == 'E') (c :: s) := by
    rcases hmark with rfl | rfl <;> rfl
  rw [exponentLength, if_pos hstart]
  simp only [Nat.add_comm 1, List.drop_succ_cons]
  rfl

theorem exponentLength_append (h : Exponent s) (hdigit : Text.startsIn Char.isDigit r = false)
    (hmark : Text.startsIn (fun c ↦ c == 'e' || c == 'E') r = false) :
    exponentLength (s ++ r) = s.length := by
  cases h with
  | absent =>
    rw [List.nil_append, exponentLength, if_neg (by rw [hmark]; exact Bool.false_ne_true)]
    rfl
  | @mk mark sign digits hmark hsign hdigits =>
    have hspan : Text.spanLength Char.isDigit (digits ++ r) = digits.length :=
      Text.spanLength_append_iff.2 ⟨hdigits.2, hdigit⟩
    have hpos : digits.length ≠ 0 := List.length_eq_zero_iff.not.2 hdigits.1
    rw [List.cons_append, List.append_assoc, exponentLength_cons hmark,
      signLength_append hsign hdigits, List.drop_left, hspan, List.length_cons, List.length_append]
    simp only [if_neg hpos]
    omega

/-- What may continue a number. -/
def continuesNumber (c : Char) : Bool := c.isDigit || c == '.' || c == 'e' || c == 'E'

theorem exists_integer_eq_cons (h : Integer s) : ∃ c t, s = c :: t ∧ c.isDigit := by
  cases h with
  | zero => exact ⟨'0', [], rfl, by decide⟩
  | @positive c t hc _ _ => exact ⟨c, t, rfl, hc⟩

/-- A number is measured in full where nothing continues it. -/
theorem numberLength_append (h : Number s) (hr : Text.startsIn continuesNumber r = false) :
    numberLength (s ++ r) = s.length := by
  obtain @⟨minus, integer, fraction, exponent, hminus, hinteger, hfraction, hexponent⟩ := h
  have hrest {p : Char → Bool} (hp : ∀ c, p c → continuesNumber c) : Text.startsIn p r = false := by
    cases r with
    | nil => rfl
    | cons c r => exact Bool.eq_false_iff.2 fun hc ↦ Bool.eq_false_iff.1 hr (hp c hc)
  have hdigit : Text.startsIn Char.isDigit r = false :=
    hrest fun c hc ↦ by simp [continuesNumber, hc]
  have hpoint : Text.startsIn (· == '.') r = false :=
    hrest fun c hc ↦ by simp_all [continuesNumber]
  have hmark : Text.startsIn (fun c ↦ c == 'e' || c == 'E') r = false :=
    hrest fun c hc ↦ by
      rcases by simpa using hc with rfl | rfl <;> rfl
  have hbehind : Text.startsIn Char.isDigit (exponent ++ r) = false ∧
      Text.startsIn (· == '.') (exponent ++ r) = false := by
    cases hexponent with
    | absent => exact ⟨hdigit, hpoint⟩
    | mk hmark _ _ => rcases hmark with rfl | rfl <;> exact ⟨rfl, rfl⟩
  have hpointed : Text.startsIn Char.isDigit (fraction ++ (exponent ++ r)) = false := by
    cases hfraction with
    | absent => exact hbehind.1
    | mk _ => rfl
  have hexponentLength := exponentLength_append hexponent hdigit hmark
  have hfractionLength := fractionLength_append hfraction hbehind.1 hbehind.2
  have hintegerLength := integerLength_append hinteger hpointed
  have hsign : (if Text.startsWith "-" (minus ++ (integer ++ (fraction ++ (exponent ++ r))))
      then 1 else 0) = minus.length := by
    rcases hminus with rfl | rfl
    · obtain ⟨c, t, rfl, hc⟩ := exists_integer_eq_cons hinteger
      rw [if_neg]
      · rfl
      · rw [Text.startsWith_iff]
        rintro ⟨rest, hstart⟩
        exact ne_of_isDigit hc (by decide) (List.cons.inj hstart).1.symm
    · rfl
  have hpos : integer.length ≠ 0 := by
    obtain ⟨c, t, rfl, -⟩ := exists_integer_eq_cons hinteger
    exact Nat.succ_ne_zero _
  have hsource : minus ++ integer ++ fraction ++ exponent ++ r =
      minus ++ (integer ++ (fraction ++ (exponent ++ r))) := by
    simp only [List.append_assoc]
  rw [hsource, numberLength]
  simp only [hsign, List.drop_left, hintegerLength, if_neg hpos, ← List.drop_drop, hfractionLength,
    hexponentLength, List.length_append]

theorem leaves_number (h : Number s) (hr : Text.startsIn continuesNumber r = false) :
    number.Leaves [.token .number s] r := by
  have htext : textOf [(.token .number s : Piece Kind)] = s := List.append_nil s
  have hlength := numberLength_append h hr
  have hne : s.length ≠ 0 := by
    obtain @⟨minus, integer, fraction, exponent, -, hinteger, -, -⟩ := h
    obtain ⟨c, t, rfl, -⟩ := exists_integer_eq_cons hinteger
    simp
  refine ⟨[.token .number s], Construct.measured_eq_some.2 ⟨?_, ?_⟩, rfl⟩
  · rw [htext, hlength]
    exact hne
  · rw [htext, hlength, List.take_left]

theorem isPlain_of_isUnescaped {c : Char} (h : IsUnescaped c) : IsPlain c := by
  obtain ⟨hle, hquote, hbackslash⟩ := h
  have hend : isLineEnd c = false :=
    isLineEnd_eq_false (p := (' ' ≤ ·)) (decide_eq_true hle) (by decide) (by decide)
  exact ⟨hquote, hend, hbackslash⟩

/-- Over characters that begin no escape the running part gets longer. -/
theorem stringPartsFrom_append (kind : Kind) (front : List Char) {part : List Char}
    (hpart : ∀ c ∈ part, c ≠ '\\') (left : Nat) (s : List Char) :
    stringPartsFrom kind [] front (part.length + left) (part ++ s) =
      stringPartsFrom kind [] (part.reverse ++ front) left s := by
  induction part generalizing front with
  | nil => rw [List.length_nil, Nat.zero_add]; rfl
  | cons c part ih =>
    obtain ⟨hc, hpart⟩ := List.forall_mem_cons.1 hpart
    have hlength : (c :: part).length + left = part.length + left + 1 := by
      rw [List.length_cons]
      omega
    rw [hlength, List.cons_append, stringPartsFrom, if_neg (fun hescape ↦ hc hescape.1),
      ih (c :: front) hpart, List.reverse_cons, List.append_assoc]
    rfl

/-- At an escape the running part ends, and behind it a new one begins. -/
theorem stringPartsFrom_escape (kind : Kind) (part : List Char) {escape : List Char}
    (h : Escape escape) (left : Nat) (s : List Char) :
    stringPartsFrom kind [] part (escape.length + left) (escape ++ s) =
      Piece.shown kind part.reverse ++
        .token .escape escape :: stringPartsFrom kind [] [] left s := by
  obtain ⟨c, text, hescape⟩ : ∃ c text, escape = '\\' :: c :: text := by
    cases h with
    | short _ => exact ⟨_, _, rfl⟩
    | code _ _ => exact ⟨_, _, rfl⟩
  have hlength : escape.length = text.length + 2 := by
    rw [hescape, List.length_cons, List.length_cons]
  have hleft : escape.length + left = text.length + 1 + left + 1 := by omega
  have hbehind : text.length + 1 + left + 1 - escape.length = left := by omega
  have hsplit : escape ++ s = '\\' :: (c :: text ++ s) := by
    rw [hescape]
    rfl
  have hne : escape.length ≠ 0 := by omega
  rw [hleft, hsplit, stringPartsFrom, if_pos ⟨rfl, by omega⟩, stringPartsFrom_eq, ← hsplit]
  simp only [escapeLength_append h, if_neg hne, List.take_left, List.drop_left, hbehind]
  simp

/-- What the first and the second pass over the rest of a string find. -/
theorem read_stringParts {label : Kind} {opening : List Char} (h : StringParts label opening ps) :
    ∃ body, textOf ps = opening ++ body ∧
      (∀ n r, stringExtentFrom n (body ++ r) = ⟨n + body.length, true⟩) ∧
      ∀ r, stringPartsFrom label [] opening.reverse body.length (body ++ r) = ps := by
  induction h with
  | @close opening part hpart =>
    refine ⟨part ++ ['"'], ?_, fun n r ↦ ?_, fun r ↦ ?_⟩
    · rw [Piece.textOf_shown, List.append_assoc]
    · rw [List.append_assoc, stringExtentFrom_append fun c hc ↦ isPlain_of_isUnescaped (hpart c hc),
        List.length_append, ← Nat.add_assoc]
      exact stringExtentFrom_quote _ r
    · rw [List.length_append, List.append_assoc,
        stringPartsFrom_append label _ fun c hc ↦ (hpart c hc).2.2]
      simp [stringPartsFrom]
  | @escape opening part escape rest hpart hescape _ ih =>
    obtain ⟨body, htext, hextent, hparts⟩ := ih
    refine ⟨part ++ (escape ++ body), ?_, fun n r ↦ ?_, fun r ↦ ?_⟩
    · rw [Piece.textOf_append, Piece.textOf_shown, Piece.textOf_cons, htext, Piece.text]
      simp
    · rw [List.append_assoc, List.append_assoc,
        stringExtentFrom_append fun c hc ↦ isPlain_of_isUnescaped (hpart c hc),
        stringExtentFrom_escape_append hescape, hextent]
      simp [Nat.add_assoc]
    · rw [List.length_append, List.length_append, List.append_assoc, List.append_assoc,
        stringPartsFrom_append label _ fun c hc ↦ (hpart c hc).2.2,
        stringPartsFrom_escape label _ hescape]
      have hrest := hparts r
      rw [List.reverse_nil] at hrest
      rw [hrest, List.reverse_append, List.reverse_reverse, List.reverse_reverse]

theorem lasting_stringParts {label : Kind} {opening : List Char}
    (h : StringParts label opening ps) : lasting ps = ps := by
  induction h with
  | close _ => exact Piece.lasting_shown _ _
  | escape _ _ _ ih => rw [Piece.lasting_append, Piece.lasting_shown, Piece.lasting_token, ih]

/-- A string of the grammar is read where what follows asks for its label. -/
theorem leaves_string {label : Kind} (h : Grammar.String label ps)
    (hlabel : stringKind true r = label) : string.Leaves ps r := by
  obtain ⟨body, htext, hextent, hparts⟩ := read_stringParts h
  have hsource : textOf ps ++ r = '"' :: (body ++ r) := by rw [htext]; rfl
  have hstring : stringExtent ('"' :: (body ++ r)) = ⟨1 + body.length, true⟩ := hextent 1 r
  have hlength : (stringExtent ('"' :: (body ++ r))).length ≠ 0 := by
    rw [hstring]
    exact Nat.ne_of_gt (Nat.lt_add_right _ Nat.zero_lt_one)
  obtain ⟨rest, hrest, -, hread⟩ := stringParts_eq label hlength
  obtain rfl := (List.cons.inj hrest).2
  have hdrop : ('"' :: (body ++ r)).drop (1 + body.length) = r := by
    rw [Nat.add_comm, List.drop_succ_cons, List.drop_left]
  refine ⟨ps, ?_, lasting_stringParts h⟩
  rw [hsource, string]
  simp only [if_neg hlength]
  rw [hstring] at hread ⊢
  simp only at hread ⊢
  rw [hdrop, hlabel, hread, hextent, Nat.zero_add]
  exact congrArg some (hparts r)

end Highlight.Json
