import Highlight.Proofs.JavaScript.Settled
import Highlight.Proofs.Text.Digit

/-!
# Names and what stands behind them

A name that ends within a text ends there whatever follows the text, and a character that is in no
name ends every name. White space is in no name.
-/

namespace Highlight

namespace Text

variable {p first next : Char → Bool} {length : List Char → Nat} {s : List Char} {c : Char}

/-- What ends within the text ends there whatever follows. -/
theorem Greedy.append (h : Greedy length) (hlt : length s < s.length) (t : List Char) :
    length (s ++ t) = length s := by
  have hcut := h s t
  omega

theorem spanLength_append_cons (hc : p c = false) (s r : List Char) :
    spanLength p (s ++ c :: r) = spanLength p s := by
  induction s with
  | nil => simp [spanLength_cons, hc]
  | cons d s ih => rw [List.cons_append, spanLength_cons, spanLength_cons, ih]

theorem wordLength_append_cons (hfirst : first c = false) (hnext : next c = false)
    (s r : List Char) : wordLength first next (s ++ c :: r) = wordLength first next s := by
  cases s with
  | nil => simp [wordLength, hfirst]
  | cons d s => rw [List.cons_append, wordLength, wordLength, spanLength_append_cons hnext]

variable [Text.IdentifierClasses]

theorem isIdentifierStart_of_isBlank (h : isBlank c ∨ c = '\uFEFF') :
    isIdentifierStart c = false := by
  by_cases hc : c.toNat < 0x80
  · rw [isIdentifierStart_of_ascii hc]
    revert h
    refine of_ascii (p := fun c ↦ isBlank c ∨ c = '\uFEFF' → c.isAlpha = false) ?_ hc
    decide +kernel
  · rw [isIdentifierStart, if_neg hc]
    exact (IdentifierClasses.apart c h).1

theorem isIdentifierContinue_of_isBlank (h : isBlank c ∨ c = '\uFEFF') :
    isIdentifierContinue c = false := by
  by_cases hc : c.toNat < 0x80
  · rw [isIdentifierContinue_of_ascii hc]
    revert h
    refine of_ascii (p := fun c ↦ isBlank c ∨ c = '\uFEFF' →
      (c.isAlphanum || c == '_') = false) ?_ hc
    decide +kernel
  · rw [isIdentifierContinue, if_neg hc]
    exact (IdentifierClasses.apart c h).2

end Text

namespace JavaScript

theorem isBlank_of_isSpace {c : Char} (h : isSpace c) : Text.isBlank c ∨ c = '\uFEFF' := by
  have hlisted : ['\t', '\x0B', '\x0C', ' ', '\u00A0', '\n', '\r', '\u2028', '\u2029'].all
      Text.isBlank := by
    decide +kernel
  simp only [isSpace, isLineTerminator, Bool.or_eq_true, beq_iff_eq, Bool.and_eq_true] at h
  rw [List.all_eq_true] at hlisted
  by_cases hblank : c ∈ ['\t', '\x0B', '\x0C', ' ', '\u00A0', '\n', '\r', '\u2028', '\u2029']
  · exact .inl (hlisted c hblank)
  · simp only [List.mem_cons, List.not_mem_nil, or_false, not_or] at hblank
    grind

theorem ne_of_isSpace {c : Char} (h : isSpace c) :
    c ∉ ['$', '_', '\u200C', '\u200D', '-', ':', '.'] := by
  have hsigns : ['$', '_', '\u200C', '\u200D', '-', ':', '.'].all fun d ↦ !isSpace d := by
    decide +kernel
  intro hmem
  have hsign := List.all_eq_true.1 hsigns c hmem
  rw [h] at hsign
  exact absurd hsign Bool.false_ne_true

variable [Text.IdentifierClasses]

theorem isIdentifierStart_of_isSpace {c : Char} (h : isSpace c) : isIdentifierStart c = false := by
  have hsigns := ne_of_isSpace h
  simp only [List.mem_cons, not_or] at hsigns
  simp [isIdentifierStart, Text.isIdentifierStart_of_isBlank (isBlank_of_isSpace h), hsigns]

theorem isIdentifierPart_of_isSpace {c : Char} (h : isSpace c) : isIdentifierPart c = false := by
  have hsigns := ne_of_isSpace h
  simp only [List.mem_cons, not_or] at hsigns
  simp [isIdentifierPart, Text.isIdentifierContinue_of_isBlank (isBlank_of_isSpace h), hsigns]

/-- A character that no name contains. -/
structure EndsName (c : Char) : Prop where
  start : isIdentifierStart c = false
  part : isIdentifierPart c = false
  sign : c ∉ ['-', ':', '.']

theorem endsName_of_isSpace {c : Char} (h : isSpace c) : EndsName c where
  start := isIdentifierStart_of_isSpace h
  part := isIdentifierPart_of_isSpace h
  sign hmem := ne_of_isSpace h (List.mem_of_mem_drop (i := 4) hmem)

theorem endsName_slash : EndsName '/' where
  start := isIdentifierStart_mark '/' (by decide)
  part := rfl
  sign := by decide

section

variable {c : Char} (hc : EndsName c)

include hc

theorem identifierLength_append_cons (s r : List Char) :
    identifierLength (s ++ c :: r) = identifierLength s :=
  Text.wordLength_append_cons hc.start hc.part s r

theorem markupIdentifierLength_append_cons (s r : List Char) :
    markupIdentifierLength (s ++ c :: r) = markupIdentifierLength s := by
  refine Text.wordLength_append_cons hc.start ?_ s r
  rw [hc.part, Bool.false_or, beq_eq_false_iff_ne]
  exact fun hsign ↦ hc.sign (hsign ▸ List.mem_cons_self)

theorem startsWith_append_cons {lit : String} {d : Char} (hlit : lit.toList = [d])
    (hd : d ∈ ['-', ':', '.']) (s r : List Char) :
    Text.startsWith lit (s ++ c :: r) = Text.startsWith lit s := by
  rw [Text.startsWith_single hlit, Text.startsWith_single hlit, Text.startsIn_append_cons]
  rw [beq_eq_false_iff_ne]
  exact fun hsign ↦ hc.sign (hsign ▸ hd)

/-- A character that no name contains ends the members of a name. -/
theorem membersLengthFrom_append_cons (n : Nat) (s r : List Char) :
    membersLengthFrom n (s ++ c :: r) = membersLengthFrom n s := by
  have hsame (d : Char) (rest : List Char) :
      Text.startsWith "." (d :: (rest ++ c :: r)) = Text.startsWith "." (d :: rest) :=
    startsWith_append_cons hc rfl (by decide) (d :: rest) r
  fun_induction membersLengthFrom n s with
  | case1 n =>
    have hpoint : Text.startsWith "." (c :: r) = false :=
      startsWith_append_cons hc rfl (by decide) [] r
    rw [List.nil_append, membersLengthFrom, hpoint, if_neg Bool.false_ne_true]
  | case2 n d rest hpoint m hm =>
    rw [List.cons_append, membersLengthFrom, hsame, if_pos hpoint,
      identifierLength_append_cons hc]
    exact if_pos hm
  | case3 n d rest hpoint m hm ih =>
    have hle : identifierLength rest ≤ rest.length := Text.wordLength_le rest
    rw [List.cons_append, membersLengthFrom, hsame, if_pos hpoint,
      identifierLength_append_cons hc]
    simp only
    rw [if_neg hm, Text.drop_append hle, ih]
  | case4 n d rest hpoint =>
    rw [List.cons_append, membersLengthFrom, hsame, if_neg hpoint]

/-- A character that no name contains ends a name. -/
theorem qualifiedLength_append_cons {tail : List Char → Option Nat}
    (htail : ∀ s r, tail (s ++ c :: r) = tail s) (s r : List Char) :
    qualifiedLength tail (s ++ c :: r) = qualifiedLength tail s := by
  have hafter (rest : List Char) : afterName tail (rest ++ c :: r) = afterName tail rest := by
    have hcolon : Text.startsWith ":" (rest ++ c :: r) = Text.startsWith ":" rest :=
      startsWith_append_cons hc rfl (by decide) rest r
    unfold afterName
    rw [hcolon, htail]
    by_cases hlocal : Text.startsWith ":" rest
    · have hone : 1 ≤ rest.length := Text.length_le_of_startsWith hlocal
      rw [Text.drop_append hone, markupIdentifierLength_append_cons hc]
    · rw [if_neg hlocal, if_neg hlocal]
  have hle : markupIdentifierLength s ≤ s.length := Text.wordLength_le s
  rw [qualifiedLength_eq, qualifiedLength_eq, markupIdentifierLength_append_cons hc,
    Text.drop_append hle, hafter]

/-- What is in no name does not change the name in front of it. -/
theorem tagNameLength_append_cons (s r : List Char) :
    tagNameLength (s ++ c :: r) = tagNameLength s :=
  qualifiedLength_append_cons hc (membersLengthFrom_append_cons hc 0) s r

theorem attributeNameLength_append_cons (s r : List Char) :
    attributeNameLength (s ++ c :: r) = attributeNameLength s :=
  qualifiedLength_append_cons hc (fun _ _ ↦ rfl) s r

end

theorem membersLengthFrom_append {n m : Nat} {s : List Char} (h : membersLengthFrom n s = some m)
    (hlt : m < n + s.length) (t : List Char) : membersLengthFrom n (s ++ t) = some m := by
  fun_induction membersLengthFrom n s with
  | case1 n =>
    obtain rfl := Option.some.inj h
    exact absurd hlt (Nat.lt_irrefl _)
  | case2 n d rest hpoint k hk => simp at h
  | case3 n d rest hpoint k hk ih =>
    have hge := le_membersLengthFrom h
    rw [List.length_cons] at hlt
    have hlength : k < rest.length := by omega
    have hname : identifierLength (rest ++ t) = k := greedy_identifierLength.append hlength t
    have hrest := ih h (by rw [List.length_drop]; omega)
    rw [List.cons_append, membersLengthFrom, ← List.cons_append,
      Text.startsWith_append "." (Nat.le_add_left 1 _), if_pos hpoint, hname]
    simp only
    rw [if_neg hk, Text.drop_append (Nat.le_of_lt hlength), hrest]
  | case4 n d rest hpoint =>
    rw [List.cons_append, membersLengthFrom, ← List.cons_append,
      Text.startsWith_append "." (Nat.le_add_left 1 _), if_neg hpoint, h]

section

variable {tail : List Char → Option Nat}
  (htail : ∀ s m, tail s = some m → m < s.length → ∀ t, tail (s ++ t) = some m)

include htail

theorem afterName_append {m : Nat} {s : List Char} (h : afterName tail s = some m)
    (hlt : m < s.length) (t : List Char) : afterName tail (s ++ t) = some m := by
  have hone : 1 ≤ s.length := Nat.one_le_of_lt hlt
  unfold afterName at h ⊢
  rw [Text.startsWith_append ":" hone]
  split_ifs at h ⊢ with hcolon
  · simp only at h ⊢
    split_ifs at h with hlocal
    have hm := Option.some.inj h
    have hlength : markupIdentifierLength (s.drop 1) < (s.drop 1).length := by
      rw [List.length_drop]
      omega
    rw [Text.drop_append hone, greedy_markupIdentifierLength.append hlength, if_neg hlocal, hm]
  · exact htail s m h hlt t

/-- A name that ends within the text ends there whatever follows. -/
theorem qualifiedLength_append {s : List Char} (h : qualifiedLength tail s ≠ 0)
    (hlt : qualifiedLength tail s < s.length) (t : List Char) :
    qualifiedLength tail (s ++ t) = qualifiedLength tail s := by
  rw [qualifiedLength_eq] at h hlt
  rw [qualifiedLength_eq, qualifiedLength_eq]
  have hname := (ite_ne_left_iff.1 h).1
  rw [if_neg hname] at h hlt ⊢
  cases hafter : afterName tail (s.drop (markupIdentifierLength s)) with
  | none => rw [hafter] at h; exact absurd rfl h
  | some m =>
    rw [hafter, Option.elim_some] at hlt
    have hlength : markupIdentifierLength s < s.length := by omega
    have hbehind := afterName_append htail hafter (by rw [List.length_drop]; omega) t
    rw [greedy_markupIdentifierLength.append hlength, if_neg hname,
      Text.drop_append (Nat.le_of_lt hlength), hbehind]

end

theorem tagNameLength_append {s : List Char} (h : tagNameLength s ≠ 0)
    (hlt : tagNameLength s < s.length) (t : List Char) :
    tagNameLength (s ++ t) = tagNameLength s := by
  refine qualifiedLength_append (fun s m hm hlt t ↦ ?_) h hlt t
  exact membersLengthFrom_append hm (by rwa [Nat.zero_add]) t

theorem attributeNameLength_append {s : List Char} (h : attributeNameLength s ≠ 0)
    (hlt : attributeNameLength s < s.length) (t : List Char) :
    attributeNameLength (s ++ t) = attributeNameLength s := by
  refine qualifiedLength_append ?_ h hlt t
  exact fun _ _ hm _ _ ↦ hm

end JavaScript

end Highlight
