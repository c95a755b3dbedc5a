import Highlight.Proofs.JavaScript.Coverage
import Highlight.Proofs.JavaScript.Steady
import Highlight.Proofs.Piece.Shown
import Highlight.Proofs.Text.Digit

/-!
# The parts of numbers of scripts

A numeric literal has five parts, each of which may be missing. What a part may be is said together
with what stands behind it: a part that is missing is not offered there, and one that is present
could not go on. Where all parts stand so, each measure finds its own part, so the lengths that the
literal is given are those of its parts. And every text has such parts in front, which are therefore
the only ones.
-/

namespace Highlight.JavaScript

open Piece (labelled textOf)

variable {isDigit p : Char → Bool} {s part rest : List Char}
  {mark integer fraction exponent suffix run : List Char}

/-- A run of digits, possibly set off by underscores, that stands in front of a rest. -/
inductive IsRun (isDigit : Char → Bool) : (run rest : List Char) → Prop
  | missing {rest : List Char} : Text.startsIn isDigit rest = false → IsRun isDigit [] rest
  | digits {c : Char} {behind rest : List Char} :
      isDigit c → (∀ d ∈ behind, isDigit d || d == '_') →
      Text.startsIn (fun d ↦ isDigit d || d == '_') rest = false →
        IsRun isDigit (c :: behind) rest

/-- A run of digits is what the measure of digits takes. -/
theorem isRun_iff : IsRun isDigit run rest ↔ digitsLength isDigit (run ++ rest) = run.length := by
  cases run with
  | nil =>
    rw [List.nil_append, List.length_nil, digitsLength, Text.wordLength_eq_zero_iff]
    constructor
    · intro h
      cases h with
      | missing hrest => exact hrest
    · exact .missing
  | cons c behind =>
    rw [digitsLength, Text.wordLength_append_iff (List.cons_ne_nil c behind)]
    constructor
    · intro h
      cases h with
      | digits hc hbehind hrest => exact ⟨⟨c, behind, rfl, hc, hbehind⟩, hrest⟩
    · rintro ⟨⟨d, v, hsplit, hd, hv⟩, hrest⟩
      obtain ⟨rfl, rfl⟩ := List.cons.inj hsplit
      exact .digits hd hv hrest

theorem IsRun.any_iff (h : IsRun isDigit run rest) : run.any isDigit ↔ run ≠ [] := by
  cases h with
  | missing => simp
  | digits hc => simp [hc]

theorem IsRun.utf8Size_eq (h : IsRun isDigit run rest)
    (hdigit : ∀ c, isDigit c → Text.isHexDigit c) : ∀ c ∈ run, c.utf8Size = 1 := by
  cases h with
  | missing => exact List.forall_mem_nil _
  | digits hc hbehind =>
    refine List.forall_mem_cons.2 ⟨Text.utf8Size_of_isHexDigit (hdigit _ hc), fun d hd ↦ ?_⟩
    have hnext := hbehind d hd
    rw [Bool.or_eq_true, beq_iff_eq] at hnext
    rcases hnext with hd | rfl
    · exact Text.utf8Size_of_isHexDigit (hdigit d hd)
    · rfl

theorem exists_digits (isDigit : Char → Bool) (s : List Char) :
    ∃ run rest, s = run ++ rest ∧ IsRun isDigit run rest := by
  refine ⟨s.take (digitsLength isDigit s), s.drop (digitsLength isDigit s),
    (List.take_append_drop _ s).symm, isRun_iff.2 ?_⟩
  rw [List.take_append_drop, List.length_take, Nat.min_eq_left (digitsLength_le isDigit s)]

/-- A single character of a class that may be missing. -/
inductive IsOptional (p : Char → Bool) : (part rest : List Char) → Prop
  | missing {rest : List Char} : Text.startsIn p rest = false → IsOptional p [] rest
  | present {c : Char} {rest : List Char} : p c → IsOptional p [c] rest

theorem IsOptional.length_eq (h : IsOptional p part rest) :
    (if Text.startsIn p (part ++ rest) then 1 else 0) = part.length := by
  cases h with
  | missing hrest =>
    rw [List.nil_append, hrest]
    rfl
  | present hc => exact if_pos hc

theorem IsOptional.utf8Size_eq (h : IsOptional p part rest) (hp : ∀ c, p c → c.utf8Size = 1) :
    ∀ c ∈ part, c.utf8Size = 1 := by
  cases h with
  | missing => exact List.forall_mem_nil _
  | present hc => exact List.forall_mem_singleton.2 (hp _ hc)

theorem exists_optional (p : Char → Bool) (s : List Char) :
    ∃ part rest, s = part ++ rest ∧ IsOptional p part rest := by
  cases s with
  | nil => exact ⟨[], [], rfl, .missing rfl⟩
  | cons c s =>
    by_cases hc : p c
    · exact ⟨[c], s, rfl, .present hc⟩
    · exact ⟨[], c :: s, rfl, .missing (by simpa using hc)⟩

/-- The mark of a radix with the digits of the radix. -/
inductive Marks : (mark : List Char) → (isDigit : Char → Bool) → Prop
  | hexadecimal {c : Char} : c = 'x' ∨ c = 'X' → Marks ['0', c] Text.isHexDigit
  | octal {c : Char} : c = 'o' ∨ c = 'O' → Marks ['0', c] Text.isOctalDigit
  | binary {c : Char} : c = 'b' ∨ c = 'B' → Marks ['0', c] Text.isBinaryDigit

theorem Marks.length_eq (h : Marks mark isDigit) : mark.length = 2 := by
  cases h <;> rfl

theorem Marks.isHexDigit (h : Marks mark isDigit) (c : Char) (hc : isDigit c) :
    Text.isHexDigit c := by
  cases h with
  | hexadecimal => exact hc
  | octal => exact Text.isHexDigit_of_isOctalDigit hc
  | binary => exact Text.isHexDigit_of_isBinaryDigit hc

theorem Marks.utf8Size_eq (h : Marks mark isDigit) : ∀ c ∈ mark, c.utf8Size = 1 := by
  cases h with
  | hexadecimal hc | octal hc | binary hc =>
    obtain rfl | rfl := hc <;>
      exact List.forall_mem_cons.2 ⟨rfl, List.forall_mem_singleton.2 rfl⟩

/-- A radix is known by its mark. -/
theorem radix?_eq_some_iff :
    radix? s = some isDigit ↔ ∃ mark rest, s = mark ++ rest ∧ Marks mark isDigit := by
  constructor
  · intro h
    unfold radix? at h
    split at h
    · next c rest =>
      split_ifs at h with hx ho hb <;> obtain rfl := Option.some.inj h
      · exact ⟨['0', c], rest, rfl, .hexadecimal hx⟩
      · exact ⟨['0', c], rest, rfl, .octal ho⟩
      · exact ⟨['0', c], rest, rfl, .binary hb⟩
    · simp at h
  · rintro ⟨mark, rest, rfl, hmark⟩
    cases hmark with
    | hexadecimal hc | octal hc | binary hc => obtain rfl | rfl := hc <;> rfl

/-- A point with the digits behind it, if there are digits on one of its sides. -/
inductive IsFraction (integer : List Char) : (fraction rest : List Char) → Prop
  | missing {rest : List Char} :
      (∀ behind, rest = '.' :: behind →
        integer = [] ∧ Text.startsIn Char.isDigit behind = false) → IsFraction integer [] rest
  | point {run rest : List Char} :
      IsRun Char.isDigit run rest → integer ≠ [] ∨ run ≠ [] →
        IsFraction integer ('.' :: run) rest

theorem fractionLength_eq (h : IsFraction integer fraction rest) :
    fractionLength integer.length (fraction ++ rest) = fraction.length := by
  cases h with
  | missing hrest =>
    refine if_neg ?_
    rintro ⟨hpoint, hdigits⟩
    obtain ⟨behind, rfl⟩ := Text.startsWith_iff.1 hpoint
    obtain ⟨rfl, hnone⟩ := hrest behind rfl
    rcases hdigits with hdigits | hdigits
    · exact hdigits rfl
    · exact hdigits (Text.wordLength_eq_zero_iff.2 hnone)
  | @point run _ hrun hside =>
    have hdigits : digitsLength Char.isDigit (('.' :: run ++ rest).drop 1) = run.length :=
      isRun_iff.1 hrun
    rw [fractionLength, hdigits, if_pos, List.length_cons, Nat.add_comm]
    exact ⟨rfl, hside.imp (mt List.length_eq_zero_iff.1) (mt List.length_eq_zero_iff.1)⟩

theorem IsFraction.utf8Size_eq (h : IsFraction integer fraction rest) :
    ∀ c ∈ fraction, c.utf8Size = 1 := by
  cases h with
  | missing => exact List.forall_mem_nil _
  | point hrun =>
    exact List.forall_mem_cons.2 ⟨rfl, hrun.utf8Size_eq fun _ ↦ Text.isHexDigit_of_isDigit⟩

theorem exists_fraction (integer s : List Char) :
    ∃ fraction rest, s = fraction ++ rest ∧ IsFraction integer fraction rest := by
  by_cases hpoint : ∃ behind, s = '.' :: behind ∧ (integer ≠ [] ∨ Text.startsIn Char.isDigit behind)
  · obtain ⟨behind, rfl, hside⟩ := hpoint
    obtain ⟨run, rest, rfl, hrun⟩ := exists_digits Char.isDigit behind
    refine ⟨'.' :: run, rest, rfl, .point hrun (hside.imp_right ?_)⟩
    rintro hdigit rfl
    cases hrun with
    | missing hrest => exact Bool.noConfusion (hrest.symm.trans hdigit)
  · refine ⟨[], s, rfl, .missing fun behind hs ↦ ?_⟩
    simpa using fun hside ↦ hpoint ⟨behind, hs, hside⟩

/-- A letter with a sign and digits, both of which may be missing. -/
inductive IsExponent : (exponent rest : List Char) → Prop
  | missing {rest : List Char} :
      Text.startsIn (fun c ↦ c == 'e' || c == 'E') rest = false → IsExponent [] rest
  | letter {c : Char} {sign run rest : List Char} :
      (c == 'e' || c == 'E') → IsOptional (fun c ↦ c == '+' || c == '-') sign (run ++ rest) →
      IsRun Char.isDigit run rest → IsExponent (c :: (sign ++ run)) rest

theorem IsExponent.utf8Size_eq (h : IsExponent exponent rest) :
    ∀ c ∈ exponent, c.utf8Size = 1 := by
  cases h with
  | missing => exact List.forall_mem_nil _
  | @letter c sign run rest hc hsign hrun =>
    rw [List.forall_mem_cons, List.forall_mem_append]
    refine ⟨?_, hsign.utf8Size_eq ?_, hrun.utf8Size_eq fun _ ↦ Text.isHexDigit_of_isDigit⟩
    · obtain rfl | rfl : c = 'e' ∨ c = 'E' := by simpa using hc
      · rfl
      · rfl
    · intro d hd
      obtain rfl | rfl : d = '+' ∨ d = '-' := by simpa using hd
      · rfl
      · rfl

theorem exists_exponent (s : List Char) :
    ∃ exponent rest, s = exponent ++ rest ∧ IsExponent exponent rest := by
  by_cases hletter : Text.startsIn (fun c ↦ c == 'e' || c == 'E') s
  · obtain ⟨c, s, rfl⟩ := List.exists_cons_of_length_pos (Text.length_pos_of_startsIn hletter)
    obtain ⟨sign, behind, rfl, hsign⟩ := exists_optional (fun c ↦ c == '+' || c == '-') s
    obtain ⟨run, rest, rfl, hrun⟩ := exists_digits Char.isDigit behind
    exact ⟨c :: (sign ++ run), rest, by simp, .letter hletter hsign hrun⟩
  · exact ⟨[], s, rfl, .missing (by simpa using hletter)⟩

/-- The only digits of an exponent are those at its end. -/
theorem any_isDigit_iff {c : Char} {sign : List Char} (hc : c == 'e' || c == 'E')
    (hsign : IsOptional (fun c ↦ c == '+' || c == '-') sign (run ++ rest))
    (hrun : IsRun Char.isDigit run rest) :
    (c :: (sign ++ run)).any Char.isDigit ↔ run ≠ [] := by
  have hletter : c.isDigit = false := by
    obtain rfl | rfl : c = 'e' ∨ c = 'E' := by simpa using hc
    · rfl
    · rfl
  have hfront : sign.any Char.isDigit = false := by
    cases hsign with
    | missing => rfl
    | @present d _ hd =>
      obtain rfl | rfl : d = '+' ∨ d = '-' := by simpa using hd
      · rfl
      · rfl
  rw [List.any_cons, List.any_append, hletter, hfront, Bool.false_or, Bool.false_or, hrun.any_iff]

theorem exponentRest_eq {sign : List Char}
    (hsign : IsOptional (fun c ↦ c == '+' || c == '-') sign (run ++ rest))
    (hrun : IsRun Char.isDigit run rest) :
    exponentRest (sign ++ (run ++ rest)) = (sign.length, run.length) := by
  rw [exponentRest, hsign.length_eq, List.drop_left, isRun_iff.1 hrun]

/-- What is measured behind a fraction is an exponent or a suffix. -/
theorem decimalRest_eq (hexponent : IsExponent exponent (suffix ++ rest))
    (hsuffix : IsOptional (fun c ↦ (fraction ++ exponent).isEmpty && c == 'n') suffix rest) :
    decimalRest (fraction.length = 0) (exponent ++ (suffix ++ rest)) =
      { length := exponent.length + suffix.length
        exponent := exponent.length
        suffix := suffix.length
        erroneous := exponent ≠ [] ∧ ¬ exponent.any Char.isDigit } := by
  cases hexponent with
  | missing hrest =>
    have hmarks : (decide (fraction.length = 0) && Text.startsWith "n" (suffix ++ rest)) =
        Text.startsIn (fun c ↦ (fraction ++ []).isEmpty && c == 'n') (suffix ++ rest) := by
      rw [Text.startsWith_single (c := 'n') rfl, List.append_nil]
      cases fraction with
      | nil => rfl
      | cons => cases suffix ++ rest <;> rfl
    rw [List.nil_append, decimalRest, if_neg (Bool.eq_false_iff.1 hrest), hmarks,
      hsuffix.length_eq]
    simp
  | @letter c sign run _ hc hsign hrun =>
    obtain rfl : suffix = [] := by
      cases hsuffix with
      | missing => rfl
      | present hsuffix => simp at hsuffix
    rw [List.nil_append] at hsign hrun
    have hrest : c :: (sign ++ run) ++ ([] ++ rest) = c :: (sign ++ (run ++ rest)) := by simp
    have hlength : (c :: (sign ++ run)).length = 1 + sign.length + run.length := by
      simp only [List.length_cons, List.length_append]
      omega
    rw [hrest, decimalRest, if_pos (by exact hc), List.drop_one, List.tail_cons,
      exponentRest_eq hsign hrun]
    simp only [hlength, any_isDigit_iff hc hsign hrun, List.length_eq_zero_iff, List.length_nil,
      Nat.add_zero, ne_eq, reduceCtorEq, not_false_eq_true, true_and, not_not]

/-! ## Literals in parts -/

/-- A numeric literal begins with a digit, or with a point and a digit. -/
def BeginsNumber (s : List Char) : Prop :=
  Text.startsIn Char.isDigit s ∨ ∃ behind, s = '.' :: behind ∧ Text.startsIn Char.isDigit behind

/-- The parts of a numeric literal, in the order in which they stand. -/
structure Parts where
  mark : List Char := []
  integer : List Char := []
  fraction : List Char := []
  exponent : List Char := []
  suffix : List Char := []

namespace Parts

def text (parts : Parts) : List Char :=
  parts.mark ++ (parts.integer ++ (parts.fraction ++ (parts.exponent ++ parts.suffix)))

/-- Digits are missing behind the mark or in the exponent. -/
def LacksDigits (parts : Parts) : Prop :=
  parts.mark ≠ [] ∧ parts.integer = [] ∨
    parts.exponent ≠ [] ∧ ¬ parts.exponent.any Char.isDigit

instance (parts : Parts) : Decidable parts.LacksDigits :=
  inferInstanceAs (Decidable (_ ∨ _))

def lengths (parts : Parts) : NumericLiteral where
  length := parts.text.length
  radixMark := parts.mark.length
  integer := parts.integer.length
  fraction := parts.fraction.length
  exponent := parts.exponent.length
  suffix := parts.suffix.length
  erroneous := parts.LacksDigits

/-- The parts are those of the literal in front of a rest. A suffix may stand behind an integer, not
behind a fraction or an exponent. -/
inductive StandBefore : Parts → (rest : List Char) → Prop
  | marked {mark integer suffix rest : List Char} {isDigit : Char → Bool} :
      Marks mark isDigit → IsRun isDigit integer (suffix ++ rest) →
      IsOptional (· == 'n') suffix rest →
        StandBefore { mark, integer, suffix } rest
  | decimal {integer fraction exponent suffix rest : List Char} :
      (∀ mark isDigit, Marks mark isDigit →
        ¬ mark <+: integer ++ (fraction ++ (exponent ++ (suffix ++ rest)))) →
      IsRun Char.isDigit integer (fraction ++ (exponent ++ (suffix ++ rest))) →
      IsFraction integer fraction (exponent ++ (suffix ++ rest)) →
      integer ++ fraction ≠ [] → IsExponent exponent (suffix ++ rest) →
      IsOptional (fun c ↦ (fraction ++ exponent).isEmpty && c == 'n') suffix rest →
        StandBefore { integer, fraction, exponent, suffix } rest
  | absent {rest : List Char} : ¬ BeginsNumber rest → StandBefore {} rest

theorem lengths_marked (hmark : mark.length = 2) :
    ({ mark, integer, suffix } : Parts).lengths =
      ⟨2 + integer.length + suffix.length, 2, integer.length, 0, 0, suffix.length,
        integer.length = 0⟩ := by
  have hne : mark ≠ [] := List.ne_nil_of_length_eq_add_one hmark
  simp [lengths, text, LacksDigits, hmark, hne, Nat.add_assoc]

theorem lengths_decimal :
    ({ integer, fraction, exponent, suffix } : Parts).lengths =
      ⟨integer.length + (fraction.length + (exponent.length + suffix.length)), 0, integer.length,
        fraction.length, exponent.length, suffix.length,
        exponent ≠ [] ∧ ¬ exponent.any Char.isDigit⟩ := by
  simp [lengths, text, LacksDigits]

/-- The measures find the parts that stand in front of a rest. -/
theorem StandBefore.numericLiteral_eq {parts : Parts} (h : parts.StandBefore rest) :
    numericLiteral (parts.text ++ rest) = parts.lengths := by
  cases h with
  | @marked mark integer suffix rest isDigit hmark hinteger hsuffix =>
    have htext : ({ mark, integer, suffix } : Parts).text ++ rest =
        mark ++ (integer ++ (suffix ++ rest)) := by
      simp [text]
    rw [htext, numericLiteral, radix?_eq_some_iff.2 ⟨mark, _, rfl, hmark⟩]
    have hn : Text.startsWith "n" (suffix ++ rest) = Text.startsIn (· == 'n') (suffix ++ rest) :=
      Text.startsWith_single rfl _
    simp only [radixLiteral_eq, radixRest]
    rw [← hmark.length_eq, List.drop_left, isRun_iff.1 hinteger, List.drop_left, hn,
      hsuffix.length_eq, hmark.length_eq, lengths_marked hmark.length_eq]
  | @decimal integer fraction exponent suffix rest hmark hinteger hfraction hdigits hexponent
      hsuffix =>
    have htext : ({ integer, fraction, exponent, suffix } : Parts).text ++ rest =
        integer ++ (fraction ++ (exponent ++ (suffix ++ rest))) := by
      simp [text]
    have hradix : radix? (integer ++ (fraction ++ (exponent ++ (suffix ++ rest)))) = none := by
      rw [Option.eq_none_iff_forall_ne_some]
      intro isDigit hradix
      obtain ⟨mark, behind, hsplit, hmarks⟩ := radix?_eq_some_iff.1 hradix
      exact hmark mark isDigit hmarks ⟨behind, hsplit.symm⟩
    have hlength : integer.length + fraction.length ≠ 0 := by
      rwa [← List.length_append, ne_eq, List.length_eq_zero_iff]
    rw [htext, numericLiteral, hradix]
    simp only
    rw [decimalLiteral_eq]
    simp only [isRun_iff.1 hinteger, List.drop_left, behindInteger, fractionLength_eq hfraction,
      if_neg hlength, decimalRest_eq hexponent hsuffix, Nat.add_zero, lengths_decimal]
  | absent hnone =>
    have hdigit : Text.startsIn Char.isDigit rest = false := by
      simpa using fun hdigit ↦ hnone (.inl hdigit)
    have hpoint (behind : List Char) (hrest : rest = '.' :: behind) :
        Text.startsIn Char.isDigit behind = false := by
      simpa using fun hdigit ↦ hnone (.inr ⟨behind, hrest, hdigit⟩)
    have hradix : radix? rest = none := by
      rw [Option.eq_none_iff_forall_ne_some]
      intro isDigit hradix
      obtain ⟨mark, behind, rfl, hmarks⟩ := radix?_eq_some_iff.1 hradix
      cases hmarks <;> simp at hdigit
    have hinteger : digitsLength Char.isDigit rest = 0 := Text.wordLength_eq_zero_iff.2 hdigit
    have hfraction : fractionLength 0 rest = 0 :=
      fractionLength_eq (.missing fun behind hrest ↦ ⟨rfl, hpoint behind hrest⟩)
    change numericLiteral rest = {}
    rw [numericLiteral, hradix]
    simp only
    rw [decimalLiteral_eq]
    simp [hinteger, behindInteger, hfraction]

/-- No text has the parts of two literals in front. -/
theorem StandBefore.unique {parts other : Parts} {behind : List Char} (h : parts.StandBefore rest)
    (hother : other.StandBefore behind) (htext : text parts ++ rest = text other ++ behind) :
    parts = other := by
  have hlengths : parts.lengths = other.lengths := by
    rw [← h.numericLiteral_eq, htext, hother.numericLiteral_eq]
  simp only [text, List.append_assoc] at htext
  obtain ⟨hmark, htext⟩ := List.append_inj htext (congrArg NumericLiteral.radixMark hlengths)
  obtain ⟨hinteger, htext⟩ := List.append_inj htext (congrArg NumericLiteral.integer hlengths)
  obtain ⟨hfraction, htext⟩ := List.append_inj htext (congrArg NumericLiteral.fraction hlengths)
  obtain ⟨hexponent, htext⟩ := List.append_inj htext (congrArg NumericLiteral.exponent hlengths)
  obtain ⟨hsuffix, -⟩ := List.append_inj htext (congrArg NumericLiteral.suffix hlengths)
  cases parts
  cases other
  simp only at hmark hinteger hfraction hexponent hsuffix
  rw [hmark, hinteger, hfraction, hexponent, hsuffix]

/-- Every text has the parts of a literal in front. -/
theorem exists_standBefore (s : List Char) :
    ∃ parts rest, s = text parts ++ rest ∧ parts.StandBefore rest := by
  by_cases hmarked : ∃ mark isDigit, Marks mark isDigit ∧ mark <+: s
  · obtain ⟨mark, isDigit, hmark, behind, rfl⟩ := hmarked
    obtain ⟨integer, behind, rfl, hinteger⟩ := exists_digits isDigit behind
    obtain ⟨suffix, rest, rfl, hsuffix⟩ := exists_optional (· == 'n') behind
    exact ⟨_, rest, by simp [text], .marked hmark hinteger hsuffix⟩
  · have hnone : ∀ mark isDigit, Marks mark isDigit → ¬ mark <+: s :=
      fun mark isDigit hmark hprefix ↦ hmarked ⟨mark, isDigit, hmark, hprefix⟩
    obtain ⟨integer, behind, rfl, hinteger⟩ := exists_digits Char.isDigit s
    obtain ⟨fraction, behind, rfl, hfraction⟩ := exists_fraction integer behind
    by_cases hdigits : integer ++ fraction = []
    · obtain ⟨rfl, rfl⟩ := List.append_eq_nil_iff.1 hdigits
      refine ⟨{}, behind, rfl, .absent ?_⟩
      cases hinteger with
      | missing hdigit =>
        cases hfraction with
        | missing hpoint =>
          rintro (hthere | ⟨more, hmore, hthere⟩)
          · exact Bool.noConfusion (hdigit.symm.trans hthere)
          · exact Bool.noConfusion ((hpoint more hmore).2.symm.trans hthere)
    · obtain ⟨exponent, behind, rfl, hexponent⟩ := exists_exponent behind
      obtain ⟨suffix, rest, rfl, hsuffix⟩ :=
        exists_optional (fun c ↦ (fraction ++ exponent).isEmpty && c == 'n') behind
      exact ⟨_, rest, by simp [text],
        .decimal hnone hinteger hfraction hdigits hexponent hsuffix⟩

theorem StandBefore.text_ne_nil_iff {parts : Parts} (h : parts.StandBefore rest) :
    text parts ≠ [] ↔ BeginsNumber (text parts ++ rest) := by
  cases h with
  | marked hmark hinteger hsuffix =>
    refine iff_of_true ?_ (.inl ?_)
    · cases hmark <;> simp [text]
    · cases hmark <;> simp [text]
  | @decimal integer fraction exponent suffix rest hmark hinteger hfraction hdigits =>
    refine iff_of_true ?_ ?_
    · intro htext
      simp only [text, List.append_eq_nil_iff] at htext
      exact hdigits (List.append_eq_nil_iff.2 ⟨htext.2.1, htext.2.2.1⟩)
    · cases hinteger with
      | digits hc => exact .inl hc
      | missing =>
        cases hfraction with
        | missing => exact absurd rfl hdigits
        | point hrun hside =>
          cases hrun with
          | missing => simp at hside
          | digits hc => exact .inr ⟨_, rfl, hc⟩
  | absent hnone => exact iff_of_false (absurd rfl) hnone

/-- The characters of a literal take one byte each. -/
theorem StandBefore.utf8Size_eq {parts : Parts} (h : parts.StandBefore rest) :
    ∀ c ∈ text parts, c.utf8Size = 1 := by
  cases h with
  | marked hmark hinteger hsuffix =>
    have hn : ∀ c : Char, c == 'n' → c.utf8Size = 1 := by
      rintro c hc
      rw [beq_iff_eq.1 hc]
      rfl
    simp only [text, List.nil_append, List.forall_mem_append]
    exact ⟨hmark.utf8Size_eq, hinteger.utf8Size_eq hmark.isHexDigit, hsuffix.utf8Size_eq hn⟩
  | decimal _ hinteger hfraction _ hexponent hsuffix =>
    simp only [text, List.nil_append, List.forall_mem_append]
    refine ⟨hinteger.utf8Size_eq fun _ ↦ Text.isHexDigit_of_isDigit, hfraction.utf8Size_eq,
      hexponent.utf8Size_eq, hsuffix.utf8Size_eq fun c hc ↦ ?_⟩
    rw [Bool.and_eq_true, beq_iff_eq] at hc
    rw [hc.2]
    rfl
  | absent => exact List.forall_mem_nil _

/-! ## Tokens -/

/-- A literal that lacks digits is an error, and of the others the digits stand apart. -/
def shown (parts : Parts) : List (Kind × List Char) :=
  if parts.LacksDigits then [(.error, text parts)]
  else
    [(.numberDecor, parts.mark), (.number, parts.integer ++ parts.fraction ++ parts.exponent),
      (.numberDecor, parts.suffix)].filter (·.2 ≠ [])

/-- A number shows its parts, digits and marks apart, or itself as an error. -/
theorem StandBefore.labelled_eq {parts : Parts} (h : parts.StandBefore rest)
    {pieces : List (Piece Kind)} (hpieces : number (text parts ++ rest) = some pieces) :
    labelled pieces = parts.shown := by
  have hsplit : text parts ++ rest = parts.mark ++
      (parts.integer ++ parts.fraction ++ parts.exponent ++ (parts.suffix ++ rest)) := by
    simp [text]
  have hdigits : parts.integer.length + parts.fraction.length + parts.exponent.length =
      (parts.integer ++ parts.fraction ++ parts.exponent).length := by
    simp [Nat.add_assoc]
  unfold number at hpieces
  simp only [h.numericLiteral_eq, lengths, decide_eq_true_eq, List.take_left] at hpieces
  split_ifs at hpieces with hempty hlacks <;> obtain rfl := Option.some.inj hpieces
  · rw [shown, if_pos hlacks, Piece.labelled_token, if_neg (mt List.length_eq_zero_iff.2 hempty),
      Piece.labelled_nil, List.append_nil]
  · rw [shown, if_neg hlacks, hsplit, hdigits]
    simp only [List.take_left, List.drop_left, Piece.labelled_append, Piece.labelled_shown,
      List.filter_cons, List.filter_nil, decide_not, Bool.not_eq_true', decide_eq_false_iff_not]
    split_ifs <;> rfl

theorem StandBefore.isSome_number {parts : Parts} (h : parts.StandBefore rest) :
    (number (text parts ++ rest)).isSome ↔ text parts ≠ [] := by
  unfold number
  simp only [h.numericLiteral_eq, lengths, List.length_eq_zero_iff]
  split_ifs with hempty hlacks <;> simp [hempty]

end Parts

/-- A numeric literal is made of the parts that stand in front of the text, and its tokens are those
that show its parts, end to end. -/
theorem numericLiteral_decomposes (s : List Char) :
    let literal := numericLiteral s
    literal.length = literal.radixMark +
        (literal.integer + literal.fraction + literal.exponent + literal.suffix) ∧
      literal.length ≤ s.length ∧ (literal.length ≠ 0 ↔ BeginsNumber s) ∧
      ((number s).isSome ↔ BeginsNumber s) ∧
      ∃ parts rest, s = Parts.text parts ++ rest ∧ parts.StandBefore rest ∧
        (∀ other behind, s = Parts.text other ++ behind → other.StandBefore behind →
          other = parts) ∧
        literal = parts.lengths ∧ (∀ c ∈ parts.text, c.utf8Size = 1) ∧
        ∀ pieces, number s = some pieces → labelled pieces = parts.shown ∧
          ∀ begin, Tiles (begin + literal.length) begin (Piece.tokens begin pieces) := by
  intro literal
  obtain ⟨parts, rest, rfl, hparts⟩ := Parts.exists_standBefore s
  have hliteral : literal = parts.lengths := hparts.numericLiteral_eq
  have hlength : literal.length = parts.text.length := congrArg NumericLiteral.length hliteral
  have hbegins := hparts.text_ne_nil_iff
  refine ⟨numericLiteral_length _, numericLiteral_length_le _, ?_,
    hparts.isSome_number.trans hbegins, parts, rest, rfl, hparts, ?_, hliteral, hparts.utf8Size_eq,
    fun pieces hpieces ↦ ⟨hparts.labelled_eq hpieces, fun begin ↦ ?_⟩⟩
  · rw [← hbegins, hlength]
    exact List.length_eq_zero_iff.not
  · intro other behind htext hother
    exact hother.unique hparts htext.symm
  · have htiles := Piece.tiles_tokens begin (gapsIn_number _ _ hpieces)
    have htext : textOf pieces = parts.text := by
      rw [(covers_number hpieces).2.textOf_eq, hparts.numericLiteral_eq]
      exact List.take_left
    rwa [htext, Text.byteLength_eq_length hparts.utf8Size_eq, ← hlength] at htiles

end Highlight.JavaScript
