import Highlight.Proofs.CFamily.RawString
import Highlight.Proofs.Piece.Steady

/-!
# What measures of C and C++ look at

Every length that is measured on a program text is steady, but for that of an encoding mark, which
is there only in front of a quote. Loops over characters are followed along the text that is cut
off: as long as what they count does not reach the cut, each step of them is the same.
-/

namespace Highlight.CFamily

open Construct (foundWidth)
open Piece (width textOf)

variable {u r : List Char}

theorem steady_spliceLength : Text.Steady id spliceLength := by
  have hlong : Text.Reaches 3 (Text.startsWith "\\\r\n") := Text.reaches_startsWith "\\\r\n"
  have hfeed : Text.Reaches 2 (Text.startsWith "\\\n") := Text.reaches_startsWith "\\\n"
  have hreturn : Text.Reaches 2 (Text.startsWith "\\\r") := Text.reaches_startsWith "\\\r"
  exact .ite hlong (fun _ _ ↦ Nat.le_refl 3) (Text.steady_const id 3)
    (.ite (hfeed.or hreturn) (fun _ _ ↦ Nat.le_refl 2) (Text.steady_const id 2)
      (Text.steady_const id 0))

/-- A comment that ends within a text ends there as well where the text is cut off. -/
theorem lineLengthFrom_of_append {n : Nat} (h : lineLengthFrom n (u ++ r) ≤ n + u.length) :
    lineLengthFrom n u = lineLengthFrom n (u ++ r) := by
  fun_induction lineLengthFrom n u with
  | case1 n =>
    rw [List.nil_append] at h ⊢
    exact Nat.le_antisymm (lineLengthFrom_bounds n r).1 h
  | case2 n c rest hend =>
    rw [List.cons_append, lineLengthFrom, if_pos hend]
  | case3 n rest hend splice ih =>
    rw [List.cons_append, lineLengthFrom, if_neg hend, if_pos rfl] at h ⊢
    rw [← List.cons_append] at h ⊢
    have hle := (lineLengthFrom_bounds _ _).1.trans h
    have hsplice : spliceLength ('\\' :: rest) = spliceLength ('\\' :: rest ++ r) :=
      steady_spliceLength _ r (by rw [id_eq]; omega)
    have hfits : splice ≤ ('\\' :: rest).length := by
      change max 1 (spliceLength ('\\' :: rest)) ≤ _
      omega
    have hsame : max 1 (spliceLength ('\\' :: rest ++ r)) = splice := by rw [← hsplice]
    simp only [hsame, Text.drop_append hfits] at h ⊢
    apply ih
    rw [List.length_drop]
    omega
  | case4 n c rest hend hbackslash ih =>
    rw [List.cons_append, lineLengthFrom, if_neg hend, if_neg hbackslash] at h ⊢
    apply ih
    rw [List.length_cons] at h
    omega

theorem steady_lineCommentLength : Text.Steady id lineCommentLength := by
  have hinner : Text.Steady id fun s ↦ lineLengthFrom 2 s - 2 := by
    intro u r hle
    simp only [id_eq] at hle ⊢
    rw [lineLengthFrom_of_append (show lineLengthFrom 2 (u ++ r) ≤ 2 + u.length by omega)]
  refine Text.steady_behind (Text.reaches_startsWith "//") _ (2 + ·) 0 ?_ (fun _ ↦ .inr rfl) hinner
  intro s
  have hle := (lineLengthFrom_bounds 2 (s.drop 2)).1
  rw [lineCommentLength]
  congr 1
  exact (Nat.add_sub_cancel' hle).symm

theorem le_numberLengthFrom (n : Nat) (s : List Char) : n ≤ numberLengthFrom n s := by
  fun_induction numberLengthFrom n s with
  | case1 n => exact Nat.le_refl n
  | case2 n c s hexponent ih => omega
  | case3 n c s _ _ ih => omega
  | case4 n c s _ _ _ ih => omega
  | case5 n c s _ _ _ => exact Nat.le_refl n

theorem numberLengthFrom_nil (n : Nat) : numberLengthFrom n [] = n := by rw [numberLengthFrom]

theorem numberLengthFrom_cons (n : Nat) (c : Char) (s : List Char) :
    numberLengthFrom n (c :: s) =
      if isExponentMark c && Text.startsIn isSign s then numberLengthFrom (n + 2) (s.drop 1)
      else if isWordChar c || c == '.' then numberLengthFrom (n + 1) s
      else if c == '\'' && Text.startsIn isWordChar s then numberLengthFrom (n + 2) (s.drop 1)
      else n := by
  rw [numberLengthFrom]

/-- At the last character in front of a cut nothing is taken along from behind it. -/
theorem numberLengthFrom_single {n : Nat} {c : Char} (h : numberLengthFrom n (c :: r) ≤ n + 1) :
    numberLengthFrom n [c] = numberLengthFrom n (c :: r) := by
  have hlong (s : List Char) : ¬ numberLengthFrom (n + 2) s ≤ n + 1 := by
    have hle := le_numberLengthFrom (n + 2) s
    omega
  have hle := le_numberLengthFrom (n + 1) r
  rw [numberLengthFrom_cons] at h
  rw [numberLengthFrom_cons, numberLengthFrom_cons]
  simp only [Text.startsIn_nil, Bool.and_false, Bool.false_eq_true, if_false,
    numberLengthFrom_nil]
  split_ifs at h ⊢ with hexponent hword hword hseparator
  all_goals first | exact absurd h (hlong _) | omega

/-- A number that ends within a text ends there as well where the text is cut off. -/
theorem numberLengthFrom_of_append {n : Nat} (h : numberLengthFrom n (u ++ r) ≤ n + u.length) :
    numberLengthFrom n u = numberLengthFrom n (u ++ r) := by
  induction hu : u.length using Nat.strongRecOn generalizing n u with
  | ind m ih =>
    match u with
    | [] =>
      rw [List.length_nil, Nat.add_zero] at h
      rw [numberLengthFrom_nil]
      exact Nat.le_antisymm (le_numberLengthFrom n _) h
    | [c] => exact numberLengthFrom_single h
    | c :: d :: s =>
      simp only [List.length_cons] at hu h
      rw [List.cons_append, List.cons_append, numberLengthFrom_cons] at h
      rw [List.cons_append, List.cons_append, numberLengthFrom_cons n c (d :: s),
        numberLengthFrom_cons n c (d :: (s ++ r))]
      simp only [Text.startsIn_cons, List.drop_one, List.tail_cons] at h ⊢
      split_ifs at h ⊢ with hexponent hword hseparator
      · exact ih s.length (by omega) (by omega) rfl
      · rw [← List.cons_append] at h ⊢
        exact ih (d :: s).length (by rw [List.length_cons]; omega)
          (by rw [List.length_cons]; omega) rfl
      · exact ih s.length (by omega) (by omega) rfl
      · rfl

/-- A digit is taken by itself. -/
theorem numberLengthFrom_digit {c : Char} (hc : c.isDigit) (n : Nat) (s : List Char) :
    numberLengthFrom n (c :: s) = numberLengthFrom (n + 1) s := by
  have hword : isWordChar c := by simp [isWordChar, Char.isAlphanum, hc]
  have hmark : isExponentMark c = false := by
    rw [Bool.eq_false_iff]
    intro hmark
    obtain ((rfl | rfl) | rfl) | rfl : ((c = 'e' ∨ c = 'E') ∨ c = 'p') ∨ c = 'P' := by
      simpa [isExponentMark] using hmark
    all_goals exact absurd hc (by decide)
  rw [numberLengthFrom_cons, hmark, hword]
  rfl

/-- A digit behind a point is taken along. -/
theorem lt_numberLengthFrom {n : Nat} {c : Char} (hc : c.isDigit) (s : List Char) :
    n < numberLengthFrom n (c :: s) := by
  rw [numberLengthFrom_digit hc]
  exact le_numberLengthFrom (n + 1) s

theorem steady_numberLength : Text.Steady id numberLength := by
  intro u r hle
  cases u with
  | nil => exact (Nat.le_zero.1 hle).symm
  | cons c s =>
    rw [List.cons_append, id_eq, List.length_cons, Nat.add_comm] at hle
    rw [List.cons_append]
    by_cases hdigit : c.isDigit
    · simp only [numberLength, hdigit, Bool.true_or, if_true] at hle ⊢
      exact numberLengthFrom_of_append hle
    · simp only [numberLength, hdigit, Bool.false_or] at hle ⊢
      cases s with
      | nil =>
        have hnone : (c == '.' && Text.startsIn Char.isDigit r) = false := by
          rw [Bool.eq_false_iff]
          intro hpoint
          rw [List.nil_append, if_pos hpoint] at hle
          obtain ⟨d, t, rfl⟩ : ∃ d t, r = d :: t := by
            apply List.exists_cons_of_ne_nil
            rintro rfl
            simp at hpoint
          exact absurd (lt_numberLengthFrom (Bool.and_eq_true .. ▸ hpoint).2 t) (Nat.not_lt.2 hle)
        simp [hnone]
      | cons d s =>
        simp only [Text.startsIn_append (List.cons_ne_nil d s)] at hle ⊢
        split_ifs at hle ⊢
        · exact numberLengthFrom_of_append hle
        · rfl

theorem one_le_bracedCodeLength (s : List Char) : 1 ≤ bracedCodeLength s := by
  unfold bracedCodeLength
  split
  · split_ifs <;> omega
  · exact Nat.le_refl 1

theorem bracedCodeLength_cons (c : Char) (s : List Char) : bracedCodeLength (c :: s) =
    (Text.findClosing? (fun c ↦ c == '\x7d' || c == '\n') '\x7d' s).elim 1 (· + 2) := by
  simp only [bracedCodeLength, Text.findClosing?, List.drop_succ_cons, List.drop_zero,
    Nat.add_comm 1]
  cases Text.findIn? (fun c ↦ c == '\x7d' || c == '\n') s with
  | none => rfl
  | some n =>
    simp only [Option.filter_some, Text.startsWith_single (show "\x7d".toList = ['\x7d'] from rfl)]
    split <;> rfl

theorem steady_bracedCodeLength : Text.Steady id bracedCodeLength := by
  refine Text.steady_behind (Text.reaches_startsIn fun _ ↦ true)
    (Text.findClosing? (fun c ↦ c == '\x7d' || c == '\n') '\x7d')
    (fun found ↦ found.elim 1 (· + 2)) 1 ?_ ?_ (Text.steady_findClosing? _ _)
  · intro s
    cases s with
    | nil => rfl
    | cons c s => exact bracedCodeLength_cons c s
  · intro found
    cases found with
    | none => exact .inr rfl
    | some n => exact .inr (Nat.add_comm (n + 1) 1)

/-- What an escape has behind its letter: digits, a code in brackets, or nothing. -/
def escapeRest (c : Char) (after : List Char) : Nat :=
  if Text.isOctalDigit c then Text.spanLength Text.isOctalDigit (after.take 2)
  else if c == 'x' || c == 'u' || c == 'o' || c == 'N' then
    if Text.startsWith "\x7b" after then bracedCodeLength after
    else if c = 'x' then Text.spanLength Text.isHexDigit after
    else if c = 'u' then Text.spanLength Text.isHexDigit (after.take 4)
    else 0
  else if c = 'U' then Text.spanLength Text.isHexDigit (after.take 8)
  else if c = '\r' then if Text.startsWith "\n" after then 1 else 0
  else 0

theorem escapeLength_cons (c : Char) (after : List Char) :
    escapeLength ('\\' :: c :: after) = 2 + escapeRest c after := by
  rw [escapeLength, escapeRest]
  by_cases hoctal : Text.isOctalDigit c
  · rw [if_pos hoctal, if_pos hoctal, List.take_succ_cons, Text.spanLength_cons, if_pos hoctal]
    omega
  · rw [if_neg hoctal, if_neg hoctal]
    by_cases hbrace : Text.startsWith "\x7b" after
    · simp only [hbrace, Bool.and_true, if_true]
      split_ifs <;> simp_all
    · simp only [hbrace, Bool.and_false, Bool.false_eq_true, if_false]
      split_ifs <;> simp_all

theorem steady_escapeRest (c : Char) : Text.Steady id (escapeRest c) := by
  have hdigits (p : Char → Bool) (n : Nat) :
      Text.Steady id fun after ↦ Text.spanLength p (after.take n) :=
    ((Text.greedy_spanLength p).take n).steady
  have hbraced {behind : List Char → Nat} (hbehind : Text.Steady id behind) :
      Text.Steady id fun after ↦
        if Text.startsWith "\x7b" after then bracedCodeLength after else behind after :=
    .ite (Text.reaches_startsWith "\x7b") (fun s _ ↦ one_le_bracedCodeLength s)
      steady_bracedCodeLength hbehind
  unfold escapeRest
  split_ifs with hoctal hletter hx hu hlong hreturn
  · exact hdigits _ 2
  · exact hbraced (Text.greedy_spanLength _).steady
  · exact hbraced (hdigits _ 4)
  · exact hbraced (Text.steady_const id 0)
  · exact hdigits _ 8
  · exact .ite (Text.reaches_startsWith "\n") (fun _ _ ↦ Nat.le_refl 1) (Text.steady_const id 1)
      (Text.steady_const id 0)
  · exact Text.steady_const id 0

theorem escapeLength_of_ne {c : Char} (hc : c ≠ '\\') (s : List Char) :
    escapeLength (c :: s) = 0 := by
  unfold escapeLength
  split
  · next heq => exact absurd (List.cons.inj heq).1 hc
  · next heq => exact absurd (List.cons.inj heq).1 hc
  · rfl

/-- How long an escape is depends on its letter and on what it takes behind that. -/
theorem steady_escapeLength : Text.Steady id escapeLength := by
  intro u r hle
  match u with
  | [] => exact (Nat.le_zero.1 hle).symm
  | [c] =>
    by_cases hc : c = '\\'
    · subst hc
      cases r with
      | nil => rfl
      | cons d after =>
        change escapeLength ('\\' :: d :: after) ≤ 1 at hle
        rw [escapeLength_cons] at hle
        omega
    · rw [List.cons_append, escapeLength_of_ne hc, escapeLength_of_ne hc]
  | c :: d :: after =>
    rw [List.cons_append, List.cons_append] at hle ⊢
    by_cases hc : c = '\\'
    · subst hc
      rw [escapeLength_cons, id_eq, List.length_cons, List.length_cons] at hle
      rw [escapeLength_cons, escapeLength_cons,
        steady_escapeRest d after r (by rw [id_eq]; omega)]
    · rw [escapeLength_of_ne hc, escapeLength_of_ne hc]

theorem operatorLength_le (s : List Char) : operatorLength s ≤ s.length := by
  unfold operatorLength
  split
  · next op hop =>
    rw [← String.length_toList]
    exact (Operator.prefix_of_find? hop).2.length_le
  · exact Nat.zero_le _

theorem steady_operatorLength : Text.Steady id operatorLength := by
  have hlength : operatorLength = fun s ↦
      (operators.find? (Text.startsWith · s)).elim 0 fun op ↦ op.toList.length := by
    funext s
    unfold operatorLength Operator.find?
    cases operators.find? (Text.startsWith · s) with
    | none => rfl
    | some op => exact String.length_toList.symm
  rw [hlength]
  exact (Text.steady_firstLiteral operators).toLength

/-- How far a literal goes on is decided by what it goes over. -/
theorem size_literalTurn (quote : Char) : Text.Steady Turn.size (literalTurn quote) := by
  intro u r hle
  cases u with
  | nil =>
    -- Only the end of a line takes no character, and it ends the literal like that of the text.
    cases r with
    | nil => rfl
    | cons c r =>
      cases hturn : literalTurn quote (c :: r) with
      | aside pieces =>
        rw [List.nil_append, hturn] at hle
        exact absurd hle (Nat.not_le.2 (advances_literalTurn quote _ pieces hturn))
      | _ =>
        simp only [List.nil_append, literalTurn] at hle hturn ⊢
        split_ifs at hle hturn ⊢ <;> simp_all [Turn.size]
  | cons c t =>
    simp only [List.cons_append, literalTurn] at hle ⊢
    split_ifs at hle ⊢
    · rfl
    · rfl
    · rw [← List.cons_append] at hle ⊢
      have hwidth : Turn.size (.aside [.token Kind.escape
          ((c :: t ++ r).take (escapeLength (c :: t ++ r)))]) = escapeLength (c :: t ++ r) := by
        have hlong := escapeLength_le (c :: t ++ r)
        simp only [Turn.size, Piece.width_cons, Piece.text, Piece.width_nil, List.length_take]
        omega
      rw [hwidth] at hle
      rw [steady_escapeLength (c :: t) r hle, List.take_append_of_le_length hle]
    · rfl

theorem steady_literalTurn (quote : Char) : Turn.Steady (literalTurn quote) where
  looks := size_literalTurn quote
  fits := fits_literalTurn quote
  advances := advances_literalTurn quote
  ends := rfl
  goes s := by
    unfold literalTurn
    split
    · simp
    · split_ifs <;> simp
  close s n h := by
    unfold literalTurn at h
    split at h
    · exact Nat.le_of_eq (Turn.close.inj h).symm
    · split_ifs at h
      · obtain rfl := Turn.close.inj h
        exact Nat.zero_le _
      · obtain rfl := Turn.close.inj h
        exact Nat.succ_pos _

/-- Whether a literal with the given encoding mark begins here. -/
def opensLiteral (mark : String) (s : List Char) : Bool :=
  Text.startsWith mark s && Text.startsIn Text.isQuote (s.drop mark.toList.length)

theorem reaches_opensLiteral (mark : String) :
    Text.Reaches (mark.toList.length + 1) (opensLiteral mark) where
  needs s h := by
    have hquote := Text.length_pos_of_startsIn (Bool.and_eq_true .. ▸ h).2
    rw [List.length_drop] at hquote
    omega
  decided s r h := by
    have hne : s.drop mark.toList.length ≠ [] := by
      rw [← List.length_pos_iff, List.length_drop]
      omega
    rw [opensLiteral, opensLiteral, Text.startsWith_append mark (by omega),
      Text.drop_append (by omega), Text.startsIn_append hne]

/-- The mark in front of a literal, which may be empty. -/
def literalMark? (s : List Char) : Option String :=
  (encodingMarks ++ [""]).find? (opensLiteral · s)

theorem steady_literalMark? :
    Text.Steady (fun found ↦ found.elim 0 (·.toList.length + 1)) literalMark? :=
  Text.steady_first fun mark _ ↦ reaches_opensLiteral mark

/-- A literal is a mark, a quote, and the parts behind them. -/
theorem literal_eq (s : List Char) :
    literal s = (literalMark? s).elim none fun mark ↦
      (s.drop mark.toList.length).head?.elim none fun quote ↦
        Construct.parts .string (mark.toList.length + 1) (literalTurn quote) s := by
  have hlength : encodingMarkLength s =
      (encodingMarks.find? (opensLiteral · s)).elim 0 (·.toList.length) := by
    simp only [encodingMarkLength, opensLiteral, String.length_toList]
    cases encodingMarks.find? fun mark ↦
      Text.startsWith mark s && Text.startsIn Text.isQuote (s.drop mark.length) <;> rfl
  simp only [literal, hlength, literalMark?, List.find?_append]
  cases hmark : encodingMarks.find? (opensLiteral · s) with
  | some mark =>
    have hopens : opensLiteral mark s := List.find?_some (p := fun m ↦ opensLiteral m s) hmark
    have hquote := (Bool.and_eq_true .. ▸ hopens).2
    simp only [Option.elim_some, Option.some_or]
    cases hdrop : s.drop mark.toList.length with
    | nil => rfl
    | cons quote rest =>
      rw [hdrop, Text.startsIn_cons] at hquote
      simp [hquote]
  | none =>
    cases s with
    | nil => rfl
    | cons quote rest =>
      by_cases hquote : Text.isQuote quote <;>
        simp [opensLiteral, Text.startsWith, hquote]

theorem steady_literal : literal.Steady := by
  intro u r hle
  have hmark := steady_literalMark? u r
  rw [literal_eq] at hle
  rw [literal_eq, literal_eq]
  cases hwhole : literalMark? (u ++ r) with
  | none =>
    rw [hmark (by rw [hwhole]; exact Nat.zero_le _), hwhole]
    rfl
  | some mark =>
    have hopens : opensLiteral mark (u ++ r) :=
      List.find?_some (p := fun m ↦ opensLiteral m (u ++ r)) hwhole
    have hlong := (reaches_opensLiteral mark).needs _ hopens
    generalize hn : mark.toList.length = n at *
    obtain ⟨quote, rest, hdrop⟩ : ∃ quote rest, (u ++ r).drop n = quote :: rest := by
      apply List.exists_cons_of_ne_nil
      rw [← List.length_pos_iff, List.length_drop]
      omega
    simp only [hwhole, Option.elim_some, hn, hdrop, List.head?_cons] at hle ⊢
    have hfits : n + 1 ≤ u.length := by
      obtain ⟨ps, hps⟩ := Option.isSome_iff_exists.1 ((steady_literalTurn quote).isSome_partsFrom
        Kind.string ((u ++ r).take (n + 1)).reverse ((u ++ r).drop (n + 1)))
      have hread : Construct.parts .string (n + 1) (literalTurn quote) (u ++ r) = some ps := hps
      have hwidth := Construct.le_width_parts (fits_literalTurn quote) hread
      rw [hread, foundWidth, Option.getD_some] at hle
      omega
    have hfront : literalMark? u = some mark := by
      rw [hmark (by simpa only [hwhole, Option.elim_some, hn] using hfits), hwhole]
    have hquote : (u.drop n).head? = some quote := by
      have hne : u.drop n ≠ [] := by
        rw [← List.length_pos_iff, List.length_drop]
        omega
      rw [Text.drop_append (by omega)] at hdrop
      obtain ⟨c, t, hct⟩ := List.exists_cons_of_ne_nil hne
      rw [hct] at hdrop ⊢
      rw [(List.cons.inj hdrop).1, List.head?_cons]
    simp only [hfront, Option.elim_some, hn, hquote]
    exact (steady_literalTurn quote).parts_of_append hfits hle

/-! ## Directives -/

/-- A header ends at the first bracket, unless its line ends before. -/
theorem headerLength_eq (s : List Char) : headerLength s =
    (Text.after? "<" s).elim 0 fun rest ↦
      (Text.findClosing? (fun c ↦ c == '>' || c == '\n') '>' rest).elim 0 (· + 2) := by
  cases hafter : Text.after? "<" s with
  | none =>
    have hstart : Text.startsWith "<" s = false := by
      rw [Text.after?] at hafter
      simpa using hafter
    rw [headerLength, hstart]
    rfl
  | some rest =>
    obtain rfl := Text.after?_eq_some.1 hafter
    change headerLength ('<' :: rest) = _
    rw [headerLength, Text.findIn?, Text.find?_cons]
    simp only [Option.elim_some, Text.findClosing?, Text.findIn?]
    cases Text.find? (Text.startsIn fun c ↦ c == '>' || c == '\n') rest with
    | none => rfl
    | some n =>
      by_cases hclosing : Text.startsIn (· == '>') (rest.drop n) <;>
        simp [hclosing, Option.filter_some, Text.startsWith_single (show "<".toList = ['<'] from rfl),
          Text.startsWith_single (show ">".toList = ['>'] from rfl), Nat.add_comm 1 n]

theorem steady_headerLength : Text.Steady id headerLength := by
  refine Text.steady_after "<" (Text.findClosing? (fun c ↦ c == '>' || c == '\n') '>')
    (·.elim 0 (· + 2)) 0 headerLength_eq ?_ (Text.steady_findClosing? _ _)
  intro found
  cases found with
  | none => exact .inl ⟨rfl, rfl⟩
  | some n => exact .inr (Nat.add_comm (n + 1) 1)

section

variable [Text.IdentifierClasses]

theorem isSome_operand (name s : List Char) : (operand name s).isSome := by
  unfold operand
  split_ifs <;> rfl

@[simp]
theorem steady_operand (name : List Char) : (operand name).Steady := by
  have hoptional (label : Kind) {length : List Char → Nat} (h : Text.Steady id length)
      (hle : ∀ s, length s ≤ s.length) :
      (Construct.seq [.skip blankLength, .optional (.measured label length)]).Steady := by
    have hlast : (Construct.seq [.optional (.measured label length)]).Steady :=
      Construct.steady_seq_cons
        (Construct.steady_optional (Construct.steady_measured label h hle) fun _ ↦ rfl)
        Construct.steady_seq_nil fun _ ↦ rfl
    exact Construct.steady_seq_cons
      (Construct.steady_skip (Text.greedy_spanLength isBlank).steady (Text.spanLength_le _)) hlast
      fun _ ↦ rfl
  unfold operand
  split_ifs
  · exact hoptional _ steady_headerLength headerLength_le
  · exact hoptional _ (Text.greedy_wordLength _ _).steady Text.wordLength_le
  · exact Construct.steady_seq_nil

/-- A directive behind its hash sign: blanks, the name, and what is shown of the operands. -/
def behindHash (rest : List Char) : List Char × List Char × List (Piece Kind) :=
  let blanks := rest.takeWhile isBlank
  let rest := rest.drop blanks.length
  let name := rest.take (identifierLength rest)
  (blanks, name, (operand name (rest.drop name.length)).getD [])

theorem steady_behindHash :
    Text.Steady (fun found ↦ found.1.length + (found.2.1.length + width found.2.2)) behindHash := by
  have hoperand (name : List Char) : Text.Steady width fun rest ↦ (operand name rest).getD [] :=
    Text.Steady.map (steady_operand name) (·.getD []) fun _ ↦ rfl
  have hname : Text.Steady List.length fun rest ↦ rest.take (identifierLength rest) :=
    (Text.greedy_wordLength _ _).steady.taken Text.wordLength_le
  have hnamed : Text.Steady (fun found ↦ found.1.length + width found.2) fun rest ↦
      let name := rest.take (identifierLength rest)
      (name, (operand name (rest.drop name.length)).getD []) :=
    hname.followed (fun name rest ↦ (operand name rest).getD []) Prod.mk (fun _ _ ↦ rfl) hoperand
  exact (Text.steady_takeWhile isBlank).followed _ Prod.mk (fun _ _ ↦ rfl) fun _ ↦ hnamed

theorem directive_eq (s : List Char) :
    directive s = (Text.after? "#" s).elim none fun rest ↦
      some (directiveMark (behindHash rest).1 (behindHash rest).2.1 ++ (behindHash rest).2.2) := by
  cases hafter : Text.after? "#" s with
  | none => simp only [directive, hafter, Option.elim_none]
  | some rest =>
    obtain rfl := Text.after?_eq_some.1 hafter
    obtain ⟨ps, hps⟩ := Option.isSome_iff_exists.1 (isSome_operand (behindHash rest).2.1
      ((rest.drop (behindHash rest).1.length).drop (behindHash rest).2.1.length))
    simp only [directive, hafter, Option.elim_some]
    refine Construct.seq_cons_eq_some.2 ⟨_, (behindHash rest).2.2, rfl, ?_, rfl⟩
    have hdrop : ("#".toList ++ rest).drop (width (directiveMark (behindHash rest).1
        (behindHash rest).2.1)) =
        (rest.drop (behindHash rest).1.length).drop (behindHash rest).2.1.length := by
      rw [(covers_directiveMark _ _).2, List.length_cons, List.length_append, List.drop_drop]
      rfl
    have hread : (behindHash rest).2.2 = ps := by
      simp only [behindHash] at hps ⊢
      rw [hps, Option.getD_some]
    rw [hread]
    exact Construct.seq_cons_eq_some.2 ⟨ps, [], hdrop ▸ hps, rfl, (List.append_nil ps).symm⟩

theorem steady_directive : directive.Steady := by
  refine Text.steady_after "#" behindHash
    (fun found ↦ some (directiveMark found.1 found.2.1 ++ found.2.2)) none directive_eq ?_
    steady_behindHash
  intro found
  refine .inr ?_
  rw [foundWidth, Option.getD_some, Piece.width_append, (covers_directiveMark _ _).2,
    List.length_cons, List.length_append, Nat.add_comm _ 1, Nat.add_assoc, Nat.add_assoc]
  rfl

end

/-! ## Items -/

theorem steady_block : Comment.block.Steady := by
  have hwidth (s : List Char) :
      foundWidth (Comment.block s) = (Comment.blockExtent s).length := by
    have hle := Comment.hasRoom_blockExtent.le_length s
    simp only [Comment.block]
    split_ifs with hzero
    · exact hzero.symm
    · rw [foundWidth, Option.getD_some, (Comment.covers_blockPieces _ _).2, List.length_take]
      exact Nat.min_eq_left hle
  intro u r hle
  rw [hwidth] at hle
  simp only [Comment.block, Comment.steady_blockExtent u r hle,
    List.take_append_of_le_length hle]

theorem steady_comment : comment.Steady := by
  apply Construct.steady_firstOf
  · simp only [List.forall_mem_cons]
    exact ⟨Construct.steady_of_length Comment.linePieces steady_lineCommentLength
      hasRoom_lineCommentLength.le_length (fun _ ↦ Piece.textOf_framed ..) fun _ ↦ rfl,
      steady_block, List.forall_mem_nil _⟩
  · simp only [List.forall_mem_cons]
    exact ⟨fun _ ↦ rfl, fun _ ↦ rfl, List.forall_mem_nil _⟩

theorem steady_word [Text.IdentifierClasses]
    (dialect : Dialect) (strict : Bool) : (word dialect strict).Steady := by
  have hle (s : List Char) : identifierLength s ≤ s.length := Text.wordLength_le s
  apply Construct.steady_of_length
    (fun name ↦ [.token ((keyword? dialect strict name).getD .identifier) name])
    (Text.greedy_wordLength isIdentifierStart isIdentifierPart).steady hle
    fun _ ↦ by simp [Piece.text]
  intro s
  have hempty : (s.take (identifierLength s)).isEmpty ↔ identifierLength s = 0 := by
    rw [List.isEmpty_iff, ← List.length_eq_zero_iff, List.length_take, Nat.min_eq_left (hle s)]
  simp only [word, hempty]
  rfl

theorem operator_eq (s : List Char) : operator s =
    (operators.find? (Text.startsWith · s)).map
      fun op ↦ [Piece.token (Operator.kind op) op.toList] := by
  simp only [operator, Operator.find?]
  cases operators.find? (Text.startsWith · s) <;> rfl

theorem steady_operator : operator.Steady := by
  rw [Construct.Steady, show operator.read = _ from funext operator_eq]
  refine Text.Steady.map (Text.steady_firstLiteral operators)
    (·.map fun op ↦ [Piece.token (Operator.kind op) op.toList]) ?_
  intro found
  cases found <;> simp [foundWidth, Piece.text]

theorem steady_junk : junk.Steady := by
  have hgreedy : Text.Greedy fun s : List Char ↦ (s.take 1).length := by
    intro u r
    simp only [List.length_take, List.length_append]
    omega
  exact Construct.steady_measured _ hgreedy.steady hgreedy.le

theorem steady_code [Text.IdentifierClasses] (dialect : Dialect) (strict atLineStart : Bool) :
    (code dialect strict atLineStart).Steady := by
  apply Construct.steady_firstOf
  · simp only [List.forall_mem_cons]
    exact ⟨Construct.steady_onlyIf _ steady_directive, Construct.steady_onlyIf _
      (Construct.steady_measured _ steady_rawStringLength rawStringLength_le), steady_literal,
      Construct.steady_measured _ steady_numberLength numberLength_le, steady_word _ _,
      steady_operator, steady_junk, List.forall_mem_nil _⟩
  · simp only [List.forall_mem_cons]
    refine ⟨Construct.trail_onlyIf _ fun _ ↦ rfl, Construct.trail_onlyIf _ fun _ ↦ rfl, fun _ ↦ rfl,
      fun _ ↦ rfl, fun _ ↦ rfl, fun _ ↦ rfl, fun _ ↦ rfl, List.forall_mem_nil _⟩

end Highlight.CFamily
