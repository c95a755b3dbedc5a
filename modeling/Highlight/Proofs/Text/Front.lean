import Mathlib.Data.List.Infix
import Highlight.Text.Quoted

/-!
# Fronts of texts

What the measuring functions say about a text that is split in two. Each of them gives the length of
a front part exactly if that part is of the right form and the rest does not continue it, and a
search gives the first place where what is sought begins.
-/

namespace Highlight.Text

variable {p first next : Char → Bool} {here : List Char → Bool}

theorem after?_eq_some {lit : String} {s rest : List Char} :
    after? lit s = some rest ↔ s = lit.toList ++ rest := by
  unfold after?
  by_cases h : startsWith lit s
  · obtain ⟨t, rfl⟩ := startsWith_iff.1 h
    simp only [h, if_true, Option.some.injEq, List.append_cancel_left_eq]
    rw [← String.length_toList, List.drop_left]
  · simp only [h, if_false, Bool.false_eq_true, reduceCtorEq, false_iff]
    rintro rfl
    exact h (startsWith_iff.2 (List.prefix_append _ _))

theorem after?_append {lit : String} {s rest : List Char} (h : after? lit s = some rest)
    (t : List Char) : after? lit (s ++ t) = some (rest ++ t) := by
  rw [after?_eq_some] at h ⊢
  rw [h, List.append_assoc]

@[simp]
theorem startsIn_nil (p : Char → Bool) : startsIn p [] = false := rfl

@[simp]
theorem startsIn_cons (p : Char → Bool) (c : Char) (s : List Char) :
    startsIn p (c :: s) = p c := rfl

theorem startsIn_of_append {p : Char → Bool} {t r : List Char}
    (h : startsIn p (t ++ r) = false) : startsIn p t = false := by
  cases t with
  | nil => rfl
  | cons c t => exact h

theorem length_le_of_startsWith {lit : String} {s : List Char} (h : startsWith lit s) :
    lit.toList.length ≤ s.length :=
  (startsWith_iff.1 h).length_le

theorem startsWith_append (lit : String) {s : List Char} (h : lit.toList.length ≤ s.length)
    (t : List Char) : startsWith lit (s ++ t) = startsWith lit s := by
  rw [Bool.eq_iff_iff, startsWith_iff, startsWith_iff]
  constructor
  · exact fun hlit ↦ List.prefix_of_prefix_length_le hlit (List.prefix_append s t) h
  · exact fun hlit ↦ hlit.trans (List.prefix_append s t)

/-- A literal tells its first character. -/
theorem startsWith_cons_eq_false {lit : String} {first c : Char}
    (hlit : lit.toList.head? = some first) (hc : c ≠ first) (s : List Char) :
    startsWith lit (c :: s) = false := by
  obtain ⟨rest, hrest⟩ := List.head?_eq_some_iff.1 hlit
  rw [Bool.eq_false_iff, ne_eq, startsWith_iff, hrest, List.cons_prefix_cons, not_and]
  exact fun hfirst ↦ absurd hfirst.symm hc

theorem after?_cons_eq_none (lit : String) {first c : Char} (hlit : lit.toList.head? = some first)
    (hc : c ≠ first) (s : List Char) : after? lit (c :: s) = none := by
  rw [after?, startsWith_cons_eq_false hlit hc, if_neg Bool.false_ne_true]

theorem length_pos_of_startsIn {s : List Char} (h : startsIn p s) :
    1 ≤ s.length := by
  cases s with
  | nil => simp at h
  | cons c s => exact Nat.succ_pos _

/-- What reaches past the front of a text takes in the next character. -/
theorem exists_of_prefix_append_cons {lit s t : List Char} {c : Char} (h : lit <+: s ++ c :: t)
    (hlong : s.length < lit.length) : ∃ more, lit = s ++ c :: more ∧ more <+: t := by
  obtain ⟨between, rfl⟩ :=
    List.prefix_of_prefix_length_le (List.prefix_append s (c :: t)) h (Nat.le_of_lt hlong)
  rw [List.prefix_append_right_inj] at h
  cases between with
  | nil => simp at hlong
  | cons d more =>
    obtain ⟨rfl, hmore⟩ := List.cons_prefix_cons.1 h
    exact ⟨more, rfl, hmore⟩

/-- A literal does not reach beyond a character that is not in it. -/
theorem prefix_of_prefix_append_cons {lit s t : List Char} {c : Char} (h : lit <+: s ++ c :: t)
    (hc : c ∉ lit) : lit <+: s := by
  rcases List.prefix_or_prefix_of_prefix h (List.prefix_append s (c :: t)) with hlit | ⟨u, rfl⟩
  · exact hlit
  · rw [List.prefix_append_right_inj] at h
    cases u with
    | nil => simp
    | cons d u =>
      obtain ⟨rfl, -⟩ := List.cons_prefix_cons.1 h
      simp at hc

/-- A run of the class is as long as it can be. -/
theorem spanLength_append_iff {u r : List Char} :
    spanLength p (u ++ r) = u.length ↔ (∀ c ∈ u, p c) ∧ startsIn p r = false := by
  induction u with
  | nil =>
    cases r with
    | nil => simp
    | cons c r => by_cases hc : p c <;> simp [spanLength_cons, hc]
  | cons c u ih =>
    rw [List.cons_append, spanLength_cons]
    by_cases hc : p c <;> simp [hc, ih]

/-- A run that ends within the text does not depend on what follows. -/
theorem spanLength_append {p : Char → Bool} {s : List Char} (h : spanLength p s < s.length)
    (t : List Char) : spanLength p (s ++ t) = spanLength p s := by
  induction s with
  | nil => simp at h
  | cons c s ih =>
    rw [spanLength_cons, List.length_cons] at h
    rw [List.cons_append, spanLength_cons, spanLength_cons]
    split_ifs at h ⊢ with hc
    · rw [ih (Nat.lt_of_succ_lt_succ h)]
    · rfl

theorem spanLength_eq_zero_iff {s : List Char} : spanLength p s = 0 ↔ startsIn p s = false := by
  cases s with
  | nil => simp
  | cons c s => by_cases hc : p c <;> simp [spanLength_cons, hc]

theorem takeWhile_append_drop (p : Char → Bool) (s : List Char) :
    s.takeWhile p ++ s.drop (s.takeWhile p).length = s :=
  List.prefix_iff_eq_append.1 (List.takeWhile_prefix p)

theorem forall_mem_takeWhile {s : List Char} : ∀ c ∈ s.takeWhile p, p c :=
  List.all_eq_true.1 List.all_takeWhile

theorem forall_mem_take_spanLength {s : List Char} : ∀ c ∈ s.take (spanLength p s), p c := by
  rw [take_spanLength]
  exact forall_mem_takeWhile

/-- Every text begins with a run of the class that cannot be longer. -/
theorem exists_run (p : Char → Bool) (s : List Char) :
    ∃ u v, s = u ++ v ∧ (∀ c ∈ u, p c) ∧ startsIn p v = false := by
  have hsplit := takeWhile_append_drop p s
  refine ⟨_, _, hsplit.symm, forall_mem_takeWhile, ?_⟩
  apply (spanLength_append_iff.1 (_ : spanLength p (_ ++ _) = (s.takeWhile p).length)).2
  rw [hsplit, spanLength]

/-- A run with a limit on its length ends at the limit, or else where the class ends. -/
theorem takeWhile_take_eq_iff {s u : List Char} {limit : Nat} :
    (s.take limit).takeWhile p = u ↔
      ∃ r, s = u ++ r ∧ (∀ c ∈ u, p c) ∧ u.length ≤ limit ∧
        (u.length = limit ∨ startsIn p r = false) := by
  constructor
  · rintro rfl
    obtain ⟨u, v, hsplit, hu, hv⟩ := exists_run p (s.take limit)
    have hrun : (s.take limit).takeWhile p = u := by
      rw [hsplit, ← take_spanLength, spanLength_append_iff.2 ⟨hu, hv⟩, List.take_left]
    have hlength : u.length + v.length = min limit s.length := by
      rw [← List.length_append, ← hsplit, List.length_take]
    rw [hrun]
    refine ⟨v ++ s.drop limit, ?_, hu, by omega, ?_⟩
    · rw [← List.append_assoc, ← hsplit, List.take_append_drop]
    · cases v with
      | cons c v => exact .inr hv
      | nil =>
        by_cases hlong : limit ≤ s.length
        · exact .inl (by simpa [Nat.min_eq_left hlong] using hlength)
        · exact .inr (by rw [List.drop_of_length_le (by omega)]; rfl)
  · rintro ⟨r, rfl, hu, hle, hend⟩
    have hrest : startsIn p (r.take (limit - u.length)) = false := by
      rcases hend with rfl | hr
      · rw [Nat.sub_self, List.take_zero, startsIn_nil]
      · rw [← List.take_append_drop (limit - u.length) r] at hr
        exact startsIn_of_append hr
    rw [List.take_append, List.take_of_length_le hle, ← take_spanLength,
      spanLength_append_iff.2 ⟨hu, hrest⟩, List.take_left]

/-- A front that lies in the class is no longer than the run is. -/
theorem length_le_spanLength {s u : List Char} (hu : u <+: s) (h : ∀ c ∈ u, p c) :
    u.length ≤ spanLength p s := by
  obtain ⟨r, rfl⟩ := hu
  rw [spanLength, List.takeWhile_append_of_pos h, List.length_append]
  exact Nat.le_add_right _ _

theorem take_spanLength_ne_nil {s : List Char} (h : spanLength p s ≠ 0) :
    s.take (spanLength p s) ≠ [] := by
  rw [take_spanLength, ← List.length_pos_iff]
  exact Nat.pos_of_ne_zero h

theorem wordLength_le (s : List Char) : wordLength first next s ≤ s.length := by
  cases s with
  | nil => exact Nat.le_refl 0
  | cons c s =>
    have hle : 1 + spanLength next s ≤ (c :: s).length :=
      calc
        _ ≤ 1 + s.length := Nat.add_le_add_left (spanLength_le next s) 1
        _ = (c :: s).length := Nat.add_comm _ _
    rw [wordLength]
    split_ifs
    · exact hle
    · exact Nat.zero_le _

/-- A word is as long as it can be, and 0 stands for no word. -/
theorem wordLength_append_iff {u r : List Char} (hu : u ≠ []) :
    wordLength first next (u ++ r) = u.length ↔
      (∃ c v, u = c :: v ∧ first c ∧ ∀ d ∈ v, next d) ∧ startsIn next r = false := by
  obtain ⟨c, v, rfl⟩ := List.exists_cons_of_ne_nil hu
  rw [List.cons_append, wordLength]
  by_cases hc : first c
  · rw [if_pos hc, List.length_cons, Nat.add_comm, Nat.add_right_cancel_iff, spanLength_append_iff]
    constructor
    · rintro ⟨hv, hr⟩
      exact ⟨⟨c, v, rfl, hc, hv⟩, hr⟩
    · rintro ⟨⟨d, w, hcv, -, hv⟩, hr⟩
      obtain ⟨rfl, rfl⟩ := List.cons.inj hcv
      exact ⟨hv, hr⟩
  · rw [if_neg hc]
    constructor
    · intro h
      exact absurd h.symm (Nat.succ_ne_zero _)
    · rintro ⟨⟨d, w, hcv, hd, -⟩, -⟩
      exact absurd ((List.cons.inj hcv).1 ▸ hd) hc

theorem wordLength_eq_zero_iff {s : List Char} :
    wordLength first next s = 0 ↔ startsIn first s = false := by
  cases s with
  | nil => simp [wordLength]
  | cons c s => by_cases hc : first c <;> simp [wordLength, hc]

theorem forall_mem_take_wordLength {s : List Char} :
    ∀ c ∈ s.take (wordLength first next s), first c ∨ next c := by
  cases s with
  | nil => simp
  | cons c s =>
    rw [wordLength]
    split
    · next hc =>
      rw [Nat.add_comm, List.take_succ_cons, List.forall_mem_cons]
      exact ⟨.inl hc, fun d hd ↦ .inr (forall_mem_take_spanLength d hd)⟩
    · simp

/-- A search gives the first place where what is sought begins. -/
theorem find?_eq_some_iff {s : List Char} {n : Nat} :
    find? here s = some n ↔
      n ≤ s.length ∧ here (s.drop n) ∧ ∀ m < n, here (s.drop m) = false := by
  induction s generalizing n with
  | nil =>
    by_cases h : here []
    · simp only [find?_nil, h, if_true, Option.some.injEq, List.length_nil, Nat.le_zero_eq,
        List.drop_nil]
      constructor
      · rintro rfl
        exact ⟨rfl, trivial, fun m hm ↦ absurd hm (Nat.not_lt_zero m)⟩
      · exact fun hn ↦ hn.1.symm
    · simp [find?_nil, h]
  | cons c s ih =>
    by_cases h : here (c :: s)
    · simp only [find?_cons, h, if_true, Option.some.injEq]
      constructor
      · rintro rfl
        exact ⟨Nat.zero_le _, h, fun m hm ↦ absurd hm (Nat.not_lt_zero m)⟩
      · rintro ⟨-, -, hfirst⟩
        rcases Nat.eq_zero_or_pos n with rfl | hn
        · rfl
        · exact absurd h (by simpa using hfirst 0 hn)
    · simp only [find?_cons, h, if_false, Bool.false_eq_true, Option.map_eq_some_iff, ih]
      constructor
      · rintro ⟨m, ⟨hm, hhere, hfirst⟩, rfl⟩
        refine ⟨by rw [List.length_cons]; omega, by rw [Nat.add_comm]; exact hhere, ?_⟩
        intro k hk
        cases k with
        | zero => simpa using h
        | succ k => exact hfirst k (by omega)
      · rintro ⟨hn, hhere, hfirst⟩
        cases n with
        | zero => exact absurd hhere h
        | succ n =>
          refine ⟨n, ⟨by simpa using hn, hhere, fun m hm ↦ ?_⟩, Nat.add_comm 1 n⟩
          exact hfirst (m + 1) (by omega)

theorem find?_eq_none_iff {s : List Char} :
    find? here s = none ↔ ∀ m ≤ s.length, here (s.drop m) = false := by
  induction s with
  | nil => simp [find?_nil]
  | cons c s ih =>
    by_cases h : here (c :: s)
    · simp only [find?_cons, h, if_true, reduceCtorEq, false_iff, not_forall]
      exact ⟨0, Nat.zero_le _, by simp [h]⟩
    · simp only [find?_cons, h, if_false, Bool.false_eq_true, Option.map_eq_none_iff, ih]
      constructor
      · intro hs m hm
        cases m with
        | zero => simpa using h
        | succ m => exact hs m (by simpa using hm)
      · intro hs m hm
        exact hs (m + 1) (by simpa using hm)

theorem le_length_of_find? {s : List Char} {n : Nat} (h : find? here s = some n) : n ≤ s.length :=
  (find?_eq_some_iff.1 h).1

/-- A literal that is found lies within the text. -/
theorem add_length_le_of_findLiteral? {lit : String} {s : List Char} {n : Nat}
    (h : findLiteral? lit s = some n) : n + lit.length ≤ s.length := by
  obtain ⟨hn, hlit, -⟩ := find?_eq_some_iff.1 h
  have hle := (startsWith_iff.1 hlit).length_le
  rw [String.length_toList, List.length_drop] at hle
  omega

theorem length_dropLast_add_one {lit : String} (hlit : lit.toList ≠ []) :
    lit.toList.dropLast.length + 1 = lit.toList.length := by
  have hpos := List.length_pos_iff.2 hlit
  rw [List.length_dropLast]
  omega

/-- Where a literal begins before the place where it stands, it ends before that one does. -/
theorem startsWith_cons_append_iff {lit : String} (hlit : lit.toList ≠ []) {c : Char}
    {body r : List Char} : startsWith lit (c :: (body ++ (lit.toList ++ r))) ↔
      lit.toList <+: c :: (body ++ lit.toList.dropLast) := by
  have hsplit : c :: (body ++ (lit.toList ++ r)) =
      (c :: (body ++ lit.toList.dropLast)) ++ ([lit.toList.getLast hlit] ++ r) := by
    rw [List.cons_append, List.append_assoc, ← List.append_assoc lit.toList.dropLast,
      List.dropLast_append_getLast]
  have hlength := length_dropLast_add_one hlit
  rw [startsWith_iff, hsplit]
  constructor
  · intro hprefix
    apply List.prefix_of_prefix_length_le hprefix (List.prefix_append _ _)
    rw [List.length_cons, List.length_append]
    omega
  · exact fun hprefix ↦ hprefix.trans (List.prefix_append _ _)

/-- A literal is found where it stands unless it begins before that, where its end may lie within
the one that stands there. -/
theorem findLiteral?_append_iff {lit : String} (hlit : lit.toList ≠ []) {body r : List Char} :
    findLiteral? lit (body ++ (lit.toList ++ r)) = some body.length ↔
      ¬ lit.toList <:+: body ++ lit.toList.dropLast := by
  induction body with
  | nil =>
    have hfound : findLiteral? lit ([] ++ (lit.toList ++ r)) = some 0 := by
      apply find?_eq_some_iff.2
      refine ⟨Nat.zero_le _, startsWith_iff.2 (List.prefix_append _ _), ?_⟩
      exact fun m hm ↦ absurd hm (Nat.not_lt_zero m)
    refine iff_of_true hfound fun hinfix ↦ ?_
    have hle := hinfix.length_le
    have hlength := length_dropLast_add_one hlit
    rw [List.nil_append] at hle
    omega
  | cons c body ih =>
    rw [List.cons_append, List.cons_append, findLiteral?, find?_cons, List.infix_cons_iff,
      ← startsWith_cons_append_iff hlit (r := r), List.length_cons]
    by_cases h : startsWith lit (c :: (body ++ (lit.toList ++ r)))
    · simp [h]
    · simp only [h, if_false, Bool.false_eq_true, false_or, ← ih, findLiteral?,
        Option.map_eq_some_iff]
      constructor
      · rintro ⟨n, hn, hsucc⟩
        rwa [show n = body.length by omega] at hn
      · exact fun hn ↦ ⟨_, hn, Nat.add_comm _ _⟩

/-- A character that does not end the literal does not complete it either. -/
theorem infix_concat_iff_of_ne {lit s : List Char} {c : Char} (h : lit.getLast? ≠ some c) :
    lit <:+: s ++ [c] ↔ lit <:+: s := by
  rw [List.infix_concat_iff, List.suffix_concat_iff]
  constructor
  · rintro ((rfl | ⟨t, rfl, -⟩) | hinfix)
    · exact List.nil_infix
    · simp at h
    · exact hinfix
  · exact .inr

/-- A literal is found behind the text in which it does not begin. -/
theorem findLiteral?_eq_some_iff {lit : String} (hlit : lit.toList ≠ []) {s : List Char} {n : Nat} :
    findLiteral? lit s = some n ↔ ∃ front rest, s = front ++ (lit.toList ++ rest) ∧
      front.length = n ∧ ¬ lit.toList <:+: front ++ lit.toList.dropLast := by
  constructor
  · intro h
    obtain ⟨hle, hhere, -⟩ := find?_eq_some_iff.1 h
    obtain ⟨rest, hrest⟩ := startsWith_iff.1 hhere
    have hs : s = s.take n ++ (lit.toList ++ rest) := by rw [hrest, List.take_append_drop]
    have hn : (s.take n).length = n := by rw [List.length_take, Nat.min_eq_left hle]
    refine ⟨s.take n, rest, hs, hn, ?_⟩
    rw [← findLiteral?_append_iff hlit, ← hs, hn]
    exact h
  · rintro ⟨front, rest, rfl, rfl, hfirst⟩
    exact (findLiteral?_append_iff hlit).2 hfirst

/-- A literal that stands anywhere stands somewhere for the first time. -/
theorem exists_first {lit : String} (hlit : lit.toList ≠ []) {s : List Char}
    (h : lit.toList <:+: s) : ∃ front rest, s = front ++ (lit.toList ++ rest) ∧
      ¬ lit.toList <:+: front ++ lit.toList.dropLast := by
  cases hfind : findLiteral? lit s with
  | some n =>
    obtain ⟨front, rest, hs, -, hfirst⟩ := (findLiteral?_eq_some_iff hlit).1 hfind
    exact ⟨front, rest, hs, hfirst⟩
  | none =>
    obtain ⟨front, rest, rfl⟩ := h
    have hnone := find?_eq_none_iff.1 hfind front.length (by simp)
    rw [List.append_assoc, List.drop_left, startsWith_iff.2 (List.prefix_append _ _)] at hnone
    exact Bool.noConfusion hnone

theorem findLiteral?_append {lit : String} (hlit : lit.toList ≠ []) {s : List Char} {n : Nat}
    (h : findLiteral? lit s = some n) (t : List Char) : findLiteral? lit (s ++ t) = some n := by
  obtain ⟨front, rest, rfl, rfl, hfirst⟩ := (findLiteral?_eq_some_iff hlit).1 h
  rw [List.append_assoc, List.append_assoc]
  exact (findLiteral?_append_iff hlit).2 hfirst

/-- What stands between a literal and the next place where another one does. -/
theorem exists_between {opening closing : String} (hclosing : closing.toList ≠ [])
    {s rest : List Char} {n : Nat} (hafter : after? opening s = some rest)
    (hfind : findLiteral? closing rest = some n) :
    ∃ body behind, s = opening.toList ++ body ++ closing.toList ++ behind ∧
      rest = body ++ (closing.toList ++ behind) ∧ body.length = n ∧
        ¬ closing.toList <:+: body ++ closing.toList.dropLast := by
  obtain ⟨body, behind, rfl, rfl, hbody⟩ := (findLiteral?_eq_some_iff hclosing).1 hfind
  refine ⟨body, behind, ?_, rfl, rfl, hbody⟩
  rw [after?_eq_some.1 hafter, List.append_assoc, List.append_assoc]

/-- A character of the class is found behind the text in which there is none. -/
theorem findIn?_eq_some_iff {s : List Char} {n : Nat} :
    findIn? p s = some n ↔ ∃ front c rest, s = front ++ c :: rest ∧
      front.length = n ∧ p c ∧ ∀ d ∈ front, p d = false := by
  induction s generalizing n with
  | nil => simp [findIn?, find?_nil]
  | cons c s ih =>
    rw [findIn?, find?_cons, startsIn_cons]
    by_cases hc : p c
    · simp only [hc, if_true, Option.some.injEq]
      constructor
      · rintro rfl
        exact ⟨[], c, s, rfl, rfl, hc, List.forall_mem_nil _⟩
      · rintro ⟨front, d, rest, hs, rfl, -, hfront⟩
        cases front with
        | nil => rfl
        | cons e front =>
          obtain ⟨rfl, -⟩ := List.cons.inj hs
          exact absurd hc (by simpa using hfront c List.mem_cons_self)
    · simp only [hc, if_false, Option.map_eq_some_iff, Bool.false_eq_true]
      constructor
      · rintro ⟨m, hm, rfl⟩
        obtain ⟨front, d, rest, rfl, rfl, hd, hfront⟩ := ih.1 hm
        refine ⟨c :: front, d, rest, rfl, Nat.add_comm _ _, hd, ?_⟩
        exact List.forall_mem_cons.2 ⟨by simpa using hc, hfront⟩
      · rintro ⟨front, d, rest, hs, rfl, hd, hfront⟩
        cases front with
        | nil =>
          obtain ⟨rfl, -⟩ := List.cons.inj hs
          exact absurd hd hc
        | cons e front =>
          obtain ⟨rfl, rfl⟩ := List.cons.inj hs
          refine ⟨front.length, ih.2 ⟨front, d, rest, rfl, rfl, hd, ?_⟩, Nat.add_comm _ _⟩
          exact fun e he ↦ hfront e (List.mem_cons_of_mem _ he)

/-- A character that is found lies within the text. -/
theorem lt_length_of_findIn? {s : List Char} {n : Nat} (h : findIn? p s = some n) :
    n < s.length := by
  obtain ⟨hn, hp, -⟩ := find?_eq_some_iff.1 h
  rcases Nat.lt_or_eq_of_le hn with hlt | rfl
  · exact hlt
  · simp at hp

/-! ## Quoted texts -/

theorem quotedLength_le (s : List Char) : quotedLength s ≤ s.length := by
  cases s with
  | nil => exact Nat.le_refl 0
  | cons quote s =>
    rw [quotedLength, List.length_cons]
    split
    · split
      · next n hn =>
        have hlt := lt_length_of_findIn? hn
        omega
      · exact Nat.zero_le _
    · exact Nat.zero_le _

theorem exists_of_quotedLength {i r : List Char} (hi : i ≠ [])
    (h : quotedLength (i ++ r) = i.length) :
    ∃ quote s, i = [quote] ++ s ++ [quote] ∧ isQuote quote ∧ quote ∉ s := by
  obtain ⟨quote, s, rfl⟩ := List.exists_cons_of_ne_nil hi
  rw [List.cons_append, quotedLength, List.length_cons] at h
  split_ifs at h with hquote
  cases hfind : findIn? (· == quote) (s ++ r) with
  | none => simp [hfind] at h
  | some n =>
    simp only [hfind] at h
    obtain ⟨body, c, rest, hs, rfl, hc, hbody⟩ := findIn?_eq_some_iff.1 hfind
    obtain rfl := beq_iff_eq.1 hc
    rw [List.append_cons] at hs
    have hlength : s.length = (body ++ [c]).length := by
      rw [List.length_append, List.length_singleton]
      omega
    obtain ⟨rfl, -⟩ := List.append_inj hs hlength
    refine ⟨c, body, rfl, hquote, fun hmem ↦ ?_⟩
    simpa using hbody c hmem

/-- A quoted text ends at the first quote of its kind. -/
theorem quotedLength_append {quote : Char} {s : List Char} (hquote : isQuote quote)
    (hs : quote ∉ s) (r : List Char) :
    quotedLength ([quote] ++ s ++ [quote] ++ r) = ([quote] ++ s ++ [quote]).length := by
  have hfind : findIn? (· == quote) (s ++ quote :: r) = some s.length := by
    refine findIn?_eq_some_iff.2 ⟨s, quote, r, rfl, rfl, beq_self_eq_true quote, ?_⟩
    intro c hc
    rw [beq_eq_false_iff_ne]
    exact ne_of_mem_of_not_mem hc hs
  simp [quotedLength, hquote, hfind]

/-! ## Room -/

/-- A length that is not 0 has room for `frame` characters and lies within the text. -/
def HasRoom (frame : Nat) (length : List Char → Nat) : Prop :=
  ∀ s, length s = 0 ∨ frame ≤ length s ∧ length s ≤ s.length

theorem hasRoom_zero {length : List Char → Nat} (h : ∀ s, length s ≤ s.length) :
    HasRoom 0 length :=
  fun s ↦ .inr ⟨Nat.zero_le _, h s⟩

theorem add_le_length {m n : Nat} {s : List Char} (hm : m ≤ s.length)
    (hn : n ≤ (s.drop m).length) : m + n ≤ s.length :=
  calc
    _ ≤ m + (s.drop m).length := Nat.add_le_add_left hn m
    _ = m + (s.length - m) := by rw [List.length_drop]
    _ = s.length := Nat.add_sub_cancel' hm

theorem HasRoom.le_length {frame : Nat} {length : List Char → Nat} (h : HasRoom frame length)
    (s : List Char) : length s ≤ s.length := by
  rcases h s with h0 | ⟨-, hle⟩
  · rw [h0]
    exact Nat.zero_le _
  · exact hle

theorem HasRoom.frame_le {frame : Nat} {length : List Char → Nat} (h : HasRoom frame length)
    {s : List Char} (hs : length s ≠ 0) : frame ≤ length s :=
  ((h s).resolve_left hs).1

/-- Without characters a length is 0. -/
theorem HasRoom.length_nil {frame : Nat} {length : List Char → Nat} (h : HasRoom frame length) :
    length [] = 0 :=
  Nat.le_zero.1 (h.le_length [])

end Highlight.Text
