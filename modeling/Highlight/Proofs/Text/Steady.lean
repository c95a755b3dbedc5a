import Highlight.Proofs.Text.Bytes
import Highlight.Proofs.Text.Front
import Highlight.Text.Extent
import Highlight.Text.Quoted

/-!
# Measures that look no further

Scanners measure a stretch, cut it out and measure on the cut text once more. That is sound only if
nothing of what is said of the stretch was decided by the text behind it. A measure is steady if it
says the same wherever the text is cut off behind what it measures; a measure of 0 may be cut off
anywhere. Runs and words are greedy, which is more: a cut within them cuts what they measure. A
search is steady together with the characters that it needs to see to be satisfied.
-/

namespace Highlight.Text

variable {α β : Type} {size : α → Nat} {measure : List Char → α} {length : List Char → Nat}
  {p first next : Char → Bool} {here : List Char → Bool} {u r : List Char}

/-- Cut off anywhere behind what is measured, a text measures the same. -/
def Steady (size : α → Nat) (measure : List Char → α) : Prop :=
  ∀ u r, size (measure (u ++ r)) ≤ u.length → measure u = measure (u ++ r)

/-- Where something is measured, a text that is cut off behind it measures the same. Where nothing
is, a front of the text may still measure something. -/
def Kept (size : α → Nat) (measure : List Char → α) : Prop :=
  ∀ u r, size (measure (u ++ r)) ≠ 0 → size (measure (u ++ r)) ≤ u.length →
    measure u = measure (u ++ r)

/-- What is measured on a text is a front part of it, and on that part alone the same is
measured. -/
structure SelfDelimiting (size : α → Nat) (measure : List Char → α) : Prop where
  within : ∀ s, size (measure s) ≤ s.length
  boundary : ∀ s, IsBoundary s (byteLength (s.take (size (measure s))))
  again : ∀ s, measure (s.take (size (measure s))) = measure s

theorem isBoundary_take (s : List Char) (n : Nat) : IsBoundary s (byteLength (s.take n)) :=
  ⟨s.take n, List.take_prefix n s, rfl⟩

theorem Steady.kept (h : Steady size measure) : Kept size measure :=
  fun u r _ hle ↦ h u r hle

/-- What is measured on the front of a text is decided by the front, if it is measured wherever it
fits. -/
theorem Kept.steady (h : Kept id length)
    (happend : ∀ s t, length s ≠ 0 → length (s ++ t) = length s) : Steady id length := by
  intro u r hle
  by_cases hwhole : length (u ++ r) = 0
  · by_contra hne
    have hfront : length u ≠ 0 := by
      rw [hwhole] at hne
      exact hne
    exact hne (happend u r hfront).symm
  · exact h u r hwhole hle

theorem Kept.selfDelimiting (h : Kept size measure) (hle : ∀ s, size (measure s) ≤ s.length)
    (hnone : ∀ s, size (measure s) = 0 → measure s = measure []) :
    SelfDelimiting size measure where
  within := hle
  boundary s := isBoundary_take s _
  again s := by
    by_cases hzero : size (measure s) = 0
    · rw [hzero, List.take_zero]
      exact (hnone s hzero).symm
    · have hcut := h (s.take (size (measure s))) (s.drop (size (measure s)))
      rw [List.take_append_drop, List.length_take, Nat.min_eq_left (hle s)] at hcut
      exact hcut hzero (Nat.le_refl _)

theorem Steady.selfDelimiting (h : Steady size measure) (hle : ∀ s, size (measure s) ≤ s.length) :
    SelfDelimiting size measure := by
  refine h.kept.selfDelimiting hle fun s hzero ↦ ?_
  have hcut := h [] s (by rw [List.nil_append, hzero]; exact Nat.zero_le _)
  exact hcut.symm

theorem startsWith_of_append {lit : String} (h : startsWith lit u) (r : List Char) :
    startsWith lit (u ++ r) :=
  startsWith_iff.2 ((startsWith_iff.1 h).trans (List.prefix_append u r))

/-- What the whole text does not begin with, its front does not begin with either. -/
theorem startsWith_eq_false_of_append {lit : String} (h : startsWith lit (u ++ r) = false) :
    startsWith lit u = false := by
  rw [Bool.eq_false_iff] at h ⊢
  exact fun hu ↦ h (startsWith_of_append hu r)

theorem startsIn_append (hu : u ≠ []) (r : List Char) : startsIn p (u ++ r) = startsIn p u := by
  obtain ⟨c, v, rfl⟩ := List.exists_cons_of_ne_nil hu
  rfl

theorem startsWith_single {lit : String} {c : Char} (hlit : lit.toList = [c]) (s : List Char) :
    startsWith lit s = startsIn (· == c) s := by
  rw [startsWith, hlit]
  cases s with
  | nil => rfl
  | cons d s =>
    change (c == d && true) = (d == c)
    rw [Bool.and_true, BEq.comm]

theorem startsWith_pair {lit : String} {c d : Char} (hlit : lit.toList = [c, d]) (b : Char)
    (s : List Char) : startsWith lit (b :: s) = (b == c && startsIn (· == d) s) := by
  rw [startsWith, hlit]
  cases s with
  | nil =>
    change (c == b && false) = (b == c && false)
    rw [Bool.and_false, Bool.and_false]
  | cons e s =>
    change (c == b && (d == e && true)) = (b == c && e == d)
    rw [Bool.and_true, BEq.comm, BEq.comm (a := d)]

theorem startsIn_append_cons {p : Char → Bool} {c : Char} (hc : p c = false) (s t : List Char) :
    startsIn p (s ++ c :: t) = startsIn p s := by
  cases s with
  | nil => exact hc
  | cons d s => rfl

/-- In front of something either a class begins or what is not in it. -/
theorem startsIn_not_iff {p : Char → Bool} {s : List Char} (hs : s ≠ []) :
    startsIn (!p ·) s = false ↔ startsIn p s := by
  obtain ⟨c, s, rfl⟩ := List.exists_cons_of_ne_nil hs
  rw [startsIn_cons, startsIn_cons, Bool.not_eq_false']

theorem drop_append {n : Nat} (h : n ≤ u.length) (r : List Char) :
    (u ++ r).drop n = u.drop n ++ r :=
  List.drop_append_of_le_length h

/-- A length that goes as far as it can: a text that is cut off measures up to the cut. -/
def Greedy (length : List Char → Nat) : Prop :=
  ∀ u r, length u = min u.length (length (u ++ r))

theorem Greedy.steady (h : Greedy length) : Steady id length := by
  intro u r hle
  rw [h u r]
  exact Nat.min_eq_right hle

theorem Greedy.le (h : Greedy length) (s : List Char) : length s ≤ s.length := by
  rw [h s []]
  exact Nat.min_le_left _ _

theorem Greedy.selfDelimiting (h : Greedy length) : SelfDelimiting id length :=
  h.steady.selfDelimiting h.le

theorem greedy_spanLength (p : Char → Bool) : Greedy (spanLength p) := by
  intro u r
  induction u with
  | nil => simp
  | cons c u ih =>
    rw [List.cons_append, spanLength_cons, spanLength_cons, List.length_cons]
    split_ifs <;> omega

/-- A run that reaches as far as the text may be read is as long as that at least. -/
theorem le_spanLength_take {p : Char → Bool} {s : List Char} {n limit : Nat}
    (hlength : n ≤ s.length)
    (hlimit : n ≤ limit) (h : ∀ c ∈ s.take n, p c) : n ≤ spanLength p (s.take limit) := by
  have hfront : s.take n <+: s.take limit := List.take_prefix_take_left hlimit
  have hle := length_le_spanLength hfront h
  rwa [List.length_take_of_le hlength] at hle

theorem greedy_wordLength (first next : Char → Bool) : Greedy (wordLength first next) := by
  intro u r
  cases u with
  | nil => simp [wordLength]
  | cons c u =>
    have hspan := greedy_spanLength next u r
    rw [List.cons_append, wordLength, wordLength, List.length_cons]
    split_ifs <;> omega

theorem Greedy.take (h : Greedy length) (n : Nat) : Greedy fun s ↦ length (s.take n) := by
  intro u r
  have hcut := h (u.take n) (r.take (n - u.length))
  have hle := h.le ((u ++ r).take n)
  rw [← List.take_append, List.length_take] at hcut
  rw [List.length_take] at hle
  simp only
  omega

/-! ## Searching -/

/-- Whether `here` holds is decided by the next `reach` characters, and it does not hold where there
are fewer. -/
structure Reaches (reach : Nat) (here : List Char → Bool) : Prop where
  needs : ∀ s, here s → reach ≤ s.length
  decided : ∀ s r, reach ≤ s.length → here (s ++ r) = here s

theorem reaches_startsIn (p : Char → Bool) : Reaches 1 (startsIn p) where
  needs _ h := length_pos_of_startsIn h
  decided _ r h := startsIn_append (List.ne_nil_of_length_pos h) r

theorem reaches_startsWith (lit : String) : Reaches lit.toList.length (startsWith lit) where
  needs _ h := length_le_of_startsWith h
  decided _ r h := startsWith_append lit h r

variable {reach n : Nat}

theorem Reaches.or {there : List Char → Bool} (hhere : Reaches reach here)
    (hthere : Reaches reach there) : Reaches reach fun s ↦ here s || there s where
  needs s h := (Bool.or_eq_true _ _ ▸ h).elim (hhere.needs s) (hthere.needs s)
  decided s r h := by rw [hhere.decided s r h, hthere.decided s r h]

theorem Reaches.eq_false_of_append (hhere : Reaches reach here) (h : here (u ++ r) = false) :
    here u = false := by
  rw [Bool.eq_false_iff]
  intro hu
  rw [hhere.decided u r (hhere.needs u hu), hu] at h
  exact Bool.noConfusion h

/-- A place that is found is found in front of more text as well. -/
theorem Reaches.find?_append (hhere : Reaches reach here) (h : find? here u = some n)
    (r : List Char) : find? here (u ++ r) = some n := by
  obtain ⟨hn, hfound, hfirst⟩ := find?_eq_some_iff.1 h
  have hneeds := hhere.needs _ hfound
  rw [List.length_drop] at hneeds
  have hsame (m : Nat) (hm : m ≤ n) : here ((u ++ r).drop m) = here (u.drop m) := by
    rw [drop_append (by omega)]
    apply hhere.decided
    rw [List.length_drop]
    omega
  refine find?_eq_some_iff.2 ⟨?_, ?_, ?_⟩
  · rw [List.length_append]
    omega
  · rw [hsame n (Nat.le_refl n)]
    exact hfound
  · intro m hm
    rw [hsame m (Nat.le_of_lt hm)]
    exact hfirst m hm

/-- A place is found wherever the text is cut off behind what shows it. -/
theorem Reaches.find?_of_append (hhere : Reaches reach here) (h : find? here (u ++ r) = some n)
    (hle : n + reach ≤ u.length) : find? here u = some n := by
  obtain ⟨-, hfound, hfirst⟩ := find?_eq_some_iff.1 h
  refine find?_eq_some_iff.2 ⟨by omega, ?_, ?_⟩
  · rw [drop_append (by omega), hhere.decided] at hfound
    · exact hfound
    · rw [List.length_drop]
      omega
  · intro m hm
    have hbefore := hfirst m hm
    rw [drop_append (by omega)] at hbefore
    exact hhere.eq_false_of_append hbefore

/-- How far a search looks: to the end of what is found, if it is found. -/
def foundSize (reach : Nat) : Option Nat → Nat
  | some n => n + reach
  | none => 0

theorem steady_find? (hhere : Reaches reach here) : Steady (foundSize reach) (find? here) := by
  intro u r hle
  cases hwhole : find? here (u ++ r) with
  | some n =>
    rw [hwhole] at hle
    exact hhere.find?_of_append hwhole hle
  | none =>
    cases hfront : find? here u with
    | none => rfl
    | some n => rw [hhere.find?_append hfront r] at hwhole; exact hwhole

theorem steady_findIn? (p : Char → Bool) : Steady (foundSize 1) (findIn? p) :=
  steady_find? (reaches_startsIn p)

theorem steady_findLiteral? (lit : String) :
    Steady (foundSize lit.toList.length) (findLiteral? lit) :=
  steady_find? (reaches_startsWith lit)

theorem steady_quotedLength : Steady id quotedLength := by
  intro u r hle
  cases u with
  | nil => exact (Nat.le_zero.1 hle).symm
  | cons quote s =>
    simp only [List.cons_append, id_eq, quotedLength] at hle ⊢
    split_ifs at hle ⊢
    · have hfound : findIn? (· == quote) s = findIn? (· == quote) (s ++ r) := by
        apply steady_findIn?
        cases hfind : findIn? (· == quote) (s ++ r) with
        | none => exact Nat.zero_le _
        | some n =>
          rw [hfind, List.length_cons] at hle
          exact Nat.succ_le_succ_iff.1 hle
      rw [hfound]
    · rfl

/-- The first character of the class, if it is the given closing one. -/
def findClosing? (p : Char → Bool) (closing : Char) (s : List Char) : Option Nat :=
  (findIn? p s).filter fun n ↦ startsIn (· == closing) (s.drop n)

theorem steady_findClosing? (p : Char → Bool) (closing : Char) :
    Steady (foundSize 1) (findClosing? p closing) := by
  intro u r hle
  unfold findClosing? at hle ⊢
  have hsame {n : Nat} (hu : findIn? p u = some n) :
      startsIn (· == closing) ((u ++ r).drop n) = startsIn (· == closing) (u.drop n) := by
    have hlt := lt_length_of_findIn? hu
    rw [drop_append (Nat.le_of_lt hlt), startsIn_append]
    rw [← List.length_pos_iff, List.length_drop]
    omega
  cases hfront : findIn? p u with
  | some n =>
    have hwhole : findIn? p (u ++ r) = some n := (reaches_startsIn p).find?_append hfront r
    rw [hwhole, Option.filter_some, Option.filter_some, hsame hfront]
  | none =>
    cases hwhole : findIn? p (u ++ r) with
    | none => rfl
    | some n =>
      -- What is found lies behind the cut, so it is not the closing character.
      rw [hwhole, Option.filter_some] at hle
      rw [Option.filter_some, Option.filter_none]
      by_cases hclosing : startsIn (· == closing) ((u ++ r).drop n)
      · rw [if_pos hclosing] at hle
        have hfound : findIn? p u = some n := (reaches_startsIn p).find?_of_append hwhole hle
        rw [hfound] at hfront
        exact absurd hfront (Option.some_ne_none n)
      · rw [if_neg hclosing]

/-- How far it is to the end of a literal, or to the end of the text where the literal is
missing. -/
def extentTo (lit : String) (s : List Char) : Extent :=
  match findLiteral? lit s with
  | some n => ⟨n + lit.toList.length, true⟩
  | none => ⟨s.length, false⟩

theorem steady_extentTo (lit : String) : Steady Extent.length (extentTo lit) := by
  intro u r hle
  unfold extentTo at hle ⊢
  cases hwhole : findLiteral? lit (u ++ r) with
  | some n =>
    simp only [hwhole] at hle ⊢
    rw [steady_findLiteral? lit u r (by rw [hwhole]; exact hle), hwhole]
  | none =>
    simp only [hwhole, List.length_append] at hle ⊢
    obtain rfl : r = [] := List.length_eq_zero_iff.1 (by omega)
    rw [List.append_nil] at hwhole
    simp only [hwhole, List.length_nil, Nat.add_zero]

/-- The characters before the closing one. -/
theorem steady_beforeClosing (p : Char → Bool) (closing : Char) :
    Steady (fun found ↦ found.elim 0 fun (inside : List Char) ↦ inside.length + 1)
      fun s ↦ (findClosing? p closing s).map (s.take ·) := by
  have hsize (s : List Char) : ((findClosing? p closing s).map (s.take ·)).elim 0
      (fun inside ↦ inside.length + 1) = foundSize 1 (findClosing? p closing s) := by
    cases hfound : findClosing? p closing s with
    | none => rfl
    | some n =>
      have hlt := lt_length_of_findIn? (Option.filter_eq_some_iff.1 hfound).1
      simp [foundSize, Nat.min_eq_left (Nat.le_of_lt hlt)]
  intro u r hle
  simp only [hsize] at hle ⊢
  rw [steady_findClosing? p closing u r hle]
  cases hfound : findClosing? p closing (u ++ r) with
  | none => rfl
  | some n =>
    rw [hfound] at hle
    rw [Option.map_some, Option.map_some,
      List.take_append_of_le_length (Nat.le_of_succ_le hle)]

/-- The first of several openings that a text begins with. -/
theorem steady_first {ι : Type} {items : List ι} {opens : ι → List Char → Bool} {width : ι → Nat}
    (h : ∀ item ∈ items, Reaches (width item) (opens item)) :
    Steady (fun found ↦ found.elim 0 width) (fun s ↦ items.find? (opens · s)) := by
  intro u r hle
  simp only at hle ⊢
  cases hwhole : items.find? (opens · (u ++ r)) with
  | none =>
    rw [List.find?_eq_none] at hwhole ⊢
    intro item hitem hu
    exact hwhole item hitem (((h item hitem).decided u r ((h item hitem).needs u hu)).trans hu)
  | some item =>
    rw [hwhole, Option.elim_some] at hle
    have hmem := List.mem_of_find?_eq_some hwhole
    rw [List.find?_eq_some_iff_append] at hwhole ⊢
    obtain ⟨hitem, before, after, hsplit, hbefore⟩ := hwhole
    refine ⟨?_, before, after, hsplit, ?_⟩
    · rw [← (h item hmem).decided u r hle]
      exact hitem
    · intro other hother
      have hreaches := h other (by rw [hsplit]; exact List.mem_append_left _ hother)
      have hother := hbefore other hother
      rw [Bool.not_eq_true'] at hother ⊢
      exact hreaches.eq_false_of_append hother

/-- The first literal of a list that a text begins with. -/
theorem steady_firstLiteral (literals : List String) :
    Steady (fun found ↦ found.elim 0 fun lit ↦ lit.toList.length)
      (fun s ↦ literals.find? (startsWith · s)) :=
  steady_first fun lit _ ↦ reaches_startsWith lit

/-! ## Putting measures together -/

/-- A length that the form of the measured text decides is steady. -/
theorem steady_of_form (form : List Char → Prop) (hle : ∀ s, length s ≤ s.length)
    (hform : ∀ i r, i ≠ [] → (length (i ++ r) = i.length ↔ form i)) : Steady id length := by
  have hfront (s t : List Char) (hs : length s ≠ 0) (hst : length s ≤ t.length)
      (htake : t.take (length s) = s.take (length s)) : length t = length s := by
    have hlength : (s.take (length s)).length = length s := by
      rw [List.length_take]
      exact Nat.min_eq_left (hle s)
    have hne : s.take (length s) ≠ [] := by
      rw [← List.length_pos_iff, hlength]
      exact Nat.pos_of_ne_zero hs
    have his : form (s.take (length s)) := by
      rw [← hform _ (s.drop (length s)) hne, List.take_append_drop, hlength]
    rw [← hform _ (t.drop (length s)) hne, ← htake, List.take_append_drop, htake, hlength] at his
    exact his
  intro u r hcut
  by_cases hwhole : length (u ++ r) = 0
  · rw [hwhole]
    by_contra hu
    have hsame := hfront u (u ++ r) hu ((hle u).trans (by rw [List.length_append]; omega))
      (List.take_append_of_le_length (hle u))
    exact hu (hsame.symm.trans hwhole)
  · exact hfront (u ++ r) u hwhole hcut (List.take_append_of_le_length hcut).symm

theorem steady_const (size : α → Nat) (value : α) : Steady size fun _ ↦ value :=
  fun _ _ _ ↦ rfl

/-- What is measured where the next characters show an opening, and what is measured elsewhere. -/
theorem Steady.ite {front behind : List Char → α} (hhere : Reaches reach here)
    (hsize : ∀ s, here s → reach ≤ size (front s)) (hfront : Steady size front)
    (hbehind : Steady size behind) : Steady size fun s ↦ if here s then front s else behind s := by
  intro u r hle
  simp only at hle ⊢
  by_cases hwhole : here (u ++ r)
  · rw [if_pos hwhole] at hle ⊢
    rw [← hhere.decided u r ((hsize _ hwhole).trans hle), if_pos hwhole]
    exact hfront u r hle
  · rw [if_neg hwhole] at hle ⊢
    rw [Bool.not_eq_true] at hwhole
    rw [hhere.eq_false_of_append hwhole, if_neg Bool.false_ne_true]
    exact hbehind u r hle

/-- Another way to say what is measured. -/
theorem Steady.map {inside : β → Nat} {inner : List Char → β} (h : Steady inside inner)
    (wrap : β → α) (hwrap : ∀ found, size (wrap found) = inside found) :
    Steady size fun s ↦ wrap (inner s) := by
  intro u r hle
  simp only [hwrap] at hle ⊢
  rw [h u r hle]

/-- A front part of a text and what is measured behind it, where the front may have a say in
that. -/
theorem Steady.followed {γ : Type} {first : List Char → γ} {reach : γ → Nat} {inside : β → Nat}
    (h : Steady reach first) (inner : γ → List Char → β) (wrap : γ → β → α)
    (hwrap : ∀ front found, size (wrap front found) = reach front + inside found)
    (hinner : ∀ front, Steady inside (inner front)) :
    Steady size fun s ↦ wrap (first s) (inner (first s) (s.drop (reach (first s)))) := by
  intro u r hle
  simp only [hwrap] at hle ⊢
  have hfits := (Nat.le_add_right _ _).trans hle
  have hfront : first u = first (u ++ r) := h u r hfits
  rw [← hfront] at hle hfits ⊢
  rw [drop_append hfits] at hle ⊢
  have hrest := hinner (first u) (u.drop (reach (first u))) r (by rw [List.length_drop]; omega)
  rw [hrest]

/-- One length after another, both taken where they can be. -/
theorem Steady.add {behind : List Char → Nat} (h : Steady id length) (hbehind : Steady id behind) :
    Steady id fun s ↦ length s + behind (s.drop (length s)) :=
  h.followed (fun _ ↦ behind) (· + ·) (fun _ _ ↦ rfl) fun _ ↦ hbehind

/-- What is measured first, or else what is measured instead. -/
theorem Steady.or {size : β → Nat} {front behind : List Char → Option β}
    (h : Steady (fun found ↦ found.elim 0 size) front)
    (hbehind : Steady (fun found ↦ found.elim 0 size) behind) :
    Steady (fun found ↦ found.elim 0 size) fun s ↦ (front s).or (behind s) := by
  intro u r hle
  simp only at hle ⊢
  cases hwhole : front (u ++ r) with
  | some found =>
    rw [hwhole, Option.some_or] at hle
    rw [h u r (by rw [hwhole]; exact hle), hwhole, Option.some_or, Option.some_or]
  | none =>
    rw [hwhole, Option.none_or] at hle
    rw [h u r (by rw [hwhole]; exact Nat.zero_le _), hwhole, Option.none_or, Option.none_or]
    exact hbehind u r hle

/-- The first of two lengths, or the second where there is nothing of the first. -/
theorem Steady.orElse {other : List Char → Nat} (h : Steady id length) (hother : Steady id other) :
    Steady id fun s ↦ if length s = 0 then other s else length s := by
  intro u r hle
  simp only [id_eq] at hle ⊢
  by_cases hwhole : length (u ++ r) = 0
  · have hfront : length u = length (u ++ r) := h u r (by rw [id_eq, hwhole]; exact Nat.zero_le _)
    rw [if_pos hwhole] at hle ⊢
    rw [hfront, if_pos hwhole]
    exact hother u r hle
  · rw [if_neg hwhole] at hle ⊢
    have hfront : length u = length (u ++ r) := h u r hle
    rw [hfront, if_neg hwhole]

/-- The characters that a length covers. -/
theorem Steady.taken (h : Steady id length) (hle : ∀ s, length s ≤ s.length) :
    Steady List.length fun s ↦ s.take (length s) := by
  intro u r hcut
  simp only [List.length_take, Nat.min_eq_left (hle _)] at hcut ⊢
  have hfront : length u = length (u ++ r) := h u r hcut
  rw [hfront, List.take_append_of_le_length hcut]

/-- A run, by its characters. -/
theorem steady_takeWhile (p : Char → Bool) : Steady List.length (List.takeWhile p) := by
  have htaken := (greedy_spanLength p).steady.taken (spanLength_le p)
  simpa only [take_spanLength] using htaken

/-- A run of limited length, by its characters. -/
theorem steady_takeWhile_take (p : Char → Bool) (n : Nat) :
    Steady List.length fun s ↦ (s.take n).takeWhile p := by
  have hgreedy := (greedy_spanLength p).take n
  have htaken := hgreedy.steady.taken hgreedy.le
  have hsame (s : List Char) : s.take (spanLength p (s.take n)) = (s.take n).takeWhile p := by
    have hle := (spanLength_le p (s.take n)).trans (List.length_take_le n s)
    rw [← take_spanLength, List.take_take, Nat.min_eq_left hle]
  simpa only [hsame] using htaken

/-- The size of what is measured is steady where that is. -/
theorem Steady.toLength (h : Steady size measure) : Steady id fun s ↦ size (measure s) := by
  intro u r hle
  exact congrArg size (h u r hle)

/-- What is measured behind an opening that the next `reach` characters show. Without the opening,
or where nothing is measured, it is `absent`. -/
theorem steady_behind {inside : β → Nat} (hhere : Reaches reach here) (inner : List Char → β)
    (wrap : β → α) (absent : α)
    (hmeasure : ∀ s, measure s = if here s then wrap (inner (s.drop reach)) else absent)
    (hwrap : ∀ found, inside found = 0 ∧ wrap found = absent ∨
      size (wrap found) = reach + inside found)
    (hinner : Steady inside inner) : Steady size measure := by
  intro u r hle
  rw [hmeasure] at hle
  rw [hmeasure u, hmeasure (u ++ r)]
  by_cases hwhole : here (u ++ r)
  · rw [if_pos hwhole] at hle ⊢
    by_cases hreach : reach ≤ u.length
    · rw [hhere.decided u r hreach] at hwhole
      rw [drop_append hreach] at hle ⊢
      have hinside : inside (inner (u.drop reach ++ r)) ≤ (u.drop reach).length := by
        rw [List.length_drop]
        rcases hwrap (inner (u.drop reach ++ r)) with ⟨hzero, -⟩ | hsize <;> omega
      rw [if_pos hwhole, hinner _ r hinside]
    · have hfront : ¬ here u := fun hu ↦ hreach (hhere.needs u hu)
      rw [if_neg hfront]
      rcases hwrap (inner ((u ++ r).drop reach)) with ⟨-, habsent⟩ | hsize
      · exact habsent.symm
      · omega
  · have hfront : ¬ here u := by
      rw [Bool.not_eq_true] at hwhole ⊢
      exact hhere.eq_false_of_append hwhole
    rw [if_neg hwhole, if_neg hfront]

/-- What is measured behind a literal. -/
theorem steady_after {inside : β → Nat} (lit : String) (inner : List Char → β) (wrap : β → α)
    (absent : α)
    (hmeasure : ∀ s, measure s = (after? lit s).elim absent (wrap ∘ inner))
    (hwrap : ∀ found, inside found = 0 ∧ wrap found = absent ∨
      size (wrap found) = lit.toList.length + inside found)
    (hinner : Steady inside inner) : Steady size measure := by
  apply steady_behind (reaches_startsWith lit) inner wrap absent _ hwrap hinner
  intro s
  rw [hmeasure, after?, String.length_toList]
  split <;> rfl

/-- A length with a sign in front, which nothing of it begins with. -/
theorem steady_signed (hhere : Reaches 1 here) (h : Steady id length)
    (hsign : ∀ s, here s → length s = 0) :
    Steady id fun s ↦
      if here s then if length (s.drop 1) = 0 then 0 else 1 + length (s.drop 1) else length s := by
  have hbehind : Steady id fun s ↦
      if here s then if length (s.drop 1) = 0 then 0 else 1 + length (s.drop 1) else 0 := by
    refine steady_behind hhere length (fun n ↦ if n = 0 then 0 else 1 + n) 0 (fun _ ↦ rfl) ?_ h
    intro n
    split_ifs with hzero
    · exact .inl ⟨hzero, rfl⟩
    · exact .inr rfl
  have hsame (s : List Char) :
      (if here s then if length (s.drop 1) = 0 then 0 else 1 + length (s.drop 1) else length s) =
        let signed := if here s then
          if length (s.drop 1) = 0 then 0 else 1 + length (s.drop 1) else 0
        if signed = 0 then length s else signed := by
    by_cases hhere : here s
    · simp only [hhere, if_true, hsign s hhere]
      split_ifs with hzero <;> omega
    · simp only [hhere, Bool.false_eq_true, if_false, if_true]
  simp only [hsame]
  exact hbehind.orElse h

end Highlight.Text
