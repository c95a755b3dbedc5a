import Highlight.Proofs.Piece.Construct
import Highlight.Proofs.Text.Front

/-!
# What a construct takes of a text

A construct takes a front part of a text in view of what follows. For each way of putting constructs
together it is said what the whole takes, so that what a scanner accepts can be compared with a
grammar that knows no order of reading.
-/

namespace Highlight.Construct

open Piece (textOf width)

variable {κ : Type} {c : Construct κ} {cs : List (Construct κ)} {i r : List Char}

/-- Of `i ++ r` the construct takes `i`. -/
def Takes (c : Construct κ) (i r : List Char) : Prop :=
  ∃ ps, c (i ++ r) = some ps ∧ textOf ps = i

/-- A construct takes one part of a text at most. -/
theorem Takes.unique {j t : List Char} (h : c.Takes i r) (h' : c.Takes j t)
    (hsame : i ++ r = j ++ t) : i = j ∧ r = t := by
  obtain ⟨ps, hps, rfl⟩ := h
  obtain ⟨qs, hqs, rfl⟩ := h'
  rw [hsame, hqs] at hps
  obtain rfl := Option.some.inj hps
  exact ⟨rfl, List.append_cancel_left hsame⟩

theorem Takes.isSome (h : c.Takes i r) : (c (i ++ r)).isSome := by
  obtain ⟨ps, hps, -⟩ := h
  rw [hps]
  rfl

theorem Takes.ne_none {s : List Char} (h : c.Takes i r) (hs : i ++ r = s) : c s ≠ none := by
  rw [← hs]
  exact Option.isSome_iff_ne_none.1 h.isSome

/-- What a fitting construct reads is what it takes. -/
theorem Fits.takes (hc : c.Fits) {s : List Char} {ps : List (Piece κ)} (h : c s = some ps) :
    c.Takes (textOf ps) (s.drop (width ps)) := by
  refine ⟨ps, ?_, rfl⟩
  rw [(hc.read s ps h).textOf_append_drop]
  exact h

theorem Fits.exists_takes (hc : c.Fits) {s : List Char} (h : (c s).isSome) :
    ∃ i r, s = i ++ r ∧ c.Takes i r := by
  obtain ⟨ps, hps⟩ := Option.isSome_iff_exists.1 h
  exact ⟨_, _, (hc.read s ps hps).textOf_append_drop.symm, hc.takes hps⟩

/-- A construct whose presence and width a length decides. -/
def Measures (c : Construct κ) (length : List Char → Nat) : Prop :=
  ∀ s, (length s = 0 → c s = none) ∧
    (length s ≠ 0 → ∃ ps, c s = some ps ∧ textOf ps = s.take (length s))

theorem Measures.takes_iff {length : List Char → Nat} (h : c.Measures length)
    (hle : ∀ s, length s ≤ s.length) : c.Takes i r ↔ i ≠ [] ∧ length (i ++ r) = i.length := by
  obtain ⟨hnone, hsome⟩ := h (i ++ r)
  constructor
  · rintro ⟨ps, hps, htext⟩
    have hn : length (i ++ r) ≠ 0 := by
      intro hn
      rw [hnone hn] at hps
      simp at hps
    obtain ⟨qs, hqs, htake⟩ := hsome hn
    rw [hps, Option.some.injEq] at hqs
    rw [← hqs, htext] at htake
    have hlength : i.length = length (i ++ r) := by
      rw [htake, List.length_take, ← htake]
      exact Nat.min_eq_left (hle _)
    refine ⟨?_, hlength.symm⟩
    apply List.ne_nil_of_length_pos
    omega
  · rintro ⟨hi, hlength⟩
    obtain ⟨ps, hps, htake⟩ := hsome (by rw [hlength]; exact List.length_eq_zero_iff.not.2 hi)
    refine ⟨ps, hps, ?_⟩
    rw [htake, hlength, List.take_left]

theorem measures_measured (label : κ) (length : List Char → Nat) :
    (measured label length).Measures length := by
  intro s
  constructor
  · intro hn
    simp [measured, hn]
  · intro hn
    exact ⟨_, measured_eq_some.2 ⟨hn, rfl⟩, by simp [Piece.text]⟩

theorem measures_skipSome (length : List Char → Nat) :
    (skipSome length : Construct κ).Measures length := by
  intro s
  constructor
  · intro hn
    simp [skipSome, hn]
  · intro hn
    exact ⟨_, skipSome_eq_some.2 ⟨hn, rfl⟩, by simp [Piece.text]⟩

theorem takes_skip_iff {length : List Char → Nat} (hle : ∀ s, length s ≤ s.length) :
    (skip length : Construct κ).Takes i r ↔ length (i ++ r) = i.length := by
  simp only [Takes, skip, Option.some.injEq, exists_eq_left', Piece.textOf_hidden]
  constructor
  · intro htake
    have hlength := congrArg List.length htake
    rw [List.length_take, Nat.min_eq_left (hle _)] at hlength
    exact hlength
  · intro hlength
    rw [hlength, List.take_left]

@[simp]
theorem takes_literal_iff {label : κ} {lit : String} :
    (literal label lit).Takes i r ↔ i = lit.toList := by
  simp only [Takes, literal_eq_some]
  constructor
  · rintro ⟨ps, ⟨-, rfl⟩, htext⟩
    simpa [Piece.text] using htext.symm
  · rintro rfl
    exact ⟨_, ⟨List.prefix_append _ _, rfl⟩, by simp [Piece.text]⟩

@[simp]
theorem takes_skipLiteral_iff {lit : String} :
    (skipLiteral lit : Construct κ).Takes i r ↔ i = lit.toList := by
  simp only [Takes, skipLiteral_eq_some]
  constructor
  · rintro ⟨ps, ⟨-, rfl⟩, htext⟩
    simpa [Piece.text] using htext.symm
  · rintro rfl
    exact ⟨_, ⟨List.prefix_append _ _, rfl⟩, by simp [Piece.text]⟩

@[simp]
theorem takes_seq_nil_iff : (seq [] : Construct κ).Takes i r ↔ i = [] := by
  constructor
  · rintro ⟨ps, hps, rfl⟩
    obtain rfl := seq_nil_eq_some.1 hps
    rfl
  · rintro rfl
    exact ⟨[], seq_nil_eq_some.2 rfl, rfl⟩

/-- The first construct of a sequence takes its part in view of what the others take. -/
theorem takes_seq_cons_iff :
    (seq (c :: cs)).Takes i r ↔ ∃ a b, i = a ++ b ∧ c.Takes a (b ++ r) ∧ (seq cs).Takes b r := by
  constructor
  · rintro ⟨ps, hps, rfl⟩
    obtain ⟨qs, rs, hqs, hrs, rfl⟩ := seq_cons_eq_some.1 hps
    rw [Piece.textOf_append, List.append_assoc] at hqs hrs
    rw [← Piece.length_textOf, List.drop_left] at hrs
    exact ⟨_, _, Piece.textOf_append _ _, ⟨qs, hqs, rfl⟩, ⟨rs, hrs, rfl⟩⟩
  · rintro ⟨a, b, rfl, ⟨qs, hqs, rfl⟩, ⟨rs, hrs, rfl⟩⟩
    refine ⟨qs ++ rs, ?_, Piece.textOf_append _ _⟩
    rw [List.append_assoc]
    apply seq_cons_eq_some.2
    refine ⟨qs, rs, hqs, ?_, rfl⟩
    rw [← Piece.length_textOf, List.drop_left]
    exact hrs

/-- The last construct of a sequence takes what the sequence does. -/
@[simp]
theorem takes_seq_singleton_iff : (seq [c]).Takes i r ↔ c.Takes i r := by
  rw [takes_seq_cons_iff]
  constructor
  · rintro ⟨a, b, rfl, hc, hb⟩
    obtain rfl := takes_seq_nil_iff.1 hb
    rw [List.append_nil]
    exact hc
  · intro hc
    exact ⟨i, [], (List.append_nil i).symm, hc, takes_seq_nil_iff.2 rfl⟩

@[simp]
theorem takes_seq_cons_cons_iff {d : Construct κ} :
    (seq (c :: d :: cs)).Takes i r ↔
      ∃ a b, i = a ++ b ∧ c.Takes a (b ++ r) ∧ (seq (d :: cs)).Takes b r :=
  takes_seq_cons_iff

theorem takes_choose_iff {construct : List Char → Construct κ} :
    (choose construct).Takes i r ↔ (construct (i ++ r)).Takes i r := Iff.rfl

theorem takes_onlyIf_iff {allowed : Bool} :
    (onlyIf allowed c).Takes i r ↔ allowed ∧ c.Takes i r := by
  simp only [Takes, onlyIf_eq_some, and_assoc, exists_and_left]

/-- An alternative takes its part where those before it are not there. -/
theorem takes_firstOf_cons_iff : (firstOf (c :: cs)).Takes i r ↔
    c.Takes i r ∨ c (i ++ r) = none ∧ (firstOf cs).Takes i r := by
  constructor
  · rintro ⟨ps, hps, htext⟩
    rcases firstOf_cons_eq_some.1 hps with hc | ⟨hnone, qs, hqs, rfl⟩
    · exact .inl ⟨ps, hc, htext⟩
    · rw [Piece.textOf_append, Piece.textOf_withdrawal, List.nil_append] at htext
      exact .inr ⟨hnone, qs, hqs, htext⟩
  · rintro (⟨ps, hps, htext⟩ | ⟨hnone, qs, hqs, htext⟩)
    · exact ⟨ps, firstOf_cons_eq_some.2 (.inl hps), htext⟩
    · refine ⟨_, firstOf_cons_eq_some.2 (.inr ⟨hnone, qs, hqs, rfl⟩), ?_⟩
      rw [Piece.textOf_append, Piece.textOf_withdrawal, List.nil_append]
      exact htext

/-- What one of several alternatives takes is what the first that is there takes. -/
theorem exists_takes_of_firstOf (h : (firstOf cs).Takes i r) : ∃ c ∈ cs, c.Takes i r := by
  obtain ⟨ps, hps, rfl⟩ := h
  obtain ⟨c, hc, qs, hqs, htext⟩ := exists_of_firstOf hps
  exact ⟨c, hc, qs, hqs, htext.symm⟩

/-- Where the text tells which alternative it calls for, it does not matter which ones are tried
before that. -/
theorem takes_firstOf_iff {called : List Char → Construct κ} (hfits : ∀ d ∈ cs, d.Fits)
    (hmem : ∀ s, called s ∈ cs) (honly : ∀ d ∈ cs, ∀ a b, d.Takes a b → called (a ++ b) = d) :
    (firstOf cs).Takes i r ↔ (called (i ++ r)).Takes i r := by
  constructor
  · intro h
    obtain ⟨d, hd, htakes⟩ := exists_takes_of_firstOf h
    rw [honly d hd i r htakes]
    exact htakes
  · intro h
    obtain ⟨j, t, hsame, htakes⟩ :=
      (fits_firstOf hfits).exists_takes (isSome_firstOf (hmem (i ++ r)) h.isSome)
    obtain ⟨d, hd, hdtakes⟩ := exists_takes_of_firstOf htakes
    rw [hsame, honly d hd j t hdtakes] at h
    obtain ⟨rfl, rfl⟩ := h.unique hdtakes hsame
    exact htakes

/-- One turn after another takes its part, until the construct is not there. -/
inductive TakesMany (c : Construct κ) : List Char → List Char → Prop
  | nil {r : List Char} : c r = none → TakesMany c [] r
  | cons {a b r : List Char} : c.Takes a (b ++ r) → TakesMany c b r → TakesMany c (a ++ b) r

theorem TakesMany.ends (h : TakesMany c i r) : c r = none := by
  induction h with
  | nil hr => exact hr
  | cons _ _ ih => exact ih

theorem takesMany_repeated (hc : c.Advances) (hfits : c.Fits) (s : List Char) :
    TakesMany c (textOf (c.repeated s)) (s.drop (width (c.repeated s))) := by
  refine repeated_induction
    (motive := fun s ps ↦ TakesMany c (textOf ps) (s.drop (width ps))) hc hfits ?_ ?_ s
  · intro s hnone
    exact .nil hnone
  · intro s ps hread hrest
    rw [Piece.textOf_append, Piece.width_append, ← List.drop_drop]
    refine .cons ?_ hrest
    rw [(fits_repeated hfits (s.drop (width ps))).textOf_append_drop]
    exact hfits.takes hread

/-- The turns that a text admits are those that reading it again and again goes through. -/
theorem TakesMany.unique {j t : List Char} (h : TakesMany c i r)
    (h' : TakesMany c j t) (hsame : i ++ r = j ++ t) : i = j ∧ r = t := by
  induction h generalizing j with
  | nil hr =>
    cases h' with
    | nil _ => exact ⟨rfl, hsame⟩
    | cons ha hb =>
      refine absurd hr (ha.ne_none ?_)
      rw [← List.append_assoc, ← hsame, List.nil_append]
  | @cons a b r ha hb ih =>
    cases h' with
    | nil hr =>
      refine absurd hr (ha.ne_none ?_)
      rw [← List.append_assoc, hsame, List.nil_append]
    | @cons a' b' _ ha' hb' =>
      rw [List.append_assoc, List.append_assoc] at hsame
      obtain ⟨rfl, hrest⟩ := ha.unique ha' hsame
      obtain ⟨rfl, rfl⟩ := ih hb' hrest
      exact ⟨rfl, rfl⟩

/-- A repetition takes turn after turn, and ends where the construct is not there. -/
theorem takes_many_iff (hc : c.Advances) (hfits : c.Fits) :
    c.many.Takes i r ↔ TakesMany c i r := by
  have hloop := takesMany_repeated hc hfits (i ++ r)
  have hsame := (fits_repeated hfits (i ++ r)).textOf_append_drop
  have htakes : c.many.Takes (textOf (c.repeated (i ++ r)))
      ((i ++ r).drop (width (c.repeated (i ++ r)))) := by
    refine ⟨_, by rw [hsame]; rfl, ?_⟩
    rw [Piece.textOf_append, Piece.textOf_withdrawal, List.append_nil]
  constructor
  · intro h
    obtain ⟨hi, hr⟩ := htakes.unique h hsame
    rw [hi, hr] at hloop
    exact hloop
  · intro h
    obtain ⟨hi, hr⟩ := hloop.unique h hsame
    rw [hi, hr] at htakes
    exact htakes

/-- After a first turn the others go through the rest. -/
theorem TakesMany.tail {a b : List Char} (h : TakesMany c (a ++ b) r) (ha : c.Takes a (b ++ r)) :
    TakesMany c b r := by
  generalize hsame : a ++ b = j at h
  cases h with
  | nil hr =>
    refine absurd hr (ha.ne_none ?_)
    rw [← List.append_assoc, hsame, List.nil_append]
  | @cons a' b' _ ha' hb' =>
    have hunique := ha.unique ha' (by rw [← List.append_assoc, hsame, List.append_assoc])
    obtain rfl := List.append_cancel_right hunique.2
    exact hb'

/-- Reading again and again covers a text that admits turns up to its end. -/
theorem width_repeated_eq_iff (hc : c.Advances) (hfits : c.Fits) {s : List Char} :
    width (c.repeated s) = s.length ↔ TakesMany c s [] := by
  have hloop := takesMany_repeated hc hfits s
  have hsplit := (fits_repeated hfits s).textOf_append_drop
  constructor
  · intro hwidth
    rw [hwidth, List.drop_length] at hloop hsplit
    rw [List.append_nil] at hsplit
    rwa [hsplit] at hloop
  · intro h
    obtain ⟨htext, -⟩ := hloop.unique h (by rw [hsplit, List.append_nil])
    rw [← Piece.length_textOf, htext]

end Highlight.Construct
