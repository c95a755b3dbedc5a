import Highlight.Proofs.Piece.Fits

/-!
# Constructs that fit and advance

A construct fits if its pieces fit the text it reads, and it advances if it never covers nothing.
Both properties pass from the parts of a construct to the whole, so that a construct put together
from small ones needs no argument of its own. A loop whose steps fit and advance, and which has a
step for every text, covers all of its text.
-/

namespace Highlight

open Piece (Covers width)

variable {κ σ : Type}

namespace Construct

/-- The pieces of the construct fit every text that it reads, and its trail fits every other. -/
structure Fits (c : Construct κ) : Prop where
  read : ∀ s ps, c s = some ps → Piece.Fits ps s
  trail : ∀ s, Piece.Fits (c.trail s) s

/-- The construct covers at least one character wherever it is there. -/
def Advances (c : Construct κ) : Prop := ∀ s ps, c s = some ps → 0 < width ps

/-- A construct that reports nothing before it is complete fits if its pieces do. -/
theorem fits_of_read {c : Construct κ} (htrail : ∀ s, c.trail s = [])
    (h : ∀ s ps, c s = some ps → Piece.Fits ps s) : c.Fits where
  read := h
  trail s := by
    rw [htrail]
    exact Piece.fits_nil s

section

variable {c : Construct κ} {length : List Char → Nat}
  (hcovers : ∀ s ps, c s = some ps → length s ≠ 0 ∧ Covers ps (s.take (length s)))

include hcovers

/-- A construct fits if its pieces cover what is measured before they are read. -/
theorem fits_of_covers (htrail : ∀ s, c.trail s = []) : c.Fits := by
  apply fits_of_read htrail
  intro s ps h
  exact (hcovers s ps h).2.1.mono (List.take_prefix _ _)

theorem advances_of_covers (h0 : length [] = 0) : c.Advances := by
  intro s ps h
  obtain ⟨hn, -, hwidth⟩ := hcovers s ps h
  have hs : s ≠ [] := fun hs ↦ hn (hs ▸ h0)
  rw [hwidth, List.length_pos_iff, ne_eq, List.take_eq_nil_iff, not_or]
  exact ⟨hn, hs⟩

end

theorem fits_take (label : κ) (n : Nat) (s : List Char) :
    Piece.Fits [.token label (s.take n)] s := by
  rw [Piece.fits_token]
  exact List.take_prefix n s

theorem measured_eq_some {label : κ} {length : List Char → Nat} {s : List Char}
    {ps : List (Piece κ)} :
    measured label length s = some ps ↔ length s ≠ 0 ∧ ps = [.token label (s.take (length s))] := by
  simp only [measured, ite_eq_iff, reduceCtorEq, and_false, false_or, Option.some.injEq, ne_eq,
    eq_comm (a := ps)]

theorem measured_of_eq_zero {label : κ} {length : List Char → Nat} {s : List Char}
    (h : length s = 0) : measured label length s = none := by
  simp only [measured, h, if_true]

theorem isSome_measured {label : κ} {length : List Char → Nat} {s : List Char}
    (h : length s ≠ 0) : (measured label length s).isSome :=
  Option.isSome_iff_exists.2 ⟨_, measured_eq_some.2 ⟨h, rfl⟩⟩

theorem length_ne_zero_of_measured {label : κ} {length : List Char → Nat} {s : List Char}
    (h : (measured label length s).isSome) : length s ≠ 0 := by
  obtain ⟨ps, hps⟩ := Option.isSome_iff_exists.1 h
  exact (measured_eq_some.1 hps).1

@[simp]
theorem fits_measured (label : κ) (length : List Char → Nat) : (measured label length).Fits := by
  apply fits_of_read fun _ ↦ rfl
  intro s ps h
  obtain ⟨-, rfl⟩ := measured_eq_some.1 h
  exact fits_take _ _ s

theorem advances_measured {label : κ} {length : List Char → Nat} (h0 : length [] = 0) :
    (measured label length).Advances := by
  intro s ps h
  obtain ⟨hn, rfl⟩ := measured_eq_some.1 h
  exact Piece.width_take_pos rfl hn fun hs ↦ hn (hs ▸ h0)

theorem literal_eq_some {label : κ} {lit : String} {s : List Char} {ps : List (Piece κ)} :
    literal label lit s = some ps ↔ lit.toList <+: s ∧ ps = [.token label lit.toList] := by
  simp only [literal, ite_eq_iff, reduceCtorEq, and_false, or_false, Option.some.injEq,
    eq_comm (a := ps), Text.startsWith_iff]

@[simp]
theorem fits_literal (label : κ) (lit : String) : (literal label lit).Fits := by
  apply fits_of_read fun _ ↦ rfl
  intro s ps h
  obtain ⟨hlit, rfl⟩ := literal_eq_some.1 h
  rwa [Piece.fits_token]

theorem advances_literal {label : κ} {lit : String} (hlit : lit.toList ≠ []) :
    (literal label lit).Advances := by
  intro s ps h
  obtain ⟨-, rfl⟩ := literal_eq_some.1 h
  have hpos := List.length_pos_iff.2 hlit
  simpa [Piece.text] using hpos

@[simp]
theorem fits_skip (length : List Char → Nat) : (skip length : Construct κ).Fits := by
  apply fits_of_read fun _ ↦ rfl
  intro s ps h
  obtain rfl := Option.some.inj h
  exact (Piece.fits_hidden _ _).2 (List.take_prefix _ _)

theorem skipSome_eq_some {length : List Char → Nat} {s : List Char} {ps : List (Piece κ)} :
    skipSome length s = some ps ↔ length s ≠ 0 ∧ ps = [.gap (s.take (length s))] := by
  simp only [skipSome, ite_eq_iff, reduceCtorEq, and_false, false_or, Option.some.injEq, ne_eq,
    eq_comm (a := ps)]

theorem isSome_skipSome {length : List Char → Nat} {s : List Char} (h : length s ≠ 0) :
    ((skipSome length : Construct κ) s).isSome :=
  Option.isSome_iff_exists.2 ⟨_, skipSome_eq_some.2 ⟨h, rfl⟩⟩

@[simp]
theorem fits_skipSome (length : List Char → Nat) : (skipSome length : Construct κ).Fits := by
  apply fits_of_read fun _ ↦ rfl
  intro s ps h
  obtain ⟨-, rfl⟩ := skipSome_eq_some.1 h
  rw [Piece.fits_gap]
  exact List.take_prefix _ _

theorem advances_skipSome {length : List Char → Nat} (h0 : length [] = 0) :
    (skipSome length : Construct κ).Advances := by
  intro s ps h
  obtain ⟨hn, rfl⟩ := skipSome_eq_some.1 h
  exact Piece.width_take_pos rfl hn fun hs ↦ hn (hs ▸ h0)

theorem skipLiteral_eq_some {lit : String} {s : List Char} {ps : List (Piece κ)} :
    skipLiteral lit s = some ps ↔ lit.toList <+: s ∧ ps = [.gap lit.toList] := by
  simp only [skipLiteral, ite_eq_iff, reduceCtorEq, and_false, or_false, Option.some.injEq,
    eq_comm (a := ps), Text.startsWith_iff]

@[simp]
theorem fits_skipLiteral (lit : String) : (skipLiteral lit : Construct κ).Fits := by
  apply fits_of_read fun _ ↦ rfl
  intro s ps h
  obtain ⟨hlit, rfl⟩ := skipLiteral_eq_some.1 h
  rwa [Piece.fits_gap]

theorem advances_skipLiteral {lit : String} (hlit : lit.toList ≠ []) :
    (skipLiteral lit : Construct κ).Advances := by
  intro s ps h
  obtain ⟨-, rfl⟩ := skipLiteral_eq_some.1 h
  have hpos := List.length_pos_iff.2 hlit
  simpa [Piece.text] using hpos

theorem seq_nil_eq_some {s : List Char} {ps : List (Piece κ)} :
    seq [] s = some ps ↔ ps = [] := by
  simp [seq, readAll, eq_comm]

theorem seq_cons_eq_some {c : Construct κ} {cs : List (Construct κ)} {s : List Char}
    {ps : List (Piece κ)} :
    seq (c :: cs) s = some ps ↔
      ∃ qs rs, c s = some qs ∧ seq cs (s.drop (width qs)) = some rs ∧ ps = qs ++ rs := by
  simp only [seq, readAll, bind, Option.bind_eq_some_iff, pure, Option.some.injEq]
  constructor
  · rintro ⟨qs, hq, rs, hr, rfl⟩
    exact ⟨qs, rs, hq, hr, rfl⟩
  · rintro ⟨qs, rs, hq, hr, rfl⟩
    exact ⟨qs, hq, rs, hr, rfl⟩

theorem seq_cons_of_none {c : Construct κ} {s : List Char} (h : c s = none)
    (cs : List (Construct κ)) : seq (c :: cs) s = none ∧ (seq (c :: cs)).trail s = c.trail s := by
  constructor
  · simp only [seq, readAll, h]
    rfl
  · simp only [seq, trailAll, h]

theorem seq_cons_of_some {c : Construct κ} {s : List Char} {ps : List (Piece κ)}
    (h : c s = some ps) (cs : List (Construct κ)) :
    seq (c :: cs) s = (seq cs (s.drop (width ps))).map (ps ++ ·) ∧
      (seq (c :: cs)).trail s = ps ++ (seq cs).trail (s.drop (width ps)) := by
  constructor
  · simp only [seq, readAll, h, Option.bind_eq_bind, Option.bind_some]
    cases readAll cs (s.drop (width ps)) <;> rfl
  · simp only [seq, trailAll, h]

/-- A construct in front of a sequence leaves the rest to that. -/
theorem seq_cons_of_drop {c : Construct κ} {cs : List (Construct κ)} {s rest : List Char}
    {ps qs : List (Piece κ)} (hc : c s = some ps) (hrest : s.drop (width ps) = rest)
    (hcs : seq cs rest = some qs) : seq (c :: cs) s = some (ps ++ qs) :=
  seq_cons_eq_some.2 ⟨ps, qs, hc, by rw [hrest, hcs], rfl⟩

theorem isSome_of_seq_cons {c : Construct κ} {cs : List (Construct κ)} {s : List Char}
    (h : (seq (c :: cs) s).isSome) : (c s).isSome := by
  obtain ⟨ps, hps⟩ := Option.isSome_iff_exists.1 h
  obtain ⟨qs, -, hc, -, -⟩ := seq_cons_eq_some.1 hps
  exact Option.isSome_of_eq_some hc

/-- No text begins with both of two sequences. -/
def Apart (cs ds : List (Construct κ)) : Prop := ∀ s, (seq cs s).isSome → ¬ (seq ds s).isSome

theorem apart_of_first {c d : Construct κ} (h : ∀ s, (c s).isSome → ¬ (d s).isSome)
    (cs ds : List (Construct κ)) : Apart (c :: cs) (d :: ds) :=
  fun s hc hd ↦ h s (isSome_of_seq_cons hc) (isSome_of_seq_cons hd)

theorem Apart.symm {cs ds : List (Construct κ)} (h : Apart cs ds) : Apart ds cs :=
  fun s hds hcs ↦ h s hcs hds

/-- What stands in front of both is read alike. -/
theorem Apart.cons {cs ds : List (Construct κ)} (h : Apart cs ds) (c : Construct κ) :
    Apart (c :: cs) (c :: ds) := by
  intro s hcs hds
  obtain ⟨ps, hps⟩ := Option.isSome_iff_exists.1 (isSome_of_seq_cons hcs)
  rw [(seq_cons_of_some hps cs).1, Option.isSome_map] at hcs
  rw [(seq_cons_of_some hps ds).1, Option.isSome_map] at hds
  exact h _ hcs hds

/-- A sequence fits if all its constructs do, also as far as it went before one was not there. -/
theorem fits_seq {cs : List (Construct κ)} (h : ∀ c ∈ cs, c.Fits) : (seq cs).Fits := by
  induction cs with
  | nil =>
    apply fits_of_read fun _ ↦ rfl
    intro s ps hps
    obtain rfl := seq_nil_eq_some.1 hps
    exact Piece.fits_nil s
  | cons c cs ih =>
    have hfirst := h c List.mem_cons_self
    have hrest := ih fun d hd ↦ h d (List.mem_cons_of_mem _ hd)
    constructor
    · intro s ps hps
      obtain ⟨qs, rs, hq, hr, rfl⟩ := seq_cons_eq_some.1 hps
      rw [Piece.fits_append]
      exact ⟨hfirst.read s qs hq, hrest.read _ rs hr⟩
    · intro s
      simp only [seq, trailAll]
      cases hc : c s with
      | none => exact hfirst.trail s
      | some ps =>
        rw [Piece.fits_append]
        exact ⟨hfirst.read s ps hc, hrest.trail _⟩

/-- A sequence advances if one of its constructs does. -/
theorem advances_seq {cs : List (Construct κ)} {c : Construct κ} (hc : c ∈ cs)
    (h : c.Advances) : (seq cs).Advances := by
  induction cs with
  | nil => simp at hc
  | cons d cs ih =>
    intro s ps hps
    obtain ⟨qs, rs, hq, hr, rfl⟩ := seq_cons_eq_some.1 hps
    rw [Piece.width_append]
    rcases List.mem_cons.1 hc with rfl | hc
    · exact Nat.add_pos_left (h s qs hq) _
    · exact Nat.add_pos_right _ (ih hc _ rs hr)

theorem firstOf_cons_eq_some {c : Construct κ} {cs : List (Construct κ)} {s : List Char}
    {ps : List (Piece κ)} :
    firstOf (c :: cs) s = some ps ↔
      c s = some ps ∨ c s = none ∧ ∃ qs, firstOf cs s = some qs ∧
        ps = Piece.withdrawal (c.trail s) ++ qs := by
  simp only [firstOf, readFirst]
  cases hc : c s with
  | some qs => simp
  | none => simp [Option.map_eq_some_iff, eq_comm (a := ps)]

/-- A construct that leaves no trace where it is not there makes way for the others. -/
theorem firstOf_cons_of_trail {c : Construct κ} {s : List Char} (h : c.trail s = [])
    (cs : List (Construct κ)) : firstOf (c :: cs) s = (c s).or (firstOf cs s) := by
  simp only [firstOf, readFirst, h]
  cases c s with
  | some ps => rfl
  | none => simp [Piece.withdrawal]

/-- The first construct that is there tells what is covered. -/
theorem exists_of_firstOf {cs : List (Construct κ)} {s : List Char} {ps : List (Piece κ)}
    (h : firstOf cs s = some ps) :
    ∃ c ∈ cs, ∃ qs, c s = some qs ∧ Piece.textOf ps = Piece.textOf qs := by
  induction cs generalizing ps with
  | nil => simp [firstOf, readFirst] at h
  | cons c cs ih =>
    rcases firstOf_cons_eq_some.1 h with hc | ⟨-, qs, hcs, rfl⟩
    · exact ⟨c, List.mem_cons_self, ps, hc, rfl⟩
    · obtain ⟨d, hd, rs, hds, htext⟩ := ih hcs
      exact ⟨d, List.mem_cons_of_mem _ hd, rs, hds, by simpa using htext⟩

theorem fits_withdrawAll {cs : List (Construct κ)} (h : ∀ c ∈ cs, c.Fits) (s : List Char) :
    Piece.Fits (withdrawAll cs s) s ∧ width (withdrawAll cs s) = 0 := by
  induction cs with
  | nil => exact ⟨Piece.fits_nil s, rfl⟩
  | cons c cs ih =>
    obtain ⟨hfits, hwidth⟩ := ih fun d hd ↦ h d (List.mem_cons_of_mem _ hd)
    rw [withdrawAll, List.flatMap_cons, Piece.fits_append, Piece.width_append,
      Piece.width_withdrawal, List.drop_zero]
    exact ⟨⟨Piece.fits_withdrawal ((h c List.mem_cons_self).trail s), hfits⟩,
      by rw [Nat.zero_add]; exact hwidth⟩

/-- What an alternative reports before the next one is tried fits where it stands. -/
theorem fits_firstOf {cs : List (Construct κ)} (h : ∀ c ∈ cs, c.Fits) : (firstOf cs).Fits := by
  refine ⟨?_, fun s ↦ (fits_withdrawAll h s).1⟩
  induction cs with
  | nil =>
    intro s ps hps
    simp [firstOf, readFirst] at hps
  | cons c cs ih =>
    have hfirst := h c List.mem_cons_self
    intro s ps hps
    rcases firstOf_cons_eq_some.1 hps with hc | ⟨-, qs, hcs, rfl⟩
    · exact hfirst.read s ps hc
    · rw [Piece.fits_append, Piece.width_withdrawal, List.drop_zero]
      exact ⟨Piece.fits_withdrawal (hfirst.trail s),
        ih (fun d hd ↦ h d (List.mem_cons_of_mem _ hd)) s qs hcs⟩

theorem advances_firstOf {cs : List (Construct κ)} (h : ∀ c ∈ cs, c.Advances) :
    (firstOf cs).Advances := by
  intro s ps hps
  obtain ⟨c, hc, qs, hcs, htext⟩ := exists_of_firstOf hps
  rw [← Piece.length_textOf, htext, Piece.length_textOf]
  exact h c hc s qs hcs

/-- There is a first construct wherever one of them is there. -/
theorem isSome_firstOf {cs : List (Construct κ)} {c : Construct κ} (hc : c ∈ cs) {s : List Char}
    (h : (c s).isSome) : (firstOf cs s).isSome := by
  induction cs with
  | nil => simp at hc
  | cons d cs ih =>
    simp only [firstOf, readFirst]
    cases hd : d s with
    | some ps => rfl
    | none =>
      rw [Option.isSome_map]
      rcases List.mem_cons.1 hc with rfl | hc
      · simp [hd] at h
      · exact ih hc

/-- Where none of the constructs is there, the first of them is not there either. -/
theorem firstOf_eq_none_iff {cs : List (Construct κ)} {s : List Char} :
    firstOf cs s = none ↔ ∀ c ∈ cs, c s = none := by
  constructor
  · intro h c hc
    by_contra hsome
    have hfirst := isSome_firstOf hc (Option.isSome_iff_ne_none.2 hsome)
    simp [h] at hfirst
  · intro h
    cases hfirst : firstOf cs s with
    | none => rfl
    | some ps =>
      obtain ⟨c, hc, qs, hcs, -⟩ := exists_of_firstOf hfirst
      rw [h c hc] at hcs
      exact absurd hcs (by simp)

theorem fits_choose {construct : List Char → Construct κ} (h : ∀ s, (construct s).Fits) :
    (choose construct).Fits where
  read s := (h s).read s
  trail s := (h s).trail s

theorem advances_choose {construct : List Char → Construct κ} (h : ∀ s, (construct s).Advances) :
    (choose construct).Advances := fun s ↦ h s s

theorem fits_optional {c : Construct κ} (h : c.Fits) : (optional c).Fits := by
  apply fits_of_read fun _ ↦ rfl
  intro s ps hps
  obtain rfl := Option.some.inj hps
  cases hc : c s with
  | none => exact Piece.fits_withdrawal (h.trail s)
  | some qs => exact h.read s qs hc

theorem fits_onlyIf {allowed : Bool} {c : Construct κ} (h : c.Fits) : (onlyIf allowed c).Fits := by
  cases allowed with
  | false => exact fits_of_read (fun _ ↦ rfl) fun s ps hps ↦ by simp [onlyIf] at hps
  | true => exact h

theorem onlyIf_eq_some {allowed : Bool} {c : Construct κ} {s : List Char} {ps : List (Piece κ)} :
    onlyIf allowed c s = some ps ↔ allowed ∧ c s = some ps := by
  cases allowed <;> simp [onlyIf]

theorem onlyIf_of_none {c : Construct κ} {s : List Char} (h : c s = none) (allowed : Bool) :
    onlyIf allowed c s = none := by
  cases allowed with
  | false => rfl
  | true => exact h

theorem trail_onlyIf {c : Construct κ} (allowed : Bool) (h : ∀ s, c.trail s = []) (s : List Char) :
    (onlyIf allowed c).trail s = [] := by
  cases allowed with
  | true => exact h s
  | false => rfl

theorem advances_onlyIf {allowed : Bool} {c : Construct κ} (h : c.Advances) :
    (onlyIf allowed c).Advances :=
  fun s ps hps ↦ h s ps (onlyIf_eq_some.1 hps).2

theorem fits_ifNext {lit : String} {c : Construct κ} (h : c.Fits) : (ifNext lit c).Fits := by
  apply fits_choose
  intro s
  split
  · exact h
  · exact fits_seq (by simp)

end Construct

/-! ## Loops -/

/-- A step that hands a state along fits if its pieces fit every text that it reads. -/
def StepFits (step : σ → List Char → Option (List (Piece κ) × σ)) : Prop :=
  ∀ state s ps next, step state s = some (ps, next) → Piece.Fits ps s

/-- The step covers at least one character of every text that is not empty. -/
def StepAdvances (step : σ → List Char → Option (List (Piece κ) × σ)) : Prop :=
  ∀ state s ps next, s ≠ [] → step state s = some (ps, next) → 0 < width ps

section

variable {step : σ → List Char → Option (List (Piece κ) × σ)}

/-- What holds where a loop ends, which is with the text or where its step is not there, or where a
step covers nothing, and of a step if it holds of what is read behind it, holds of all that the loop
reads. -/
theorem run_induction {motive : σ → List Char → List (Piece κ) → Prop}
    (ends : ∀ state s, s = [] ∨ step state s = none → motive state s [])
    (stuck : ∀ state s ps next, s ≠ [] → step state s = some (ps, next) → width ps = 0 →
      motive state s ps)
    (turn : ∀ state s ps next, s ≠ [] → step state s = some (ps, next) →
      motive next (s.drop (width ps)) (run step next (s.drop (width ps))) →
      motive state s (ps ++ run step next (s.drop (width ps))))
    (state : σ) (s : List Char) : motive state s (run step state s) := by
  induction hn : s.length using Nat.strongRecOn generalizing state s with
  | ind n ih =>
    cases s with
    | nil =>
      rw [run_nil]
      exact ends state [] (.inl rfl)
    | cons c s =>
      have hne := List.cons_ne_nil c s
      rw [run_cons]
      cases hstep : step state (c :: s) with
      | none => exact ends state _ (.inr hstep)
      | some found =>
        obtain ⟨ps, next⟩ := found
        by_cases hw : width ps = 0
        · simp only [hw, if_true, List.append_nil]
          exact stuck state _ ps next hne hstep hw
        · have hlt : ((c :: s).drop (width ps)).length < n :=
            hn ▸ Piece.length_drop_width_lt hw c s
          simp only [hw, if_false]
          exact turn state _ ps next hne hstep (ih _ hlt next _ rfl)

theorem run_of_some {state next : σ} {s : List Char} {ps : List (Piece κ)}
    (h : step state s = some (ps, next)) (hs : s ≠ []) (hwidth : width ps ≠ 0) :
    run step state s = ps ++ run step next (s.drop (width ps)) := by
  obtain ⟨c, t, rfl⟩ := List.exists_cons_of_ne_nil hs
  rw [run_cons, h]
  simp only [hwidth, if_false]

theorem fits_run (h : StepFits step) (state : σ) (s : List Char) :
    Piece.Fits (run step state s) s := by
  refine run_induction (motive := fun _ s ps ↦ Piece.Fits ps s) ?_ ?_ ?_ state s
  · intro _ s _
    exact Piece.fits_nil s
  · intro state s ps next _ hstep _
    exact h state s ps next hstep
  · intro state s ps next _ hstep hrest
    exact (Piece.fits_append _ _ _).2 ⟨h state s ps next hstep, hrest⟩

/-- A loop that has an advancing step for every text reads it to the end. -/
theorem covers_run (h : StepFits step) (hadvances : StepAdvances step)
    (htotal : ∀ state c s, (step state (c :: s)).isSome) (state : σ) (s : List Char) :
    Covers (run step state s) s := by
  refine ⟨fits_run h state s, ?_⟩
  refine run_induction (motive := fun _ s ps ↦ width ps = s.length) ?_ ?_ ?_ state s
  · rintro state s (rfl | hnone)
    · rfl
    · cases s with
      | nil => rfl
      | cons c s => exact absurd (htotal state c s) (by simp [hnone])
  · intro state s ps next hne hstep hw
    exact absurd hw (Nat.ne_of_gt (hadvances state s ps next hne hstep))
  · intro state s ps next _ hstep hrest
    have hle := (h state s ps next hstep).width_le
    rw [Piece.width_append, hrest, List.length_drop]
    omega

end

namespace Construct

/-- A turn of a repetition is what the construct reads. -/
theorem read_of_turn {c : Construct κ} {s : List Char} {ps : List (Piece κ)} {next : Unit}
    (h : (c s).map (·, ()) = some (ps, next)) : c s = some ps := by
  obtain ⟨qs, hqs, hturn⟩ := Option.map_eq_some_iff.1 h
  rw [hqs, (Prod.mk.inj hturn).1]

theorem fits_repeated {c : Construct κ} (h : c.Fits) (s : List Char) :
    Piece.Fits (c.repeated s) s :=
  fits_run (fun _ t ps _ hturn ↦ h.read t ps (read_of_turn hturn)) () s

/-- A construct that advances and is there on every text covers it when it is repeated. -/
theorem covers_repeated {c : Construct κ} (h : c.Fits) (hadvances : c.Advances)
    (htotal : ∀ d t, (c (d :: t)).isSome) (s : List Char) : Covers (c.repeated s) s := by
  apply covers_run
  · intro _ t ps _ hturn
    exact h.read t ps (read_of_turn hturn)
  · intro _ t ps _ _ hturn
    exact hadvances t ps (read_of_turn hturn)
  · intro _ d t
    rw [Option.isSome_map]
    exact htotal d t

theorem Advances.eq_none {c : Construct κ} (hc : c.Advances) (hfits : c.Fits) : c [] = none := by
  cases h : c [] with
  | none => rfl
  | some ps =>
    have hpos := hc [] ps h
    have hle := (hfits.read [] ps h).width_le
    rw [List.length_nil] at hle
    omega

theorem repeated_of_none {c : Construct κ} {s : List Char} (h : c s = none) :
    c.repeated s = [] := by
  cases s with
  | nil => exact run_nil _ _
  | cons d s =>
    rw [repeated, run_cons, h]
    rfl

theorem repeated_of_some {c : Construct κ} (hc : c.Advances) (hfits : c.Fits) {s : List Char}
    {ps : List (Piece κ)} (h : c s = some ps) :
    c.repeated s = ps ++ c.repeated (s.drop (width ps)) := by
  cases s with
  | nil => exact absurd (h.symm.trans (hc.eq_none hfits)) (Option.some_ne_none ps)
  | cons d s =>
    exact run_of_some (by rw [h]; rfl) (List.cons_ne_nil d s) (Nat.ne_of_gt (hc _ ps h))

/-- Where the construct is not there and reports nothing, a repetition reads nothing. -/
theorem many_of_none {c : Construct κ} {s : List Char} (h : c s = none) (htrail : c.trail s = []) :
    c.many s = some [] := by
  have hrepeated : c.repeated s = [] := repeated_of_none h
  simp only [many, hrepeated, Piece.width_nil, List.drop_zero, htrail]
  rfl

/-- What holds where the construct is not there, and of a turn if it holds of those behind it, holds
of all that a repetition reads. -/
theorem repeated_induction {c : Construct κ} (hc : c.Advances) (hfits : c.Fits)
    {motive : List Char → List (Piece κ) → Prop} (ends : ∀ s, c s = none → motive s [])
    (turn : ∀ s ps, c s = some ps →
      motive (s.drop (width ps)) (c.repeated (s.drop (width ps))) →
      motive s (ps ++ c.repeated (s.drop (width ps))))
    (s : List Char) : motive s (c.repeated s) := by
  refine run_induction (motive := fun _ s ps ↦ motive s ps) ?_ ?_ ?_ () s
  · rintro _ s (rfl | hnone)
    · exact ends [] (hc.eq_none hfits)
    · exact ends s (Option.map_eq_none_iff.1 hnone)
  · intro _ s ps _ _ hturn hw
    exact absurd hw (Nat.ne_of_gt (hc s ps (read_of_turn hturn)))
  · intro _ s ps _ _ hturn hrest
    exact turn s ps (read_of_turn hturn) hrest

/-- A repetition ends only where the construct is not there. -/
theorem repeated_ends {c : Construct κ} (hc : c.Advances) (hfits : c.Fits) (s : List Char) :
    c (s.drop (width (c.repeated s))) = none := by
  refine repeated_induction (motive := fun s ps ↦ c (s.drop (width ps)) = none) hc hfits ?_ ?_ s
  · intro s hnone
    exact hnone
  · intro s ps _ hbehind
    rw [Piece.width_append, ← List.drop_drop]
    exact hbehind

/-- The places to which a repetition comes, each with the pieces that are read before it. -/
inductive Reaches (c : Construct κ) (s : List Char) : List (Piece κ) → List Char → Prop
  | start : Reaches c s [] s
  | turn {before ps : List (Piece κ)} {rest : List Char} : Reaches c s before rest →
      c rest = some ps → Reaches c s (before ++ ps) (rest.drop (width ps))

/-- From a place on, a repetition reads as if the text began there. -/
theorem Reaches.repeated_eq {c : Construct κ} (hc : c.Advances) (hfits : c.Fits)
    {s rest : List Char}
    {before : List (Piece κ)} (h : c.Reaches s before rest) :
    c.repeated s = before ++ c.repeated rest ∧ s = Piece.textOf before ++ rest := by
  induction h with
  | start => exact ⟨rfl, rfl⟩
  | @turn before ps rest _ hread ih =>
    constructor
    · rw [ih.1, repeated_of_some hc hfits hread, List.append_assoc]
    · rw [Piece.textOf_append, List.append_assoc, (hfits.read rest ps hread).textOf_append_drop]
      exact ih.2

@[simp]
theorem fits_many {c : Construct κ} (h : c.Fits) : c.many.Fits := by
  apply fits_of_read fun _ ↦ rfl
  intro s ps hps
  obtain rfl := Option.some.inj hps
  rw [Piece.fits_append]
  exact ⟨fits_repeated h s, Piece.fits_withdrawal (h.trail _)⟩

end Construct

/-! ## Literals in parts -/

/-- What a literal finds set in fits the text from there on. -/
def Turn.Fits (turn : List Char → Turn κ) : Prop :=
  ∀ s ps, turn s = .aside ps → Piece.Fits ps s

/-- What a literal finds set in is never empty. -/
def Turn.Advances (turn : List Char → Turn κ) : Prop :=
  ∀ s ps, turn s = .aside ps → 0 < width ps

section

variable {label : κ} {turn : List Char → Turn κ} {part s : List Char} {ps : List (Piece κ)}

/-- What holds where a literal is closed, and passes through its plain characters and over what it
finds set in, holds of all that a literal reads. -/
theorem partsFrom_induction {motive : List Char → List Char → List (Piece κ) → Prop}
    (close : ∀ part s n, turn s = .close n →
      motive part s (Piece.shown label (part.reverse ++ s.take n)))
    (plain : ∀ part c s ps, turn (c :: s) = .plain → motive (c :: part) s ps →
      motive part (c :: s) ps)
    (aside : ∀ part s pieces ps, turn s = .aside pieces → motive [] (s.drop (width pieces)) ps →
      motive part s (Piece.shown label part.reverse ++ (pieces ++ ps)))
    (hps : partsFrom label turn [] part s = some ps) : motive part s ps := by
  induction hn : s.length using Nat.strongRecOn generalizing part s ps with
  | ind n ih =>
    cases s with
    | nil =>
      rw [partsFrom] at hps
      cases hturn : turn [] with
      | close closing =>
        simp only [hturn, List.reverse_nil, List.nil_append, Option.some.injEq] at hps
        subst hps
        simpa using close part [] closing hturn
      | _ => simp [hturn] at hps
    | cons c s =>
      rw [partsFrom] at hps
      cases hturn : turn (c :: s) with
      | plain =>
        simp only [hturn] at hps
        exact plain part c s ps hturn (ih _ (by simp [← hn]) hps rfl)
      | wrong => simp [hturn] at hps
      | spoiled => simp [hturn] at hps
      | close closing =>
        simp only [hturn, List.reverse_nil, List.nil_append, Option.some.injEq] at hps
        subst hps
        exact close part _ closing hturn
      | aside pieces =>
        simp only [hturn] at hps
        by_cases hw : width pieces = 0
        · simp [hw] at hps
        · have hlt : ((c :: s).drop (width pieces)).length < n :=
            hn ▸ Piece.length_drop_width_lt hw c s
          simp only [hw, if_false] at hps
          rw [partsFrom_eq, Option.map_eq_some_iff] at hps
          obtain ⟨qs, hqs, rfl⟩ := hps
          simp only [List.append_nil, List.reverseAux_eq, List.reverse_append, List.reverse_reverse,
            Piece.reverse_shown, List.append_assoc]
          exact aside part _ pieces qs hturn (ih _ hlt hqs rfl)

/-- What a literal has read before something is set into it is shown. -/
theorem exists_of_partsFrom (hpart : part ≠ []) (hps : partsFrom label turn [] part s = some ps) :
    ∃ text ≠ [], .token label text ∈ ps := by
  revert hpart
  refine partsFrom_induction
    (motive := fun part _ ps ↦ part ≠ [] → ∃ text ≠ [], .token label text ∈ ps) ?_ ?_ ?_ hps
  · intro part s n _ hpart
    have htext := List.append_ne_nil_of_left_ne_nil (List.reverse_ne_nil_iff.2 hpart) (s.take n)
    exact ⟨_, htext, Piece.mem_shown htext⟩
  · intro part c s ps _ hind _
    exact hind (List.cons_ne_nil c part)
  · intro part s pieces ps _ _ hpart
    have htext := List.reverse_ne_nil_iff.2 hpart
    exact ⟨_, htext, List.mem_append_left _ (Piece.mem_shown htext)⟩

theorem fits_partsFrom (h : Turn.Fits turn) (hps : partsFrom label turn [] part s = some ps) :
    Piece.Fits ps (part.reverse ++ s) ∧ part.length ≤ width ps := by
  refine partsFrom_induction
    (motive := fun part s ps ↦ Piece.Fits ps (part.reverse ++ s) ∧ part.length ≤ width ps)
    ?_ ?_ ?_ hps
  · intro part s n _
    simp [List.prefix_append_right_inj, List.take_prefix]
  · intro part c s ps _ hind
    rw [List.reverse_cons, List.append_assoc, List.length_cons] at hind
    exact ⟨hind.1, Nat.le_of_succ_le hind.2⟩
  · intro part s pieces ps hturn hind
    have hdrop : (part.reverse ++ s).drop part.length = s := by
      rw [← List.length_reverse, List.drop_left]
    simp only [Piece.fits_append, Piece.fits_shown, Piece.width_append, Piece.width_shown,
      List.prefix_append, true_and, List.length_reverse, hdrop]
    exact ⟨⟨h _ _ hturn, hind.1⟩, Nat.le_add_right _ _⟩

/-- A literal that nothing closes before the end of the text takes all of it. -/
theorem width_partsFrom (h : Turn.Fits turn) (hclose : ∀ s n, turn s = .close n → s = [])
    (hps : partsFrom label turn [] part s = some ps) : width ps = part.length + s.length := by
  refine partsFrom_induction
    (motive := fun part s ps ↦ width ps = part.length + s.length) ?_ ?_ ?_ hps
  · intro part s n hturn
    rw [hclose s n hturn]
    simp
  · intro part c s ps _ hind
    rw [hind, List.length_cons, List.length_cons]
    omega
  · intro part s pieces ps hturn hind
    have hle := (h _ _ hturn).width_le
    rw [List.length_nil, List.length_drop] at hind
    rw [Piece.width_append, Piece.width_append, Piece.width_shown, List.length_reverse, hind]
    omega

end

/-- What a literal reports before it fails fits the text up to there. -/
theorem fits_partsTrail {label : κ} {turn : List Char → Turn κ} (h : Turn.Fits turn)
    (part s : List Char) : Piece.Fits (partsTrail label turn part s) (part.reverse ++ s) := by
  induction hn : s.length using Nat.strongRecOn generalizing part s with
  | ind n ih =>
    have hshown : Piece.Fits (Piece.shown label part.reverse) (part.reverse ++ s) :=
      (Piece.fits_shown _ _ _).2 (List.prefix_append _ _)
    cases s with
    | nil =>
      rw [partsTrail]
      cases turn [] <;> simp
    | cons c s =>
      rw [partsTrail]
      cases hturn : turn (c :: s) with
      | plain =>
        have hind := ih _ (by simp [← hn]) (c :: part) s rfl
        rwa [List.reverse_cons, List.append_assoc] at hind
      | wrong => exact Piece.fits_nil _
      | close closing => exact Piece.fits_nil _
      | spoiled => exact hshown
      | aside pieces =>
        have hdrop : (part.reverse ++ c :: s).drop (width (Piece.shown label part.reverse)) =
            c :: s := by
          rw [Piece.width_shown, List.drop_left]
        simp only
        rw [Piece.fits_append, hdrop]
        refine ⟨hshown, ?_⟩
        split
        · exact Piece.fits_nil _
        · next hw =>
          have hlt : ((c :: s).drop (width pieces)).length < n :=
            hn ▸ Piece.length_drop_width_lt hw c s
          rw [Piece.fits_append]
          exact ⟨h _ _ hturn, ih _ hlt [] _ rfl⟩

namespace Construct

theorem fits_parts {label : κ} {opening : Nat} {turn : List Char → Turn κ} (h : Turn.Fits turn) :
    (parts label opening turn).Fits where
  read s ps hps := by simpa using (fits_partsFrom h hps).1
  trail s := by simpa [parts] using fits_partsTrail h (s.take opening).reverse (s.drop opening)

/-- A literal is at least as wide as its opening. -/
theorem le_width_parts {label : κ} {opening : Nat} {turn : List Char → Turn κ} (h : Turn.Fits turn)
    {s : List Char} {ps : List (Piece κ)} (hps : parts label opening turn s = some ps) :
    min opening s.length ≤ width ps := by
  simpa using (fits_partsFrom h hps).2

end Construct

end Highlight
