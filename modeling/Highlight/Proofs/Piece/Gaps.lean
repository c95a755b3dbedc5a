import Highlight.Proofs.Piece.Construct

/-!
# What constructs pass over

A construct shows nothing of its gaps, so what may stand in them is all that a reader of the tokens
misses. That the gaps of a construct are of some form follows from the stretches that its parts pass
over; withdrawn pieces are no gaps, whatever they hold.
-/

namespace Highlight

variable {κ σ : Type} {form : List Char → Prop}

namespace Piece

/-- Every gap among the pieces is of the form. -/
def GapsIn (form : List Char → Prop) (pieces : List (Piece κ)) : Prop :=
  ∀ text, gap text ∈ pieces → form text

@[simp]
theorem gapsIn_nil : GapsIn form ([] : List (Piece κ)) := by
  simp [GapsIn]

@[simp]
theorem gapsIn_append {ps qs : List (Piece κ)} :
    GapsIn form (ps ++ qs) ↔ GapsIn form ps ∧ GapsIn form qs := by
  simp [GapsIn, or_imp, forall_and]

theorem GapsIn.mono {other : List Char → Prop} {ps : List (Piece κ)} (h : GapsIn form ps)
    (hother : ∀ text, form text → other text) : GapsIn other ps :=
  fun text hmem ↦ hother text (h text hmem)

@[simp]
theorem gapsIn_token (label : κ) (text : List Char) : GapsIn form [token label text] := by
  simp [GapsIn]

@[simp]
theorem gapsIn_gap {text : List Char} : GapsIn form [(gap text : Piece κ)] ↔ form text := by
  simp [GapsIn]

@[simp]
theorem gapsIn_shown (label : κ) (text : List Char) : GapsIn form (shown label text) := by
  unfold shown
  split <;> simp

theorem gapsIn_hidden {text : List Char} (h : form text) :
    GapsIn form (hidden text : List (Piece κ)) := by
  unfold hidden
  split
  · exact gapsIn_nil
  · exact gapsIn_gap.2 h

@[simp]
theorem gapsIn_framed (frame inner : κ) (opening closing : Nat) (text : List Char) :
    GapsIn form (framed frame inner opening closing text) := by
  simp [framed]

@[simp]
theorem gapsIn_withdrawal (reported : List (Piece κ)) : GapsIn form (withdrawal reported) := by
  unfold withdrawal
  split
  · exact gapsIn_nil
  · simp [GapsIn]

end Piece

namespace Construct

/-- Wherever the construct is there, its gaps are of the form. -/
def GapsIn (form : List Char → Prop) (c : Construct κ) : Prop :=
  ∀ s ps, c s = some ps → Piece.GapsIn form ps

@[simp]
theorem gapsIn_measured (label : κ) (length : List Char → Nat) :
    (measured label length).GapsIn form := by
  intro s ps h
  obtain ⟨-, rfl⟩ := measured_eq_some.1 h
  exact Piece.gapsIn_token _ _

theorem gapsIn_skip {length : List Char → Nat} (h : ∀ s : List Char, form (s.take (length s))) :
    (skip length : Construct κ).GapsIn form := by
  intro s ps hps
  obtain rfl := Option.some.inj hps
  exact Piece.gapsIn_hidden (h s)

theorem gapsIn_skipSome {length : List Char → Nat}
    (h : ∀ s : List Char, form (s.take (length s))) :
    (skipSome length : Construct κ).GapsIn form := by
  intro s ps hps
  obtain ⟨-, rfl⟩ := skipSome_eq_some.1 hps
  exact Piece.gapsIn_gap.2 (h s)

theorem gapsIn_seq {cs : List (Construct κ)} (h : ∀ c ∈ cs, c.GapsIn form) :
    (seq cs).GapsIn form := by
  induction cs with
  | nil =>
    intro s ps hps
    obtain rfl := seq_nil_eq_some.1 hps
    exact Piece.gapsIn_nil
  | cons c cs ih =>
    intro s ps hps
    obtain ⟨qs, rs, hqs, hrs, rfl⟩ := seq_cons_eq_some.1 hps
    rw [List.forall_mem_cons] at h
    exact Piece.gapsIn_append.2 ⟨h.1 s qs hqs, ih h.2 _ rs hrs⟩

theorem gapsIn_firstOf {cs : List (Construct κ)} (h : ∀ c ∈ cs, c.GapsIn form) :
    (firstOf cs).GapsIn form := by
  induction cs with
  | nil =>
    intro s ps hps
    simp [firstOf, readFirst] at hps
  | cons c cs ih =>
    intro s ps hps
    rw [List.forall_mem_cons] at h
    rcases firstOf_cons_eq_some.1 hps with hc | ⟨-, qs, hqs, rfl⟩
    · exact h.1 s ps hc
    · exact Piece.gapsIn_append.2 ⟨Piece.gapsIn_withdrawal _, ih h.2 s qs hqs⟩

theorem gapsIn_optional {c : Construct κ} (h : c.GapsIn form) : (optional c).GapsIn form := by
  intro s ps hps
  obtain rfl := Option.some.inj hps
  cases hc : c s with
  | none => exact Piece.gapsIn_withdrawal _
  | some qs => exact h s qs hc

theorem gapsIn_onlyIf {allowed : Bool} {c : Construct κ} (h : c.GapsIn form) :
    (onlyIf allowed c).GapsIn form :=
  fun s ps hps ↦ h s ps (onlyIf_eq_some.1 hps).2

end Construct

/-- What a literal finds set in has its gaps of the form. -/
def Turn.GapsIn (form : List Char → Prop) (turn : List Char → Turn κ) : Prop :=
  ∀ s ps, turn s = .aside ps → Piece.GapsIn form ps

theorem gapsIn_partsFrom {label : κ} {turn : List Char → Turn κ} (h : Turn.GapsIn form turn)
    {part s : List Char} {ps : List (Piece κ)} (hps : partsFrom label turn [] part s = some ps) :
    Piece.GapsIn form ps := by
  refine partsFrom_induction (motive := fun _ _ ps ↦ Piece.GapsIn form ps) ?_ ?_ ?_ hps
  · intro _ _ _ _
    exact Piece.gapsIn_shown _ _
  · intro _ _ _ _ _ hinside
    exact hinside
  · intro part s pieces ps hturn hinside
    rw [Piece.gapsIn_append, Piece.gapsIn_append]
    exact ⟨Piece.gapsIn_shown _ _, h s pieces hturn, hinside⟩

theorem Construct.gapsIn_parts {label : κ} {opening : Nat} {turn : List Char → Turn κ}
    (h : Turn.GapsIn form turn) : (Construct.parts label opening turn).GapsIn form :=
  fun _ _ hps ↦ gapsIn_partsFrom h hps

/-- The gaps of a loop are those of its steps. -/
theorem gapsIn_run {step : σ → List Char → Option (List (Piece κ) × σ)}
    (h : ∀ state s ps next, step state s = some (ps, next) → Piece.GapsIn form ps) (state : σ)
    (s : List Char) : Piece.GapsIn form (run step state s) := by
  refine run_induction (motive := fun _ _ ps ↦ Piece.GapsIn form ps) ?_ ?_ ?_ state s
  · intro _ _ _
    exact Piece.gapsIn_nil
  · intro state s ps next _ hstep _
    exact h state s ps next hstep
  · intro state s ps next _ hstep hrest
    exact Piece.gapsIn_append.2 ⟨h state s ps next hstep, hrest⟩

theorem Construct.GapsIn.repeated {c : Construct κ} (h : c.GapsIn form) (s : List Char) :
    Piece.GapsIn form (c.repeated s) :=
  gapsIn_run (fun _ t ps _ hturn ↦ h t ps (read_of_turn hturn)) () s

end Highlight
