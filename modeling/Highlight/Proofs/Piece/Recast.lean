import Mathlib.Data.List.Forall2
import Highlight.Proofs.Piece.Construct
import Highlight.Proofs.Piece.Labels

/-!
# Readings that differ in their labels

Two ways to read a text may cut it into the same pieces and name some of these differently. Nothing
that is read depends on a label, so such readings go on in step: a loop whose steps differ in labels
only reads pieces that differ in labels only, and the tokens that these leave have the same places.
-/

namespace Highlight

variable {κ σ : Type} {may : List Char → κ → κ → Prop}

/-- The tokens have the same place, and they are of the same kind unless the kinds of their text may
differ. -/
structure Token.Recast (source : List Char) (may : List Char → Kind → Kind → Prop)
    (token other : Token) : Prop where
  begin_eq : token.begin = other.begin
  length_eq : token.length = other.length
  kind : token.kind = other.kind ∨ may (token.text source) token.kind other.kind

namespace Piece

/-- The same piece, or the same text with another label, where the labels of the text may differ. -/
inductive Recast (may : List Char → κ → κ → Prop) : Piece κ → Piece κ → Prop
  | same (piece : Piece κ) : Recast may piece piece
  | other {text : List Char} {label other : κ} : may text label other →
      Recast may (token label text) (token other text)

/-- The same pieces but for labels that may differ. -/
def Recasts (may : List Char → κ → κ → Prop) : List (Piece κ) → List (Piece κ) → Prop :=
  List.Forall₂ (Recast may)

theorem Recast.text_eq {p q : Piece κ} (h : Recast may p q) : p.text = q.text := by
  cases h <;> rfl

theorem Recasts.refl (ps : List (Piece κ)) : Recasts may ps ps :=
  List.forall₂_same.2 fun piece _ ↦ .same piece

theorem Recasts.append {ps qs us vs : List (Piece κ)} (h : Recasts may ps qs)
    (h' : Recasts may us vs) : Recasts may (ps ++ us) (qs ++ vs) :=
  List.rel_append h h'

theorem Recasts.textOf_eq {ps qs : List (Piece κ)} (h : Recasts may ps qs) :
    textOf ps = textOf qs := by
  induction h with
  | nil => rfl
  | cons hpiece _ ih => rw [textOf_cons, textOf_cons, hpiece.text_eq, ih]

theorem Recasts.width_eq {ps qs : List (Piece κ)} (h : Recasts may ps qs) :
    width ps = width qs := by
  rw [← length_textOf, h.textOf_eq, length_textOf]

/-- Pieces that differ in labels leave tokens with the same places, which differ in kind only where
the labels of the text do. -/
theorem Recasts.tokens {may : List Char → Kind → Kind → Prop} {ps qs : List (Piece Kind)}
    (h : Recasts may ps qs) (front rest : List Char) :
    List.Forall₂ (Token.Recast (front ++ (textOf ps ++ rest)) may)
      (tokens (Text.byteLength front) ps) (tokens (Text.byteLength front) qs) := by
  induction h generalizing front with
  | nil => exact .nil
  | @cons piece other ps qs hpiece _ ih =>
    have hind := ih (front ++ piece.text)
    rw [Text.byteLength_append, List.append_assoc, ← List.append_assoc piece.text, ← textOf_cons]
      at hind
    cases hpiece with
    | same =>
      cases piece with
      | gap text => exact hind
      | withdrawn reported => exact hind
      | token kind text =>
        rw [tokens_token, tokens_token]
        refine List.rel_append ?_ hind
        split_ifs
        · exact .nil
        · exact .cons ⟨rfl, rfl, .inl rfl⟩ .nil
    | other hmay =>
      rw [tokens_token, tokens_token]
      refine List.rel_append ?_ hind
      split_ifs
      · exact .nil
      · refine .cons ⟨rfl, rfl, .inr ?_⟩ .nil
        rw [textOf_cons, List.append_assoc, Piece.text, text_token]
        exact hmay

end Piece

open Piece (Recasts width)

/-- The first of several alternatives differs in labels only if each of them does. -/
theorem Construct.recasts_firstOf {s : List Char} {cs ds : List (Construct κ)}
    (h : List.Forall₂ (fun c d ↦ Option.Rel (Recasts may) (c s) (d s) ∧ c.trail s = d.trail s)
      cs ds) :
    Option.Rel (Recasts may) (firstOf cs s) (firstOf ds s) := by
  induction h with
  | nil => exact .none
  | @cons c d cs ds hfirst _ ih =>
    obtain ⟨hread, htrail⟩ := hfirst
    simp only [firstOf, readFirst, htrail] at ih ⊢
    generalize c s = found at hread
    generalize d s = found' at hread
    cases hread with
    | some hpieces => exact .some hpieces
    | none =>
      generalize readFirst cs s = behind at ih
      generalize readFirst ds s = behind' at ih
      cases ih with
      | some hpieces => exact .some ((Recasts.refl _).append hpieces)
      | none => exact .none

/-- The steps find the same but for labels, and hand on the same state. -/
def StepRecasts (may : List Char → κ → κ → Prop) :
    Option (List (Piece κ) × σ) → Option (List (Piece κ) × σ) → Prop :=
  Option.Rel fun found other ↦ Recasts may found.1 other.1 ∧ found.2 = other.2

/-- A loop goes on in step with another one whose steps differ in labels only. -/
theorem recasts_run {step other : σ → List Char → Option (List (Piece κ) × σ)} {s : List Char}
    (hadvances : StepAdvances step)
    (h : ∀ n state, StepRecasts may (step state (s.drop n)) (other state (s.drop n)))
    (state : σ) : Recasts may (run step state s) (run other state s) := by
  refine run_induction (motive := fun state s ps ↦
    (∀ n state, StepRecasts may (step state (s.drop n)) (other state (s.drop n))) →
      Recasts may ps (run other state s)) ?_ ?_ ?_ state s h
  · rintro state s hends h
    cases s with
    | nil =>
      rw [run_nil]
      exact .nil
    | cons c s =>
      have hnone := h 0 state
      rw [List.drop_zero, hends.resolve_left (List.cons_ne_nil c s)] at hnone
      rw [run_cons]
      generalize other state (c :: s) = found at hnone
      cases hnone
      exact .nil
  · intro state s ps next hs hstep hwidth
    exact absurd hwidth (Nat.ne_of_gt (hadvances _ _ _ _ hs hstep))
  · intro state s ps next hs hstep hind h
    have hfirst := h 0 state
    rw [List.drop_zero, hstep] at hfirst
    cases hother : other state s with
    | none =>
      rw [hother] at hfirst
      cases hfirst
    | some found =>
      obtain ⟨qs, next'⟩ := found
      rw [hother] at hfirst
      obtain ⟨hpieces, rfl⟩ : Recasts may ps qs ∧ next = next' := by
        cases hfirst with
        | some hfound => exact hfound
      have hpos := hadvances _ _ _ _ hs hstep
      rw [hpieces.width_eq] at hind hpos ⊢
      rw [run_of_some hother hs (Nat.ne_of_gt hpos)]
      refine hpieces.append (hind fun n state ↦ ?_)
      rw [List.drop_drop]
      exact h _ state

end Highlight
