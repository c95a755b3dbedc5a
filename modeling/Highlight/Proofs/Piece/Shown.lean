import Highlight.Proofs.Piece.Labels

/-!
# What constructs show

What is said of the labelled texts of pieces, in their order, and holds of two lists joined where it
holds of both, passes from the parts of a construct to the whole. What was withdrawn shows nothing,
so a construct that fails on its way leaves no trace in that.
-/

namespace Highlight

variable {σ : Type}

/-- A labelled text, as it is shown. -/
abbrev Entry := Kind × List Char

/-- What holds of nothing, and of two lists joined where it holds of both. -/
structure Composes (form : List Entry → Prop) : Prop where
  nil : form []
  append : ∀ {es fs : List Entry}, form es → form fs → form (es ++ fs)

/-- What holds of every entry composes. -/
theorem composes_forall (form : Entry → Prop) : Composes fun es ↦ ∀ entry ∈ es, form entry where
  nil := List.forall_mem_nil _
  append hes hfs := List.forall_mem_append.2 ⟨hes, hfs⟩

theorem composes_nil : Composes (· = []) where
  nil := rfl
  append := by
    rintro _ _ rfl rfl
    rfl

/-- A list put together from parts of the form. -/
def MadeOf (part : List Entry → Prop) (es : List Entry) : Prop :=
  ∃ parts : List (List Entry), (∀ fs ∈ parts, part fs) ∧ parts.flatten = es

theorem composes_madeOf (part : List Entry → Prop) : Composes (MadeOf part) where
  nil := ⟨[], List.forall_mem_nil _, rfl⟩
  append := by
    rintro _ _ ⟨parts, hparts, rfl⟩ ⟨others, hothers, rfl⟩
    exact ⟨parts ++ others, List.forall_mem_append.2 ⟨hparts, hothers⟩, List.flatten_append⟩

theorem MadeOf.single {part : List Entry → Prop} {es : List Entry} (h : part es) : MadeOf part es :=
  ⟨[es], List.forall_mem_singleton.2 h, List.flatten_singleton⟩

/-- Every entry stands in one of the parts. -/
theorem MadeOf.exists_part {part : List Entry → Prop} {before after : List Entry} {entry : Entry}
    (h : MadeOf part (before ++ entry :: after)) :
    ∃ front start stop rest, before = front ++ start ∧ after = stop ++ rest ∧
      part (start ++ entry :: stop) := by
  obtain ⟨parts, hparts, hjoined⟩ := h
  rcases List.flatten_eq_append_iff.1 hjoined with
    ⟨parts, others, rfl, rfl, hafter⟩ | ⟨parts, start, e, stop, others, rfl, rfl, hafter⟩
  · obtain ⟨empties, stop, others, rfl, -, rfl⟩ := List.flatten_eq_cons_iff.1 hafter.symm
    exact ⟨_, [], stop, _, (List.append_nil _).symm, rfl, hparts _ (by simp)⟩
  · obtain ⟨rfl, rfl⟩ := List.cons.inj hafter
    exact ⟨_, start, stop, _, rfl, rfl, hparts _ (by simp)⟩

namespace Piece

@[simp]
theorem labelled_append (ps qs : List (Piece Kind)) :
    labelled (ps ++ qs) = labelled ps ++ labelled qs :=
  List.flatMap_append

@[simp]
theorem labelled_withdrawal (reported : List (Piece Kind)) :
    labelled (withdrawal reported) = [] := by
  unfold withdrawal
  split <;> rfl

@[simp]
theorem labelled_hidden (text : List Char) : labelled (hidden text) = [] := by
  unfold hidden
  split <;> rfl

theorem labelled_single {kind : Kind} {text : List Char} (h : text ≠ []) :
    labelled [token kind text] = [(kind, text)] := by
  rw [labelled_token, if_neg h]
  rfl

/-- A stretch that is shown is one entry, unless it is empty. -/
theorem labelled_shown (kind : Kind) (text : List Char) :
    labelled (shown kind text) = if text = [] then [] else [(kind, text)] := by
  cases text <;> rfl

end Piece

open Piece (labelled)

variable {form : List Entry → Prop}

theorem Composes.labelled_token (hform : Composes form) {kind : Kind} {text : List Char}
    (h : form [(kind, text)]) : form (labelled [.token kind text]) := by
  rw [Piece.labelled_token]
  split_ifs
  · exact hform.nil
  · exact h

theorem Composes.labelled_shown (hform : Composes form) {kind : Kind} {text : List Char}
    (h : form [(kind, text)]) : form (labelled (Piece.shown kind text)) := by
  rw [Piece.labelled_shown]
  split_ifs
  · exact hform.nil
  · exact h

theorem Composes.labelled_framed (hform : Composes form) {frame inner : Kind}
    (hframe : ∀ text, form [(frame, text)]) (hinner : ∀ text, form [(inner, text)])
    (opening closing : Nat) (text : List Char) :
    form (labelled (Piece.framed frame inner opening closing text)) := by
  rw [Piece.framed, Piece.labelled_append, Piece.labelled_append]
  exact hform.append (hform.append (hform.labelled_shown (hframe _))
    (hform.labelled_shown (hinner _))) (hform.labelled_shown (hframe _))

namespace Construct

/-- Wherever the construct is there, what it shows is of the form. -/
def Shows (form : List Entry → Prop) (c : Construct Kind) : Prop :=
  ∀ s ps, c s = some ps → form (labelled ps)

section

variable (hform : Composes form)

include hform

theorem shows_measured {label : Kind} (h : ∀ text, form [(label, text)])
    (length : List Char → Nat) : (measured label length).Shows form := by
  intro s ps hps
  obtain ⟨-, rfl⟩ := measured_eq_some.1 hps
  exact hform.labelled_token (h _)

theorem shows_literal {label : Kind} {lit : String} (h : form [(label, lit.toList)]) :
    (literal label lit).Shows form := by
  intro s ps hps
  obtain ⟨-, rfl⟩ := literal_eq_some.1 hps
  exact hform.labelled_token h

theorem shows_skip (length : List Char → Nat) : (skip length).Shows form := by
  intro s ps hps
  obtain rfl := Option.some.inj hps
  rw [Piece.labelled_hidden]
  exact hform.nil

theorem shows_skipSome (length : List Char → Nat) : (skipSome length).Shows form := by
  intro s ps hps
  obtain ⟨-, rfl⟩ := skipSome_eq_some.1 hps
  exact hform.nil

theorem shows_skipLiteral (lit : String) : (skipLiteral lit).Shows form := by
  intro s ps hps
  obtain ⟨-, rfl⟩ := skipLiteral_eq_some.1 hps
  exact hform.nil

theorem shows_seq {cs : List (Construct Kind)} (h : ∀ c ∈ cs, c.Shows form) :
    (seq cs).Shows form := by
  induction cs with
  | nil =>
    intro s ps hps
    obtain rfl := seq_nil_eq_some.1 hps
    exact hform.nil
  | cons c cs ih =>
    intro s ps hps
    obtain ⟨qs, rs, hqs, hrs, rfl⟩ := seq_cons_eq_some.1 hps
    rw [List.forall_mem_cons] at h
    rw [Piece.labelled_append]
    exact hform.append (h.1 s qs hqs) (ih h.2 _ rs hrs)

theorem shows_optional {c : Construct Kind} (h : c.Shows form) : (optional c).Shows form := by
  intro s ps hps
  obtain rfl := Option.some.inj hps
  cases hc : c s with
  | none =>
    rw [Option.getD_none, Piece.labelled_withdrawal]
    exact hform.nil
  | some qs => exact h s qs hc

theorem shows_ifNext {lit : String} {c : Construct Kind} (h : c.Shows form) :
    (ifNext lit c).Shows form := by
  intro s ps hps
  change (if Text.startsWith lit s then c else seq []) s = some ps at hps
  split_ifs at hps
  · exact h s ps hps
  · exact shows_seq hform (List.forall_mem_nil _) s ps hps

end

theorem shows_firstOf {cs : List (Construct Kind)} (h : ∀ c ∈ cs, c.Shows form) :
    (firstOf cs).Shows form := by
  induction cs with
  | nil =>
    intro s ps hps
    simp [firstOf, readFirst] at hps
  | cons c cs ih =>
    intro s ps hps
    rw [List.forall_mem_cons] at h
    rcases firstOf_cons_eq_some.1 hps with hc | ⟨-, qs, hqs, rfl⟩
    · exact h.1 s ps hc
    · rw [Piece.labelled_append, Piece.labelled_withdrawal, List.nil_append]
      exact ih h.2 s qs hqs

theorem Shows.mono {other : List Entry → Prop} {c : Construct Kind} (h : c.Shows form)
    (himp : ∀ es, form es → other es) : c.Shows other :=
  fun s ps hps ↦ himp _ (h s ps hps)

/-- A sequence shows what its first construct does and then what the others do. -/
theorem shows_seq_cons {first : List Entry → Prop} {c : Construct Kind}
    {cs : List (Construct Kind)} (hc : c.Shows first)
    (hcs : ∀ fs, first fs → (seq cs).Shows fun es ↦ form (fs ++ es)) :
    (seq (c :: cs)).Shows form := by
  intro s ps hps
  obtain ⟨qs, rs, hqs, hrs, rfl⟩ := seq_cons_eq_some.1 hps
  rw [Piece.labelled_append]
  exact hcs _ (hc s qs hqs) _ rs hrs

theorem shows_seq_nil (h : form []) : (seq []).Shows form := by
  intro s ps hps
  obtain rfl := seq_nil_eq_some.1 hps
  exact h

theorem shows_seq_literal {label : Kind} {lit : String} {cs : List (Construct Kind)}
    (hlit : lit.toList ≠ []) (h : (seq cs).Shows fun es ↦ form ((label, lit.toList) :: es)) :
    (seq (literal label lit :: cs)).Shows form := by
  have hfirst : (literal label lit).Shows (· = [(label, lit.toList)]) := by
    intro s ps hps
    obtain ⟨-, rfl⟩ := literal_eq_some.1 hps
    exact Piece.labelled_single hlit
  refine shows_seq_cons hfirst ?_
  rintro _ rfl
  exact h

theorem shows_seq_measured {label : Kind} {length : List Char → Nat} {cs : List (Construct Kind)}
    (h0 : length [] = 0) (h : ∀ text, (seq cs).Shows fun es ↦ form ((label, text) :: es)) :
    (seq (measured label length :: cs)).Shows form := by
  have hfirst : (measured label length).Shows fun es ↦ ∃ text, es = [(label, text)] := by
    intro s ps hps
    obtain ⟨hn, rfl⟩ := measured_eq_some.1 hps
    have hs : s ≠ [] := fun hs ↦ hn (hs ▸ h0)
    exact ⟨_, Piece.labelled_single fun hempty ↦ (List.take_eq_nil_iff.1 hempty).elim hn hs⟩
  refine shows_seq_cons hfirst ?_
  rintro _ ⟨text, rfl⟩
  exact h text

theorem shows_seq_singleton {c : Construct Kind} (h : c.Shows form) : (seq [c]).Shows form := by
  refine shows_seq_cons h fun fs hfs ↦ shows_seq_nil ?_
  rwa [List.append_nil]

/-- What shows nothing does not count in a sequence. -/
theorem shows_seq_silent {c : Construct Kind} {cs : List (Construct Kind)}
    (hc : c.Shows (· = [])) (h : (seq cs).Shows form) : (seq (c :: cs)).Shows form := by
  refine shows_seq_cons hc ?_
  rintro _ rfl
  exact h

theorem shows_choose {construct : List Char → Construct Kind}
    (h : ∀ s, (construct s).Shows form) : (choose construct).Shows form :=
  fun s ↦ h s s

theorem shows_onlyIf {allowed : Bool} {c : Construct Kind} (h : c.Shows form) :
    (onlyIf allowed c).Shows form :=
  fun s ps hps ↦ h s ps (onlyIf_eq_some.1 hps).2

end Construct

/-- What a loop shows is what its steps show. -/
theorem shows_run (hform : Composes form) {step : σ → List Char → Option (List (Piece Kind) × σ)}
    (h : ∀ state s ps next, step state s = some (ps, next) → form (labelled ps)) (state : σ)
    (s : List Char) : form (labelled (run step state s)) := by
  refine run_induction (motive := fun _ _ ps ↦ form (labelled ps)) ?_ ?_ ?_ state s
  · intro _ _ _
    exact hform.nil
  · intro state s ps next _ hstep _
    exact h state s ps next hstep
  · intro state s ps next _ hstep hrest
    rw [Piece.labelled_append]
    exact hform.append (h state s ps next hstep) hrest

namespace Construct

variable {c : Construct Kind}

theorem Shows.repeated (hform : Composes form) (h : c.Shows form) (s : List Char) :
    form (labelled (c.repeated s)) :=
  shows_run hform (fun _ t ps _ hturn ↦ h t ps (read_of_turn hturn)) () s

theorem shows_many (hform : Composes form) (h : c.Shows form) : c.many.Shows form := by
  intro s ps hps
  obtain rfl := Option.some.inj hps
  rw [Piece.labelled_append, Piece.labelled_withdrawal, List.append_nil]
  exact h.repeated hform s

/-- A literal shows its own stretches and what it finds set in. -/
theorem shows_parts (hform : Composes form) {label : Kind} (hlabel : ∀ text, form [(label, text)])
    {turn : List Char → Turn Kind} (h : ∀ s ps, turn s = .aside ps → form (labelled ps))
    (opening : Nat) : (parts label opening turn).Shows form := by
  intro s ps hps
  refine partsFrom_induction (motive := fun _ _ ps ↦ form (labelled ps)) ?_ ?_ ?_ hps
  · intro _ _ _ _
    exact hform.labelled_shown (hlabel _)
  · intro _ _ _ _ _ hinside
    exact hinside
  · intro _ s pieces ps hturn hinside
    rw [Piece.labelled_append, Piece.labelled_append]
    exact hform.append (hform.labelled_shown (hlabel _)) (hform.append (h s pieces hturn) hinside)

end Construct

end Highlight
