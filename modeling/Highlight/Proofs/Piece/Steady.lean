import Highlight.Proofs.Piece.Leaving
import Highlight.Proofs.Text.Steady

/-!
# Constructs that look no further

A construct is steady if it gives the same pieces, or is not there, wherever the text is cut off
behind what it covers. Unlike a settled construct it is also missing from every front of a text that
it is missing from; so alternatives of steady constructs are steady, but sequences need not be.
-/

namespace Highlight

open Piece (textOf width)

variable {κ : Type}

namespace Construct

variable {c : Construct κ} {cs : List (Construct κ)} {length : List Char → Nat}

/-- The number of characters that are covered, if anything is found. -/
def foundWidth (found : Option (List (Piece κ))) : Nat := width (found.getD [])

/-- Cut off anywhere behind what the construct covers, a text gives the same pieces. -/
def Steady (c : Construct κ) : Prop := Text.Steady foundWidth c.read

/-- Pieces that a steady length cuts out are steady. -/
theorem steady_of_length (pieces : List Char → List (Piece κ)) (h : Text.Steady id length)
    (hle : ∀ s, length s ≤ s.length) (htext : ∀ s, textOf (pieces s) = s)
    (hread : ∀ s, c s = if length s = 0 then none else some (pieces (s.take (length s)))) :
    c.Steady := by
  have hwidth (s : List Char) : foundWidth (c s) = length s := by
    rw [hread, foundWidth]
    split_ifs with hzero
    · exact hzero.symm
    · rw [Option.getD_some, ← Piece.length_textOf, htext, List.length_take]
      exact Nat.min_eq_left (hle s)
  intro u r hcut
  rw [hwidth] at hcut
  rw [hread, hread, h u r hcut, List.take_append_of_le_length hcut]

theorem steady_measured (label : κ) (h : Text.Steady id length) (hle : ∀ s, length s ≤ s.length) :
    (measured label length).Steady :=
  steady_of_length (fun text ↦ [.token label text]) h hle (fun _ ↦ by simp [Piece.text])
    fun _ ↦ rfl

theorem steady_skipSome (h : Text.Steady id length) (hle : ∀ s, length s ≤ s.length) :
    (skipSome length : Construct κ).Steady :=
  steady_of_length (fun text ↦ [.gap text]) h hle (fun _ ↦ by simp [Piece.text]) fun _ ↦ rfl

/-- Where nothing is withdrawn, alternatives are steady if each of them is. -/
theorem steady_firstOf (h : ∀ c ∈ cs, c.Steady) (htrail : ∀ c ∈ cs, ∀ s, c.trail s = []) :
    (firstOf cs).Steady := by
  induction cs with
  | nil => exact fun _ _ _ ↦ rfl
  | cons c cs ih =>
    rw [List.forall_mem_cons] at h htrail
    have hread (s : List Char) : firstOf (c :: cs) s = (c s).or (firstOf cs s) := by
      simp only [firstOf, readFirst, htrail.1]
      cases c s with
      | none => simp [Piece.withdrawal]
      | some ps => rfl
    intro u r hcut
    rw [hread] at hcut
    rw [hread, hread]
    cases hwhole : c (u ++ r) with
    | some ps =>
      rw [hwhole, Option.some_or] at hcut
      rw [h.1 u r (by rw [hwhole]; exact hcut), hwhole, Option.some_or, Option.some_or]
    | none =>
      rw [hwhole, Option.none_or] at hcut
      rw [h.1 u r (by rw [hwhole]; exact Nat.zero_le _), hwhole, Option.none_or, Option.none_or]
      exact ih h.2 htrail.2 u r hcut

theorem steady_onlyIf (allowed : Bool) (h : c.Steady) : (onlyIf allowed c).Steady := by
  cases allowed with
  | true => exact h
  | false => exact fun _ _ _ ↦ rfl

theorem steady_skip (h : Text.Steady id length) (hle : ∀ s, length s ≤ s.length) :
    (skip length : Construct κ).Steady := by
  have hwidth (s : List Char) : foundWidth ((skip length : Construct κ) s) = length s := by
    simp [foundWidth, skip, Nat.min_eq_left (hle s)]
  intro u r hcut
  rw [hwidth] at hcut
  simp only [skip]
  rw [h u r hcut, List.take_append_of_le_length hcut]

theorem steady_optional (h : c.Steady) (htrail : ∀ s, c.trail s = []) :
    (optional c).Steady := by
  have hread (s : List Char) : optional c s = some ((c s).getD []) := by
    simp [optional, htrail, Piece.withdrawal]
  intro u r hcut
  rw [hread] at hcut
  rw [hread, hread, h u r hcut]

theorem steady_seq_nil : (seq [] : Construct κ).Steady := fun _ _ _ ↦ rfl

/-- A sequence is steady if what follows its first construct is always there. -/
theorem steady_seq_cons (hc : c.Steady) (hcs : (seq cs).Steady)
    (hsome : ∀ s, (seq cs s).isSome) : (seq (c :: cs)).Steady := by
  intro u r hcut
  cases hwhole : c (u ++ r) with
  | none =>
    have hfront := hc u r (by rw [hwhole]; exact Nat.zero_le _)
    rw [(seq_cons_of_none hwhole cs).1, (seq_cons_of_none (hfront.trans hwhole) cs).1]
  | some ps =>
    obtain ⟨qs, hqs⟩ := Option.isSome_iff_exists.1 (hsome ((u ++ r).drop (width ps)))
    rw [seq_cons_eq_some.2 ⟨ps, qs, hwhole, hqs, rfl⟩, foundWidth, Option.getD_some,
      Piece.width_append] at hcut
    have hfits : width ps ≤ u.length := by omega
    have hfront := hc u r (by rw [hwhole]; exact hfits)
    have hrest := hcs (u.drop (width ps)) r (by
      rw [← Text.drop_append hfits, hqs, List.length_drop, foundWidth, Option.getD_some]
      omega)
    rw [← Text.drop_append hfits, hqs] at hrest
    rw [seq_cons_eq_some.2 ⟨ps, qs, hwhole, hqs, rfl⟩,
      seq_cons_eq_some.2 ⟨ps, qs, hfront.trans hwhole, hrest, rfl⟩]

/-- A length is steady if the form of a text alone decides whether the construct that it measures
takes it. -/
theorem Measures.steady {form : List Char → Prop} (hc : c.Measures length)
    (hle : ∀ s, length s ≤ s.length) (h : ∀ {i r}, c.Takes i r ↔ form i) :
    Text.Steady id length := by
  apply Text.steady_of_form form hle
  intro i r hi
  rw [← h, hc.takes_iff hle]
  exact ⟨fun hlength ↦ ⟨hi, hlength⟩, fun htakes ↦ htakes.2⟩

theorem Steady.settled (h : c.Steady) : c.Settled := by
  rintro _ t r ⟨qs, hqs, rfl⟩
  rw [Piece.textOf_lasting, ← List.append_assoc] at hqs
  refine ⟨qs, ?_, rfl⟩
  rw [Piece.textOf_lasting, h _ r, hqs]
  rw [hqs, foundWidth, Option.getD_some, ← Piece.length_textOf, List.length_append]
  exact Nat.le_add_right _ _

/-- Where a steady construct ends to be there, it is not there in any front either. -/
theorem Steady.settled_many (hadvances : c.Advances) (hfits : c.Fits) (h : c.Steady) :
    c.many.Settled := by
  intro ps t r hleaves
  rw [leaves_many_iff hadvances hfits] at hleaves ⊢
  have hends := hleaves.ends
  refine hleaves.cut h.settled ?_
  rw [h t r, hends]
  rw [hends]
  exact Nat.zero_le _

theorem settled_measured_of_kept (label : κ) (h : Text.Kept id length)
    (hle : ∀ s, length s ≤ s.length) : (measured label length).Settled := by
  apply (renders_measured label length).settled
  intro i t r htakes
  rw [(measures_measured label length).takes_iff hle] at htakes ⊢
  obtain ⟨hi, hlength⟩ := htakes
  rw [← List.append_assoc] at hlength
  have hne : length (i ++ t ++ r) ≠ 0 := by
    rw [hlength]
    exact List.length_eq_zero_iff.not.2 hi
  have hfits : length (i ++ t ++ r) ≤ (i ++ t).length := by
    rw [hlength, List.length_append]
    exact Nat.le_add_right _ _
  exact ⟨hi, (h (i ++ t) r hne hfits).trans hlength⟩

end Construct

/-- The number of characters that a literal goes on by, where it goes on. -/
def Turn.size : Turn κ → Nat
  | .plain => 1
  | .aside pieces => width pieces
  | .close closing => closing
  | .wrong | .spoiled => 0

/-- What a literal finds is decided by as much as it goes on by. Nothing spoils the literal, and the
end of the text ends it. -/
structure Turn.Steady (turn : List Char → Turn κ) : Prop where
  looks : Text.Steady Turn.size turn
  fits : Turn.Fits turn
  advances : Turn.Advances turn
  ends : turn [] = .close 0
  goes : ∀ s, turn s ≠ .wrong ∧ turn s ≠ .spoiled
  close : ∀ s n, turn s = .close n → n ≤ s.length

section

variable {label : κ} {turn : List Char → Turn κ} {part s : List Char}

theorem partsFrom_close {closing : Nat} (h : turn s = .close closing) :
    partsFrom label turn [] part s =
      some (Piece.shown label (part.reverse ++ s.take closing)) := by
  cases s with
  | nil => simp [partsFrom, h]
  | cons c s => simp [partsFrom, h]

theorem partsFrom_plain {c : Char} (h : turn (c :: s) = .plain) :
    partsFrom label turn [] part (c :: s) = partsFrom label turn [] (c :: part) s := by
  rw [partsFrom, h]

theorem partsFrom_aside {pieces : List (Piece κ)} (h : turn s = .aside pieces)
    (hpos : 0 < width pieces) (hs : s ≠ []) :
    partsFrom label turn [] part s = (partsFrom label turn [] [] (s.drop (width pieces))).map
      (Piece.shown label part.reverse ++ pieces ++ ·) := by
  obtain ⟨c, t, rfl⟩ := List.exists_cons_of_ne_nil hs
  rw [partsFrom, h]
  simp only [Nat.ne_of_gt hpos, if_false]
  rw [partsFrom_eq]
  simp [Piece.reverse_shown]

/-- Once it is opened, a literal is there, if nothing spoils it and the end of the text ends it. -/
theorem isSome_partsFrom (hadvances : Turn.Advances turn) (hends : turn [] = .close 0)
    (hgoes : ∀ s, turn s ≠ .wrong ∧ turn s ≠ .spoiled) (label : κ) (part s : List Char) :
    (partsFrom label turn [] part s).isSome := by
  induction hn : s.length using Nat.strongRecOn generalizing part s with
  | ind n ih =>
    cases s with
    | nil =>
      rw [partsFrom_close hends]
      rfl
    | cons c s =>
      cases hfound : turn (c :: s) with
      | plain =>
        rw [partsFrom_plain hfound]
        exact ih _ (by simp [← hn]) _ s rfl
      | close closing =>
        rw [partsFrom_close hfound]
        rfl
      | aside pieces =>
        have hpos := hadvances _ _ hfound
        rw [partsFrom_aside hfound hpos (List.cons_ne_nil c s), Option.isSome_map]
        refine ih _ ?_ [] _ rfl
        rw [← hn, List.length_drop, List.length_cons]
        omega
      | wrong => exact absurd hfound (hgoes _).1
      | spoiled => exact absurd hfound (hgoes _).2

namespace Turn.Steady

variable (hturn : Turn.Steady turn)

include hturn

theorem isSome_partsFrom (label : κ) (part s : List Char) :
    (partsFrom label turn [] part s).isSome :=
  Highlight.isSome_partsFrom hturn.advances hturn.ends hturn.goes label part s

/-- A literal is read alike where the text is cut off behind it. -/
theorem partsFrom_of_append {u r : List Char} {ps : List (Piece κ)}
    (h : partsFrom label turn [] part (u ++ r) = some ps)
    (hle : width ps ≤ part.length + u.length) : partsFrom label turn [] part u = some ps := by
  generalize hs : u ++ r = s at h
  refine (partsFrom_induction (motive := fun part s ps ↦ part.length ≤ width ps ∧ ∀ u, u ++ r = s →
    width ps ≤ part.length + u.length → partsFrom label turn [] part u = some ps)
    ?_ ?_ ?_ h).2 u hs hle
  · intro part s n hclosing
    rw [Piece.width_shown, List.length_append, List.length_reverse, List.length_take]
    refine ⟨Nat.le_add_right _ _, ?_⟩
    rintro u rfl hle
    have hlong := hturn.close _ n hclosing
    have hn : n ≤ u.length := by omega
    have hsame := hturn.looks u r (by rw [hclosing]; exact hn)
    rw [partsFrom_close (hsame.trans hclosing), List.take_append_of_le_length hn]
  · intro part c s ps hplain hind
    rw [List.length_cons] at hind
    refine ⟨Nat.le_of_succ_le hind.1, ?_⟩
    intro u hu hle
    cases u with
    | nil =>
      rw [List.length_nil] at hle
      omega
    | cons d u =>
      obtain ⟨rfl, hrest⟩ := List.cons.inj hu
      rw [← hu] at hplain
      have hsame := hturn.looks (d :: u) r (by
        rw [hplain, List.length_cons]
        exact Nat.succ_pos _)
      rw [partsFrom_plain (hsame.trans hplain)]
      apply hind.2 u hrest
      rw [List.length_cons] at hle
      omega
  · intro part s pieces ps haside hind
    have hpos := hturn.advances s pieces haside
    rw [Piece.width_append, Piece.width_append, Piece.width_shown, List.length_reverse]
    refine ⟨Nat.le_add_right _ _, ?_⟩
    rintro u rfl hle
    have hfits : width pieces ≤ u.length := by omega
    have hsame := hturn.looks u r (by rw [haside]; exact hfits)
    have hrest := hind.2 (u.drop (width pieces)) (Text.drop_append hfits r).symm (by
      rw [List.length_nil, List.length_drop]
      omega)
    rw [partsFrom_aside (hsame.trans haside) hpos (List.ne_nil_of_length_pos (hpos.trans_le hfits)),
      hrest, Option.map_some, List.append_assoc]

/-- Where the text is cut off behind a literal that is opened, the literal is the same. -/
theorem parts_of_append {opening : Nat} {u r : List Char} (hopening : opening ≤ u.length)
    (hle : Construct.foundWidth (Construct.parts label opening turn (u ++ r)) ≤ u.length) :
    Construct.parts label opening turn u = Construct.parts label opening turn (u ++ r) := by
  obtain ⟨ps, hps⟩ := Option.isSome_iff_exists.1 (hturn.isSome_partsFrom label
    ((u ++ r).take opening).reverse ((u ++ r).drop opening))
  have hread : Construct.parts label opening turn (u ++ r) = some ps := hps
  rw [hread, Construct.foundWidth, Option.getD_some] at hle
  rw [List.take_append_of_le_length hopening, Text.drop_append hopening] at hps
  rw [hread]
  apply hturn.partsFrom_of_append hps
  rw [List.length_reverse, List.length_take, List.length_drop]
  omega

end Turn.Steady

end

end Highlight
