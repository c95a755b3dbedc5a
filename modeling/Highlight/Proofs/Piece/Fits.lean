import Mathlib.Data.List.Infix
import Highlight.Piece.Literal

/-!
# Pieces that fit a text

Pieces fit a text if each of them stands where the ones before it end. What they cover is then a
front part of the text, and what was withdrawn stood at the place where it was reported. Pieces that
fit a text and are as wide as it is cover all of it.
-/

namespace Highlight.Piece

variable {κ μ : Type}

mutual

/-- The piece stands at the front of the text, or what was withdrawn did so. -/
def Stands (piece : Piece κ) (s : List Char) : Prop :=
  match piece with
  | gap text => text <+: s
  | token _ text => text <+: s
  | withdrawn reported => Fits reported s

/-- The pieces stand one behind the other from the front of the text on. -/
def Fits (pieces : List (Piece κ)) (s : List Char) : Prop :=
  match pieces with
  | [] => True
  | piece :: pieces => piece.Stands s ∧ Fits pieces (s.drop piece.text.length)

end

/-- The pieces fit the text and leave nothing of it. -/
def Covers (pieces : List (Piece κ)) (s : List Char) : Prop :=
  Fits pieces s ∧ width pieces = s.length

@[simp]
theorem width_cons (piece : Piece κ) (pieces : List (Piece κ)) :
    width (piece :: pieces) = piece.text.length + width pieces := by
  simp [width]

@[simp]
theorem width_shown (label : κ) (text : List Char) : width (shown label text) = text.length := by
  rw [← length_textOf, textOf_shown]

@[simp]
theorem width_hidden (text : List Char) :
    width (hidden text : List (Piece κ)) = text.length := by
  rw [← length_textOf, textOf_hidden]

@[simp]
theorem width_framed (frame inner : κ) (opening closing : Nat) (text : List Char) :
    width (framed frame inner opening closing text) = text.length := by
  rw [← length_textOf, textOf_framed]

@[simp]
theorem stands_gap (text s : List Char) : (gap text : Piece κ).Stands s ↔ text <+: s := by
  rw [Stands]

@[simp]
theorem stands_token (label : κ) (text s : List Char) :
    (token label text).Stands s ↔ text <+: s := by
  rw [Stands]

@[simp]
theorem stands_withdrawn (reported : List (Piece κ)) (s : List Char) :
    (withdrawn reported).Stands s ↔ Fits reported s := by
  rw [Stands]

@[simp]
theorem fits_nil (s : List Char) : Fits ([] : List (Piece κ)) s := by
  rw [Fits]
  trivial

@[simp]
theorem fits_cons (piece : Piece κ) (pieces : List (Piece κ)) (s : List Char) :
    Fits (piece :: pieces) s ↔ piece.Stands s ∧ Fits pieces (s.drop piece.text.length) := by
  rw [Fits]

@[simp]
theorem fits_token (label : κ) (text s : List Char) : Fits [token label text] s ↔ text <+: s := by
  simp

@[simp]
theorem fits_gap (text s : List Char) : Fits [(gap text : Piece κ)] s ↔ text <+: s := by
  simp

@[simp]
theorem fits_append (ps qs : List (Piece κ)) (s : List Char) :
    Fits (ps ++ qs) s ↔ Fits ps s ∧ Fits qs (s.drop (width ps)) := by
  induction ps generalizing s with
  | nil => simp
  | cons piece ps ih =>
    simp only [List.cons_append, fits_cons, ih, width_cons, List.drop_drop, and_assoc]

@[simp]
theorem fits_shown (label : κ) (text s : List Char) : Fits (shown label text) s ↔ text <+: s := by
  cases text <;> simp [shown]

@[simp]
theorem fits_hidden (text s : List Char) :
    Fits (hidden text : List (Piece κ)) s ↔ text <+: s := by
  cases text <;> simp [hidden]

theorem Stands.text_front {piece : Piece κ} {s : List Char} (h : piece.Stands s) :
    piece.text <+: s := by
  cases piece with
  | gap text => exact (stands_gap _ _).1 h
  | token label text => exact (stands_token _ _ _).1 h
  | withdrawn reported => exact List.nil_prefix

/-- Pieces that fit a text cover a front part of it. -/
theorem Fits.textOf_front {ps : List (Piece κ)} {s : List Char} (h : Fits ps s) :
    textOf ps <+: s := by
  induction ps generalizing s with
  | nil => simp
  | cons piece ps ih =>
    obtain ⟨hstands, hrest⟩ := (fits_cons _ _ _).1 h
    obtain ⟨rest, hs⟩ := ih hrest
    refine ⟨rest, ?_⟩
    calc
      _ = piece.text ++ (textOf ps ++ rest) := by rw [textOf_cons, List.append_assoc]
      _ = piece.text ++ s.drop piece.text.length := by rw [hs]
      _ = s := List.prefix_iff_eq_append.1 hstands.text_front

/-- Where nothing was withdrawn, to fit is to cover a front part. -/
theorem fits_of_textOf_front {ps : List (Piece κ)} {s : List Char}
    (hvisible : ∀ piece ∈ ps, ∀ t, piece.Stands t ↔ piece.text <+: t) (h : textOf ps <+: s) :
    Fits ps s := by
  induction ps generalizing s with
  | nil => simp
  | cons piece ps ih =>
    obtain ⟨rest, hs⟩ := h
    rw [textOf_cons, List.append_assoc] at hs
    rw [fits_cons]
    constructor
    · rw [hvisible piece List.mem_cons_self]
      exact ⟨textOf ps ++ rest, hs⟩
    · apply ih fun p hp ↦ hvisible p (List.mem_cons_of_mem _ hp)
      rw [← hs, List.drop_left]
      exact List.prefix_append _ _

theorem stands_of_mem_shown {label : κ} {text : List Char} :
    ∀ piece ∈ shown label text, ∀ t, piece.Stands t ↔ piece.text <+: t := by
  cases text <;> simp [shown, Piece.text]

theorem fits_framed {frame inner : κ} {opening closing : Nat} {text s : List Char}
    (h : text <+: s) : Fits (framed frame inner opening closing text) s := by
  apply fits_of_textOf_front
  · simp only [framed, List.mem_append]
    rintro piece ((hp | hp) | hp) <;> exact stands_of_mem_shown piece hp
  · rwa [textOf_framed]

mutual

theorem Stands.mono {piece : Piece κ} {s t : List Char} (h : piece.Stands s) (hst : s <+: t) :
    piece.Stands t := by
  match piece with
  | gap text =>
    rw [stands_gap] at h ⊢
    exact h.trans hst
  | token label text =>
    rw [stands_token] at h ⊢
    exact h.trans hst
  | withdrawn reported =>
    rw [stands_withdrawn] at h ⊢
    exact Fits.mono h hst

theorem Fits.mono {ps : List (Piece κ)} {s t : List Char} (h : Fits ps s) (hst : s <+: t) :
    Fits ps t := by
  match ps with
  | [] => exact fits_nil t
  | piece :: ps =>
    rw [fits_cons] at h ⊢
    exact ⟨Stands.mono h.1 hst, Fits.mono h.2 (hst.drop _)⟩

end

theorem Fits.width_le {ps : List (Piece κ)} {s : List Char} (h : Fits ps s) :
    width ps ≤ s.length := by
  rw [← length_textOf]
  exact h.textOf_front.length_le

theorem Fits.textOf_eq_take {ps : List (Piece κ)} {s : List Char} (h : Fits ps s) :
    textOf ps = s.take (width ps) := by
  rw [← length_textOf]
  exact List.prefix_iff_eq_take.1 h.textOf_front

theorem Fits.textOf_append_drop {ps : List (Piece κ)} {s : List Char} (h : Fits ps s) :
    textOf ps ++ s.drop (width ps) = s := by
  rw [h.textOf_eq_take, List.take_append_drop]

theorem width_single_pos {piece : Piece κ} (h : piece.text ≠ []) : 0 < width [piece] := by
  rw [width_cons]
  exact Nat.add_pos_left (List.length_pos_iff.2 h) _

/-- A piece of a text covers something unless its length is 0 or the text is empty. -/
theorem width_take_pos {piece : Piece κ} {n : Nat} {s : List Char} (htext : piece.text = s.take n)
    (hn : n ≠ 0) (hs : s ≠ []) : 0 < width [piece] := by
  apply width_single_pos
  rw [htext, ne_eq, List.take_eq_nil_iff, not_or]
  exact ⟨hn, hs⟩

/-- Less is left behind pieces that cover something. -/
theorem length_drop_width_lt {ps : List (Piece κ)} (h : width ps ≠ 0) (c : Char) (s : List Char) :
    ((c :: s).drop (width ps)).length < (c :: s).length := by
  rw [List.length_drop, List.length_cons]
  omega

theorem Covers.textOf_eq {ps : List (Piece κ)} {s : List Char} (h : Covers ps s) :
    textOf ps = s := by
  rw [h.1.textOf_eq_take, h.2, List.take_length]

theorem Covers.append {ps qs : List (Piece κ)} {s t : List Char} (hp : Covers ps s)
    (hq : Covers qs t) : Covers (ps ++ qs) (s ++ t) := by
  have hdrop : (s ++ t).drop (width ps) = t := by rw [hp.2, List.drop_left]
  constructor
  · rw [fits_append, hdrop]
    exact ⟨hp.1.mono (List.prefix_append _ _), hq.1⟩
  · calc
      _ = width ps + width qs := width_append ps qs
      _ = s.length + t.length := by rw [hp.2, hq.2]
      _ = (s ++ t).length := List.length_append.symm

/-- Pieces of a front part may be followed by pieces that fit the rest. -/
theorem Covers.append_fits {n : Nat} {ps qs : List (Piece κ)} {s : List Char}
    (hp : Covers ps (s.take n)) (hq : Fits qs (s.drop n)) : Fits (ps ++ qs) s := by
  have hdrop : s.drop (s.take n).length = s.drop n := by
    rw [List.length_take]
    rcases Nat.le_total n s.length with hn | hn
    · rw [Nat.min_eq_left hn]
    · rw [Nat.min_eq_right hn, List.drop_length, List.drop_eq_nil_of_le hn]
  rw [fits_append, hp.2, hdrop]
  exact ⟨hp.1.mono (List.take_prefix _ _), hq⟩

theorem Covers.append_drop {n : Nat} {ps qs : List (Piece κ)} {s : List Char}
    (hp : Covers ps (s.take n)) (hq : Covers qs (s.drop n)) : Covers (ps ++ qs) s := by
  have hboth := hp.append hq
  rwa [List.take_append_drop] at hboth

@[simp]
theorem covers_nil : Covers ([] : List (Piece κ)) [] := ⟨fits_nil _, rfl⟩

theorem mem_shown {label : κ} {text : List Char} (htext : text ≠ []) :
    token label text ∈ shown label text := by
  rw [shown, if_neg (List.isEmpty_iff.not.2 htext)]
  exact List.mem_singleton_self _

theorem eq_of_mem_shown {label : κ} {text : List Char} {piece : Piece κ}
    (h : piece ∈ shown label text) : piece = token label text := by
  rw [shown] at h
  split_ifs at h
  · simp at h
  · exact List.mem_singleton.1 h

@[simp]
theorem covers_shown (label : κ) (text : List Char) : Covers (shown label text) text := by
  simp [Covers]

@[simp]
theorem covers_hidden (text : List Char) : Covers (hidden text : List (Piece κ)) text := by
  simp [Covers]

@[simp]
theorem covers_framed (frame inner : κ) (opening closing : Nat) (text : List Char) :
    Covers (framed frame inner opening closing text) text :=
  ⟨fits_framed List.prefix_rfl, width_framed ..⟩

@[simp]
theorem covers_token (label : κ) (text : List Char) : Covers [token label text] text := by
  simp [Covers, Piece.text]

@[simp]
theorem reverse_shown (label : κ) (text : List Char) :
    (shown label text).reverse = shown label text := by
  cases text <;> rfl

@[simp]
theorem covers_gap (text : List Char) : Covers [(gap text : Piece κ)] text := by
  simp [Covers, Piece.text]

/-- What is withdrawn covers nothing, and it fits where it was reported. -/
@[simp]
theorem width_withdrawal (reported : List (Piece κ)) : width (withdrawal reported) = 0 := by
  unfold withdrawal
  split <;> rfl

@[simp]
theorem textOf_withdrawal (reported : List (Piece κ)) : textOf (withdrawal reported) = [] := by
  rw [← List.length_eq_zero_iff, length_textOf, width_withdrawal]

theorem fits_withdrawal {reported : List (Piece κ)} {s : List Char} (h : Fits reported s) :
    Fits (withdrawal reported) s := by
  unfold withdrawal
  split
  · exact fits_nil s
  · simpa using h

/-- Pieces may be replaced by others that cover the same texts. -/
theorem Fits.flatMap {render : Piece κ → List (Piece μ)} {ps : List (Piece κ)} {s : List Char}
    (hcovers : ∀ piece ∈ ps, Covers (render piece) piece.text) (h : Fits ps s) :
    Fits (ps.flatMap render) s ∧ width (ps.flatMap render) = width ps := by
  induction ps generalizing s with
  | nil => simp
  | cons piece ps ih =>
    obtain ⟨hfits, hwidth⟩ := hcovers piece List.mem_cons_self
    obtain ⟨hstands, hfitsRest⟩ := (fits_cons _ _ _).1 h
    obtain ⟨hrest, hrestWidth⟩ := ih (fun p hp ↦ hcovers p (List.mem_cons_of_mem _ hp)) hfitsRest
    rw [List.flatMap_cons, fits_append, width_append, width_cons, hwidth, hrestWidth]
    exact ⟨⟨hfits.mono hstands.text_front, hrest⟩, rfl⟩

end Highlight.Piece
