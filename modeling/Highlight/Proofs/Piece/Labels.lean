import Highlight.Proofs.Piece.Gaps
import Highlight.Proofs.Piece.Layout
import Highlight.Proofs.Text.Bytes

/-!
# Labels and their tokens

What the tokens of pieces show of the source is, in order, what the pieces are labelled with. Where
nothing is passed over, the tokens stand end to end.
-/

namespace Highlight

/-- The tokens stand end to end from one byte to the other. -/
def Tiles (stop : Nat) : (begin : Nat) → List Token → Prop
  | begin, [] => begin = stop
  | begin, token :: tokens => token.begin = begin ∧ Tiles stop token.stop tokens

theorem Tiles.stop_le {begin stop : Nat} {tokens : List Token} (h : Tiles stop begin tokens) :
    begin ≤ stop ∧ ∀ token ∈ tokens, token.stop ≤ stop := by
  induction tokens generalizing begin with
  | nil => exact ⟨Nat.le_of_eq h, List.forall_mem_nil _⟩
  | cons token tokens ih =>
    obtain ⟨rfl, hrest⟩ := h
    obtain ⟨hle, hlater⟩ := ih hrest
    exact ⟨Nat.le_trans (Nat.le_add_right _ _) hle, List.forall_mem_cons.2 ⟨hle, hlater⟩⟩

namespace Piece

/-- What the pieces show: their labelled texts, unless these are empty. -/
def labelled (pieces : List (Piece Kind)) : List (Kind × List Char) :=
  pieces.flatMap fun
    | token kind text => if text = [] then [] else [(kind, text)]
    | gap _ | withdrawn _ => []

@[simp]
theorem labelled_nil : labelled [] = [] := rfl

@[simp]
theorem labelled_gap (text : List Char) (ps : List (Piece Kind)) :
    labelled (gap text :: ps) = labelled ps := rfl

@[simp]
theorem labelled_withdrawn (reported ps : List (Piece Kind)) :
    labelled (withdrawn reported :: ps) = labelled ps := rfl

theorem labelled_token (kind : Kind) (text : List Char) (ps : List (Piece Kind)) :
    labelled (token kind text :: ps) =
      (if text = [] then [] else [(kind, text)]) ++ labelled ps := rfl

/-- What is shown are the tokens that have a text. -/
theorem mem_labelled {kind : Kind} {text : List Char} {ps : List (Piece Kind)} :
    (kind, text) ∈ labelled ps ↔ token kind text ∈ ps ∧ text ≠ [] := by
  rw [labelled, List.mem_flatMap]
  constructor
  · rintro ⟨piece, hmem, hpiece⟩
    cases piece with
    | gap other => simp at hpiece
    | withdrawn reported => simp at hpiece
    | token label other =>
      simp only at hpiece
      split_ifs at hpiece with hempty
      · simp at hpiece
      · obtain ⟨rfl, rfl⟩ := Prod.mk.inj (List.mem_singleton.1 hpiece)
        exact ⟨hmem, hempty⟩
  · rintro ⟨hmem, hempty⟩
    refine ⟨token kind text, hmem, ?_⟩
    simp only
    rw [if_neg hempty]
    exact List.mem_singleton_self _

/-- In front of what is shown first there are gaps only. -/
theorem exists_of_labelled_cons {p : Char → Prop} {ps : List (Piece Kind)} {kind : Kind}
    {text : List Char} {more : List (Kind × List Char)} (h : labelled ps = (kind, text) :: more)
    (hgaps : GapsIn (fun text ↦ ∀ c ∈ text, p c) ps) :
    ∃ front behind, textOf ps = front ++ (text ++ behind) ∧ ∀ c ∈ front, p c := by
  induction ps with
  | nil => simp at h
  | cons piece ps ih =>
    have hlater : GapsIn (fun text ↦ ∀ c ∈ text, p c) ps :=
      fun text hmem ↦ hgaps text (List.mem_cons_of_mem _ hmem)
    cases piece with
    | gap other =>
      obtain ⟨front, behind, htext, hfront⟩ := ih h hlater
      refine ⟨other ++ front, behind, ?_, ?_⟩
      · rw [textOf_cons, htext, Piece.text, List.append_assoc]
      · exact List.forall_mem_append.2 ⟨hgaps other List.mem_cons_self, hfront⟩
    | withdrawn reported => exact ih h hlater
    | token label other =>
      rw [labelled_token] at h
      split_ifs at h with hempty
      · obtain ⟨front, behind, htext, hfront⟩ := ih h hlater
        exact ⟨front, behind, by rw [textOf_cons, htext, Piece.text, hempty, List.nil_append],
          hfront⟩
      · obtain ⟨hentry, -⟩ := List.cons.inj h
        obtain ⟨-, rfl⟩ := Prod.mk.inj hentry
        exact ⟨[], textOf ps, textOf_cons _ _, List.forall_mem_nil _⟩

/-- A token has the kind of a piece. -/
theorem exists_of_mem_tokens {begin : Nat} {ps : List (Piece Kind)} {token : Token}
    (h : token ∈ tokens begin ps) : ∃ text, .token token.kind text ∈ ps := by
  induction ps generalizing begin with
  | nil => simp at h
  | cons piece ps ih =>
    cases piece with
    | gap text => exact (ih h).imp fun _ ↦ List.mem_cons_of_mem _
    | withdrawn reported => exact (ih h).imp fun _ ↦ List.mem_cons_of_mem _
    | token kind text =>
      rw [tokens_token, List.mem_append] at h
      rcases h with hhere | hlater
      · split_ifs at hhere with hempty
        · simp at hhere
        · obtain rfl := List.mem_singleton.1 hhere
          exact ⟨text, List.mem_cons_self⟩
      · exact (ih hlater).imp fun _ ↦ List.mem_cons_of_mem _

/-- A token shows the text of its piece. -/
theorem text_token (kind : Kind) (front text rest : List Char) :
    Token.text (front ++ (text ++ rest)) ⟨Text.byteLength front, Text.byteLength text, kind⟩ =
      text := by
  have hslice := Text.slice_append front text rest
  rwa [Text.byteLength_append] at hslice

/-- The tokens of pieces show what the pieces do, wherever these stand in a source. -/
theorem map_text_tokens (front rest : List Char) (ps : List (Piece Kind)) :
    (tokens (Text.byteLength front) ps).map
        (fun token ↦ (token.kind, token.text (front ++ (textOf ps ++ rest)))) =
      labelled ps := by
  induction ps generalizing front with
  | nil => rfl
  | cons piece ps ih =>
    have hind := ih (front ++ piece.text)
    have hsource : front ++ piece.text ++ (textOf ps ++ rest) =
        front ++ (textOf (piece :: ps) ++ rest) := by
      rw [textOf_cons, List.append_assoc, List.append_assoc]
    rw [hsource, Text.byteLength_append] at hind
    cases piece with
    | gap text => exact hind
    | withdrawn reported => exact hind
    | token kind text =>
      have hempty : Text.byteLength text = 0 ↔ text = [] := Text.byteLength_eq_zero
      rw [Piece.text] at hind
      rw [tokens_token, List.map_append, hind, labelled_token]
      simp only [hempty]
      split_ifs
      · rfl
      · rw [List.map_singleton, textOf_cons, List.append_assoc, Piece.text, text_token]

/-- Pieces that are alike show the same. -/
theorem Alike.labelled_eq {ps qs : List (Piece Kind)} (h : Alike ps qs) :
    labelled ps = labelled qs := by
  have hps := map_text_tokens [] [] ps
  have hqs := map_text_tokens [] [] qs
  rw [← hps, ← hqs, h.textOf_eq, h.tokens_eq]

/-- Without gaps the tokens of pieces cover them without gaps. -/
theorem tiles_tokens (begin : Nat) {ps : List (Piece Kind)} (h : GapsIn (fun _ ↦ False) ps) :
    Tiles (begin + Text.byteLength (textOf ps)) begin (tokens begin ps) := by
  induction ps generalizing begin with
  | nil => rfl
  | cons piece ps ih =>
    have hind := ih (begin + Text.byteLength piece.text)
      fun text hmem ↦ h text (List.mem_cons_of_mem _ hmem)
    rw [textOf_cons, Text.byteLength_append, ← Nat.add_assoc]
    cases piece with
    | gap text => exact (h text List.mem_cons_self).elim
    | withdrawn reported => exact hind
    | token kind text =>
      rw [tokens_token]
      split_ifs with hempty
      · rw [Piece.text, hempty] at hind ⊢
        exact hind
      · exact ⟨rfl, hind⟩

end Piece

end Highlight
