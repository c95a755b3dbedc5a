import Highlight.Token.Basic

/-!
# Pieces

A scan cuts its source into pieces, front to back. Put together, the texts of the pieces are the
text that was read; their labels say what each stretch is. Tokens are the labelled pieces with
their places.
-/

namespace Highlight

/-- A stretch of source text, or a trace of one, with labels from `κ`. -/
inductive Piece (κ : Type) where
  /-- Text that is not shown in any way. -/
  | gap (text : List Char)
  /-- Text that is shown as its label says. -/
  | token (label : κ) (text : List Char)
  /-- What was reported of a construct before it turned out not to be there, and taken back. It
  covers no text. -/
  | withdrawn (reported : List (Piece κ))
  deriving Repr

namespace Piece

variable {κ : Type}

def text : Piece κ → List Char
  | gap text => text
  | token _ text => text
  | withdrawn .. => []

/-- Whether the piece is not shown and leaves no trace. -/
def isGap : Piece κ → Bool
  | gap _ => true
  | _ => false

/-- Takes back what was reported of a construct that is not there; gaps alone leave no trace. -/
def withdrawal (reported : List (Piece κ)) : List (Piece κ) :=
  if reported.all isGap then [] else [withdrawn reported]

/-- The text that the pieces cover. -/
def textOf (pieces : List (Piece κ)) : List Char := pieces.flatMap text

/-- The number of characters that the pieces cover. -/
def width (pieces : List (Piece κ)) : Nat := total (fun piece ↦ piece.text.length) pieces

@[simp] theorem textOf_nil : textOf ([] : List (Piece κ)) = [] := rfl

@[simp] theorem textOf_cons (piece : Piece κ) (pieces : List (Piece κ)) :
    textOf (piece :: pieces) = piece.text ++ textOf pieces := rfl

@[simp] theorem textOf_append (ps qs : List (Piece κ)) :
    textOf (ps ++ qs) = textOf ps ++ textOf qs := by
  simp [textOf]

@[simp] theorem length_textOf (pieces : List (Piece κ)) :
    (textOf pieces).length = width pieces := by
  induction pieces with
  | nil => rfl
  | cons piece pieces ih => simp_all [width]

@[simp] theorem width_nil : width ([] : List (Piece κ)) = 0 := rfl

@[simp] theorem width_append (ps qs : List (Piece κ)) : width (ps ++ qs) = width ps + width qs := by
  simp [width]

/-- A labelled stretch, unless it is empty. -/
def shown (label : κ) (text : List Char) : List (Piece κ) :=
  if text.isEmpty then [] else [token label text]

/-- An unlabelled stretch, unless it is empty. -/
def hidden (text : List Char) : List (Piece κ) :=
  if text.isEmpty then [] else [gap text]

@[simp] theorem textOf_shown (label : κ) (text : List Char) : textOf (shown label text) = text := by
  cases text <;> simp [shown, Piece.text]

@[simp] theorem textOf_hidden (text : List Char) :
    textOf (hidden text : List (Piece κ)) = text := by
  cases text <;> simp [hidden, Piece.text]

/-- A stretch whose first `opening` and last `closing` characters frame the rest. -/
def framed (frame inner : κ) (opening closing : Nat) (text : List Char) : List (Piece κ) :=
  let body := text.drop opening
  let n := body.length - closing
  shown frame (text.take opening) ++ shown inner (body.take n) ++ shown frame (body.drop n)

@[simp] theorem textOf_framed (frame inner : κ) (opening closing : Nat) (text : List Char) :
    textOf (framed frame inner opening closing text) = text := by
  simp only [framed, textOf_append, textOf_shown, List.append_assoc, List.take_append_drop]

/-- The tokens of pieces that start at byte `begin` of the source. -/
def layOut (begin : Nat) : List (Piece Kind) → List Token
  | [] => []
  | gap text :: pieces => layOut (begin + Text.byteLength text) pieces
  | token kind text :: pieces =>
    ⟨begin, Text.byteLength text, kind⟩ :: layOut (begin + Text.byteLength text) pieces
  | withdrawn .. :: pieces => layOut begin pieces

end Piece

end Highlight
