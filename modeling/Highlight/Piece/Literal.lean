import Highlight.Piece.Construct

/-!
# Literals in parts

A quoted literal is shown as stretches of one label, broken where something is set into it: an
escape, a reference, a substitution. The quotes belong to the first and to the last stretch, and a
stretch between two insets that touch is empty and not shown.
-/

namespace Highlight

/-- What a literal finds where it stands. -/
inductive Turn (κ : Type) where
  /-- The next character belongs to the running stretch. -/
  | plain
  /-- Something of its own is set in here. -/
  | aside (pieces : List (Piece κ))
  /-- The literal ends; `closing` more characters belong to the running stretch. -/
  | close (closing : Nat)
  /-- This is no literal. -/
  | wrong
  /-- This is no literal, and the running stretch is reported before that shows. -/
  | spoiled
  deriving Repr

/-- Reads on in a literal. The running stretch is `part`, last character first; the pieces before
it are `done`, last one first. -/
def partsFrom {κ : Type} (label : κ) (turn : List Char → Turn κ) (done : List (Piece κ))
    (part : List Char) : List Char → Option (List (Piece κ))
  | [] =>
    match turn [] with
    | .close _ => some (done.reverse ++ Piece.shown label part.reverse)
    | _ => none
  | s@(c :: rest) =>
    match turn s with
    | .plain => partsFrom label turn done (c :: part) rest
    | .aside pieces =>
      let done := pieces.reverseAux (Piece.shown label part.reverse ++ done)
      let n := Piece.width pieces
      if n = 0 then none else partsFrom label turn done [] (s.drop n)
    | .close closing =>
      some (done.reverse ++ Piece.shown label (part.reverse ++ s.take closing))
    | .wrong | .spoiled => none
termination_by s => s.length
decreasing_by
  · simp
  · simp_all only [List.length_drop, List.length_cons]
    omega

theorem partsFrom_eq {κ : Type} (label : κ) (turn : List Char → Turn κ) (done : List (Piece κ))
    (part s : List Char) :
    partsFrom label turn done part s =
      (partsFrom label turn [] part s).map (done.reverse ++ ·) := by
  induction hn : s.length using Nat.strongRecOn generalizing done part s with
  | ind n ih =>
    cases s with
    | nil =>
      rw [partsFrom, partsFrom]
      cases turn [] <;> simp
    | cons c s =>
      rw [partsFrom, partsFrom]
      cases turn (c :: s) with
      | plain => exact ih _ (by simp [← hn]) done (c :: part) s rfl
      | wrong => rfl
      | spoiled => rfl
      | close closing => simp
      | aside pieces =>
        by_cases hw : Piece.width pieces = 0
        · simp [hw]
        · have hlt : ((c :: s).drop (Piece.width pieces)).length < n := by
            rw [← hn, List.length_drop, List.length_cons]
            omega
          simp only [hw, if_false]
          rw [ih _ hlt _ [] _ rfl,
            ih _ hlt (pieces.reverseAux (Piece.shown label part.reverse ++ [])) [] _ rfl]
          simp [Option.map_map, Function.comp_def]

/-- The pieces of a literal that are reported before it turns out not to be one. -/
def partsTrail {κ : Type} (label : κ) (turn : List Char → Turn κ) (part : List Char) :
    List Char → List (Piece κ)
  | [] =>
    match turn [] with
    | .spoiled => Piece.shown label part.reverse
    | _ => []
  | s@(c :: rest) =>
    match turn s with
    | .plain => partsTrail label turn (c :: part) rest
    | .aside pieces =>
      let n := Piece.width pieces
      Piece.shown label part.reverse ++
        if n = 0 then [] else pieces ++ partsTrail label turn [] (s.drop n)
    | .spoiled => Piece.shown label part.reverse
    | .close _ | .wrong => []
termination_by s => s.length
decreasing_by
  · simp
  · simp_all only [List.length_drop, List.length_cons]
    omega

/-- A literal whose first `opening` characters open it. -/
def Construct.parts {κ : Type} (label : κ) (opening : Nat) (turn : List Char → Turn κ) :
    Construct κ where
  read s := partsFrom label turn [] (s.take opening).reverse (s.drop opening)
  trail s := partsTrail label turn (s.take opening).reverse (s.drop opening)

end Highlight
