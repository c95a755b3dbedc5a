import Highlight.Piece.Basic

/-!
# Constructs

A construct reads a front part of a text and says what its pieces are, or finds that the text does
not begin with it. Constructs are put together in sequence, as alternatives and by repetition. What
is left of the text is what the pieces do not cover, so a construct never has to say how far it
went. Where it is not there, some of its parts may have been reported before that showed; these
stand in the pieces around it as withdrawn.
-/

namespace Highlight

/-- Reads a front part of the text, or nothing. -/
structure Construct (κ : Type) where
  /-- The pieces of the construct, if the text begins with it. -/
  read : List Char → Option (List (Piece κ))
  /-- Where the text does not begin with it, what was reported before that showed. -/
  trail : List Char → List (Piece κ) := fun _ ↦ []

namespace Construct

variable {κ : Type}

instance : CoeFun (Construct κ) fun _ ↦ List Char → Option (List (Piece κ)) := ⟨read⟩

/-- A labelled stretch whose length is measured on the text; not there if that is 0. -/
def measured (label : κ) (length : List Char → Nat) : Construct κ where
  read s :=
    let n := length s
    if n = 0 then none else some [.token label (s.take n)]

def literal (label : κ) (lit : String) : Construct κ where
  read s := if Text.startsWith lit s then some [.token label lit.toList] else none

/-- A stretch that is passed over, its length measured on the text; it may be empty. -/
def skip (length : List Char → Nat) : Construct κ where
  read s := some (Piece.hidden (s.take (length s)))

/-- A stretch that is passed over and must not be empty. -/
def skipSome (length : List Char → Nat) : Construct κ where
  read s :=
    let n := length s
    if n = 0 then none else some [.gap (s.take n)]

def skipLiteral (lit : String) : Construct κ where
  read s := if Text.startsWith lit s then some [.gap lit.toList] else none

/-- The pieces of all the constructs, one after another. -/
def readAll : List (Construct κ) → List Char → Option (List (Piece κ))
  | [], _ => some []
  | c :: cs, s => do
    let ps ← c s
    let qs ← readAll cs (s.drop (Piece.width ps))
    return ps ++ qs

/-- The pieces of the constructs before the first that is not there, and the trail of that. -/
def trailAll : List (Construct κ) → List Char → List (Piece κ)
  | [], _ => []
  | c :: cs, s =>
    match c s with
    | some ps => ps ++ trailAll cs (s.drop (Piece.width ps))
    | none => c.trail s

/-- One construct after another, all of them. -/
def seq (cs : List (Construct κ)) : Construct κ := ⟨readAll cs, trailAll cs⟩

/-- The pieces of the first of the constructs that is there, after what the ones before it have
withdrawn. -/
def readFirst : List (Construct κ) → List Char → Option (List (Piece κ))
  | [], _ => none
  | c :: cs, s =>
    match c s with
    | some ps => some ps
    | none => (readFirst cs s).map (Piece.withdrawal (c.trail s) ++ ·)

/-- What all the constructs withdraw. -/
def withdrawAll (cs : List (Construct κ)) (s : List Char) : List (Piece κ) :=
  cs.flatMap fun c ↦ Piece.withdrawal (c.trail s)

/-- The first of the constructs that is there. Each is an attempt: what it has reported is taken
back before the next one is tried. -/
def firstOf (cs : List (Construct κ)) : Construct κ := ⟨readFirst cs, withdrawAll cs⟩

/-- The construct that the text calls for. -/
def choose (construct : List Char → Construct κ) : Construct κ where
  read s := construct s s
  trail s := (construct s).trail s

/-- The construct if it is there, else nothing. -/
def optional (c : Construct κ) : Construct κ where
  read s := some ((c s).getD (Piece.withdrawal (c.trail s)))

/-- The construct, where it is allowed at all. -/
def onlyIf (allowed : Bool) (c : Construct κ) : Construct κ :=
  if allowed then c else { read := fun _ ↦ none }

/-- The construct where the text begins with the literal, else nothing. -/
def ifNext (lit : String) (c : Construct κ) : Construct κ :=
  choose fun s ↦ if Text.startsWith lit s then c else seq []

end Construct

/-- Reads on with `step`, which hands a state along, and puts the pieces in front of `done`, last
one first. It ends where `step` does, where it covers nothing, and with the text. -/
def runFrom {κ σ : Type} (step : σ → List Char → Option (List (Piece κ) × σ))
    (done : List (Piece κ)) (state : σ) : List Char → List (Piece κ)
  | [] => done.reverse
  | s@(_ :: _) =>
    match step state s with
    | none => done.reverse
    | some (pieces, state) =>
      let done := pieces.reverseAux done
      let n := Piece.width pieces
      if n = 0 then done.reverse else runFrom step done state (s.drop n)
termination_by s => s.length
decreasing_by
  simp_all only [List.length_drop, List.length_cons]
  omega

/-- Reads with `step` again and again from the front of the text. -/
def run {κ σ : Type} (step : σ → List Char → Option (List (Piece κ) × σ)) (state : σ)
    (s : List Char) : List (Piece κ) :=
  runFrom step [] state s

theorem runFrom_eq {κ σ : Type} (step : σ → List Char → Option (List (Piece κ) × σ))
    (done : List (Piece κ)) (state : σ) (s : List Char) :
    runFrom step done state s = done.reverse ++ run step state s := by
  induction hn : s.length using Nat.strongRecOn generalizing done state s with
  | ind n ih =>
    cases s with
    | nil => simp [run, runFrom]
    | cons c s =>
      rw [run, runFrom, runFrom]
      cases step state (c :: s) with
      | none => simp
      | some found =>
        obtain ⟨pieces, next⟩ := found
        by_cases hw : Piece.width pieces = 0
        · simp [hw]
        · have hlt : ((c :: s).drop (Piece.width pieces)).length < n := by
            rw [← hn, List.length_drop, List.length_cons]
            omega
          simp only [hw, if_false]
          rw [ih _ hlt (pieces.reverseAux done) next _ rfl,
            ih _ hlt (pieces.reverseAux []) next _ rfl]
          simp

@[simp] theorem run_nil {κ σ : Type} (step : σ → List Char → Option (List (Piece κ) × σ))
    (state : σ) : run step state [] = [] := by
  simp [run, runFrom]

/-- A run reads one step, and goes on behind it if the step covers something. -/
theorem run_cons {κ σ : Type} (step : σ → List Char → Option (List (Piece κ) × σ)) (state : σ)
    (c : Char) (s : List Char) :
    run step state (c :: s) =
      match step state (c :: s) with
      | none => []
      | some (pieces, next) =>
        pieces ++
          if Piece.width pieces = 0 then []
          else run step next ((c :: s).drop (Piece.width pieces)) := by
  rw [run, runFrom]
  cases step state (c :: s) with
  | none => rfl
  | some found =>
    obtain ⟨pieces, next⟩ := found
    by_cases hw : Piece.width pieces = 0
    · simp [hw]
    · simp [hw, runFrom_eq]

/-- Reads the construct again and again, as long as it is there. -/
def Construct.repeated {κ : Type} (c : Construct κ) (s : List Char) : List (Piece κ) :=
  run (fun _ s ↦ (c s).map (·, ())) () s

/-- The construct as often as it is there, which may be never. -/
def Construct.many {κ : Type} (c : Construct κ) : Construct κ where
  read s :=
    let pieces := c.repeated s
    some (pieces ++ Piece.withdrawal (c.trail (s.drop (Piece.width pieces))))

end Highlight
