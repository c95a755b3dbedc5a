import Highlight.Proofs.JavaScript.Reading
import Highlight.Proofs.Piece.Leaving

/-!
# Outlines of scripts

A script is read without regard to what the code embedded in it turns out to be: it is enough that
the pieces of that code cover it. So a script has an outline, which consists of pieces of its own
and of code that is handed on, and whatever reads that code, the pieces of the script are the
outline with the code filled in. The outline is found by a reader that only marks what it is handed.
-/

namespace Highlight.JavaScript

open Piece (Covers lasting textOf width)

/-- What reads embedded code. -/
abbrev Reader := List Char → List (Piece Kind)

/-- A stretch of a script: a piece of its own, or code that is embedded in it. -/
inductive Stretch where
  | own (piece : Piece Kind)
  | code (text : List Char)
  deriving Repr

namespace Stretch

def text : Stretch → List Char
  | own piece => piece.text
  | code text => text

/-- The pieces of a stretch, code being read by `embed`. -/
def filled (embed : Reader) : Stretch → List (Piece Kind)
  | own piece => [piece]
  | code text => embed text

end Stretch

def fill (embed : Reader) (outline : List Stretch) : List (Piece Kind) :=
  outline.flatMap (Stretch.filled embed)

def outlineText (outline : List Stretch) : List Char := outline.flatMap Stretch.text

/-- Hides code behind a mark that holds it. Nothing else is ever withdrawn in a script. -/
def marked (code : List Char) : List (Piece Kind) := [.withdrawn [.gap code], .gap code]

/-- The outline of pieces in which code is marked. -/
def unmark : List (Piece Kind) → List Stretch
  | .withdrawn [.gap code] :: .gap _ :: pieces => .code code :: unmark pieces
  | piece :: pieces => .own piece :: unmark pieces
  | [] => []

def outline [Text.IdentifierClasses]
    (strict : Bool) (s : List Char) : List Stretch := unmark (run (item marked strict) {} s)

/-- What the reader gives of code covers it. -/
abbrev Reader.Covering (embed : Reader) : Prop := ∀ s, Covers (embed s) s

theorem covering_marked : Reader.Covering marked := by
  intro code
  simp [marked, Covers, Piece.text]

@[simp]
theorem fill_nil (embed : Reader) : fill embed [] = [] := rfl

@[simp]
theorem fill_cons (embed : Reader) (stretch : Stretch) (outline : List Stretch) :
    fill embed (stretch :: outline) = stretch.filled embed ++ fill embed outline := rfl

@[simp]
theorem fill_append (embed : Reader) (os us : List Stretch) :
    fill embed (os ++ us) = fill embed os ++ fill embed us :=
  List.flatMap_append ..

@[simp]
theorem fill_map_own (embed : Reader) (pieces : List (Piece Kind)) :
    fill embed (pieces.map .own) = pieces := by
  induction pieces with
  | nil => rfl
  | cons piece pieces ih => rw [List.map_cons, fill_cons, ih, Stretch.filled, List.singleton_append]

@[simp]
theorem outlineText_nil : outlineText [] = [] := rfl

@[simp]
theorem outlineText_cons (stretch : Stretch) (outline : List Stretch) :
    outlineText (stretch :: outline) = stretch.text ++ outlineText outline := rfl

theorem textOf_filled {embed : Reader} (hembed : embed.Covering) (stretch : Stretch) :
    textOf (stretch.filled embed) = stretch.text := by
  cases stretch with
  | own piece => exact List.append_nil _
  | code text => exact (hembed text).textOf_eq

theorem textOf_fill {embed : Reader} (hembed : embed.Covering) (outline : List Stretch) :
    textOf (fill embed outline) = outlineText outline := by
  induction outline with
  | nil => rfl
  | cons stretch outline ih =>
    rw [fill_cons, Piece.textOf_append, textOf_filled hembed, ih, outlineText_cons]

/-- No piece of the outline is withdrawn. -/
def Lasts (outline : List Stretch) : Prop := ∀ reported, .own (.withdrawn reported) ∉ outline

theorem lasts_code (text : List Char) : Lasts [.code text] := by
  simp [Lasts]

theorem Lasts.append {os us : List Stretch} (ho : Lasts os) (hu : Lasts us) : Lasts (os ++ us) := by
  intro reported
  rw [List.mem_append, not_or]
  exact ⟨ho reported, hu reported⟩

theorem lasts_map_own {pieces : List (Piece Kind)} (h : lasting pieces = pieces) :
    Lasts (pieces.map .own) := by
  intro reported hmem
  obtain ⟨piece, hpiece, hown⟩ := List.mem_map.1 hmem
  obtain rfl := Stretch.own.inj hown
  simpa using List.filter_eq_self.1 h _ hpiece

/-- Where no piece is withdrawn, marks are told from all else. -/
theorem unmark_fill {outline : List Stretch} (h : Lasts outline) :
    unmark (fill marked outline) = outline := by
  induction outline with
  | nil => rfl
  | cons stretch outline ih =>
    have hrest := ih fun reported hmem ↦ h reported (List.mem_cons_of_mem _ hmem)
    rw [fill_cons]
    cases stretch with
    | code text =>
      change unmark (.withdrawn [.gap text] :: .gap text :: fill marked outline) = _
      rw [unmark, hrest]
    | own piece =>
      cases piece with
      | withdrawn reported => exact absurd List.mem_cons_self (h reported)
      | gap text =>
        change unmark (.gap text :: fill marked outline) = _
        rw [unmark, hrest]
        simp
      | token label text =>
        change unmark (.token label text :: fill marked outline) = _
        rw [unmark, hrest]
        simp

/-- Whatever reads embedded code, the pieces are one outline filled in. -/
def Outlined (pieces : Reader → List (Piece Kind)) : Prop :=
  ∃ outline, Lasts outline ∧ ∀ embed : Reader, embed.Covering → pieces embed = fill embed outline

/-- Whatever reads embedded code, nothing is found, or something of the form is. -/
def Found {α : Type} (form : (Reader → α) → Prop) (found : Reader → Option α) : Prop :=
  (∀ embed : Reader, embed.Covering → found embed = none) ∨
    ∃ f, form f ∧ ∀ embed : Reader, embed.Covering → found embed = some (f embed)

/-- The pieces of a step have an outline, and what state it leads to does not depend on the
reader. -/
def OutlinedStep {σ : Type} (step : Reader → List (Piece Kind) × σ) : Prop :=
  Outlined (fun embed ↦ (step embed).1) ∧ ∃ next, ∀ embed, (step embed).2 = next

theorem outlined_of_lasting {pieces : List (Piece Kind)} (h : lasting pieces = pieces) :
    Outlined fun _ ↦ pieces :=
  ⟨pieces.map .own, lasts_map_own h, fun embed _ ↦ (fill_map_own embed pieces).symm⟩

theorem outlined_embed (code : List Char) : Outlined fun embed ↦ embed code :=
  ⟨[.code code], lasts_code code, fun _ _ ↦ (List.append_nil _).symm⟩

theorem Outlined.congr {ps qs : Reader → List (Piece Kind)} (h : Outlined qs)
    (hsame : ∀ embed : Reader, embed.Covering → ps embed = qs embed) : Outlined ps := by
  obtain ⟨outline, hlasts, hfill⟩ := h
  exact ⟨outline, hlasts, fun embed hembed ↦ (hsame embed hembed).trans (hfill embed hembed)⟩

theorem Outlined.append {ps qs : Reader → List (Piece Kind)} (hp : Outlined ps)
    (hq : Outlined qs) : Outlined fun embed ↦ ps embed ++ qs embed := by
  obtain ⟨os, hos, hfillOs⟩ := hp
  obtain ⟨us, hus, hfillUs⟩ := hq
  refine ⟨os ++ us, hos.append hus, fun embed hembed ↦ ?_⟩
  simp only [hfillOs embed hembed, hfillUs embed hembed, fill_append]

/-- How much pieces with an outline cover does not depend on the reader. -/
theorem Outlined.exists_width {ps : Reader → List (Piece Kind)} (h : Outlined ps) :
    ∃ n, ∀ embed : Reader, embed.Covering → width (ps embed) = n := by
  obtain ⟨outline, -, hfill⟩ := h
  refine ⟨(outlineText outline).length, fun embed hembed ↦ ?_⟩
  rw [hfill embed hembed, ← Piece.length_textOf, textOf_fill hembed]

section

variable {α β : Type} {form : (Reader → α) → Prop} {found other : Reader → Option α}

theorem found_none : Found form fun _ ↦ none := .inl fun _ _ ↦ rfl

theorem found_some {f : Reader → α} (h : form f) : Found form fun embed ↦ some (f embed) :=
  .inr ⟨f, h, fun _ _ ↦ rfl⟩

theorem Found.congr (h : Found form other)
    (hsame : ∀ embed : Reader, embed.Covering → found embed = other embed) : Found form found := by
  rcases h with hnone | ⟨f, hf, hfound⟩
  · exact .inl fun embed hembed ↦ (hsame embed hembed).trans (hnone embed hembed)
  · exact .inr ⟨f, hf, fun embed hembed ↦ (hsame embed hembed).trans (hfound embed hembed)⟩

theorem Found.map {form' : (Reader → β) → Prop} (h : Found form found) (g : Reader → α → β)
    (hg : ∀ f, form f → form' fun embed ↦ g embed (f embed)) :
    Found form' fun embed ↦ (found embed).map (g embed) := by
  rcases h with hnone | ⟨f, hf, hfound⟩
  · refine found_none.congr fun embed hembed ↦ ?_
    simp only [hnone embed hembed, Option.map_none]
  · refine (found_some (hg f hf)).congr fun embed hembed ↦ ?_
    simp only [hfound embed hembed, Option.map_some]

theorem Found.orElse (h : Found form found) (h' : Found form other) :
    Found form fun embed ↦ found embed <|> other embed := by
  rcases h with hnone | ⟨f, hf, hfound⟩
  · refine h'.congr fun embed hembed ↦ ?_
    rw [hnone embed hembed]
    rfl
  · refine (found_some hf).congr fun embed hembed ↦ ?_
    rw [hfound embed hembed]
    rfl

end

/-- What is found without reading embedded code has an outline unless something is withdrawn. -/
theorem found_of_lasting {found : Option (List (Piece Kind))}
    (h : ∀ ps, found = some ps → lasting ps = ps) : Found Outlined fun _ ↦ found := by
  cases found with
  | none => exact found_none
  | some ps => exact found_some (outlined_of_lasting (h ps rfl))

theorem foundStep_of_lasting {σ : Type} {found : Option (List (Piece Kind) × σ)}
    (h : ∀ ps next, found = some (ps, next) → lasting ps = ps) :
    Found OutlinedStep fun _ ↦ found := by
  cases found with
  | none => exact found_none
  | some turn =>
    exact found_some ⟨outlined_of_lasting (h turn.1 turn.2 rfl), turn.2, fun _ ↦ rfl⟩

theorem Found.step {σ : Type} {found : Reader → Option (List (Piece Kind))}
    (h : Found Outlined found) (next : σ) :
    Found OutlinedStep fun embed ↦ (found embed).map (·, next) :=
  h.map (fun _ ps ↦ (ps, next)) fun _ hps ↦ ⟨hps, next, fun _ ↦ rfl⟩

/-- A loop whose steps have outlines has one. -/
theorem outlined_run {σ : Type} {step : Reader → σ → List Char → Option (List (Piece Kind) × σ)}
    (h : ∀ state s, Found OutlinedStep fun embed ↦ step embed state s) (state : σ)
    (s : List Char) : Outlined fun embed ↦ run (step embed) state s := by
  induction hn : s.length using Nat.strongRecOn generalizing state s with
  | ind n ih =>
    cases s with
    | nil => exact (outlined_of_lasting Piece.lasting_nil).congr fun embed _ ↦ run_nil _ _
    | cons c s =>
      rcases h state (c :: s) with hnone | ⟨turn, ⟨hps, next, hnext⟩, hstep⟩
      · refine (outlined_of_lasting Piece.lasting_nil).congr fun embed hembed ↦ ?_
        simp only [run_cons, hnone embed hembed]
      · obtain ⟨m, hwidth⟩ := hps.exists_width
        by_cases hm : m = 0
        · refine hps.congr fun embed hembed ↦ ?_
          simp only [run_cons, hstep embed hembed, hwidth embed hembed, hm, if_true,
            List.append_nil]
        · have hlt : ((c :: s).drop m).length < n := by
            rw [← hn, List.length_drop, List.length_cons]
            omega
          refine (hps.append (ih _ hlt next _ rfl)).congr fun embed hembed ↦ ?_
          simp only [run_cons, hstep embed hembed, hwidth embed hembed, hm, if_false, hnext]

end Highlight.JavaScript
