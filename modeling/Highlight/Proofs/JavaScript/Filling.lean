import Highlight.Proofs.JavaScript.Outline

/-!
# Scripts from their outlines

Each construct of a script is there or not whatever reads the code embedded in it, and has an
outline where it is. So the pieces of a script are its outline with the code read one level deeper,
and its outline covers the script.
-/

namespace Highlight.JavaScript

open Piece (Covers lasting textOf width)

/-- Whatever reads embedded code, the construct is there or not, with an outline, and reports
nothing before it is complete. -/
structure OutlinedConstruct (c : Reader → Construct Kind) : Prop where
  read : ∀ s, Found Outlined fun embed ↦ c embed s
  trail : ∀ embed s, (c embed).trail s = []

theorem outlinedConstruct_of_lasting {c : Construct Kind} (htrail : ∀ s, c.trail s = [])
    (h : ∀ s ps, c s = some ps → lasting ps = ps) : OutlinedConstruct fun _ ↦ c where
  read s := found_of_lasting (h s)
  trail _ := htrail

theorem outlined_measured (label : Kind) (length : List Char → Nat) :
    OutlinedConstruct fun _ ↦ .measured label length := by
  apply outlinedConstruct_of_lasting fun _ ↦ rfl
  intro s ps h
  obtain ⟨-, rfl⟩ := Construct.measured_eq_some.1 h
  rfl

theorem outlined_skipSome (length : List Char → Nat) :
    OutlinedConstruct fun _ ↦ .skipSome length := by
  apply outlinedConstruct_of_lasting fun _ ↦ rfl
  intro s ps h
  obtain ⟨-, rfl⟩ := Construct.skipSome_eq_some.1 h
  rfl

theorem outlined_firstOf_nil : OutlinedConstruct fun _ ↦ .firstOf [] where
  read _ := found_none
  trail _ _ := rfl

theorem outlined_firstOf_cons {c : Reader → Construct Kind} {cs : Reader → List (Construct Kind)}
    (hc : OutlinedConstruct c) (hcs : OutlinedConstruct fun embed ↦ .firstOf (cs embed)) :
    OutlinedConstruct fun embed ↦ .firstOf (c embed :: cs embed) where
  read s := by
    refine ((hc.read s).orElse (hcs.read s)).congr fun embed _ ↦ ?_
    simp only [Construct.firstOf, Construct.readFirst, hc.trail embed s]
    cases c embed s with
    | some ps => rfl
    | none =>
      simp [Piece.withdrawal]
  trail embed s := by
    have hrest := hcs.trail embed s
    simp only [Construct.firstOf, Construct.withdrawAll] at hrest ⊢
    rw [List.flatMap_cons, hc.trail embed s, hrest]
    rfl

theorem outlined_onlyIf {c : Reader → Construct Kind} (allowed : Bool) (hc : OutlinedConstruct c) :
    OutlinedConstruct fun embed ↦ .onlyIf allowed (c embed) := by
  cases allowed with
  | false => exact ⟨fun _ ↦ found_none, fun _ _ ↦ rfl⟩
  | true => exact hc

/-- Whatever reads embedded code, the literal finds the same where it stands. -/
def OutlinedTurn (turn : Reader → List Char → Turn Kind) : Prop :=
  ∀ s, (∃ pieces, Outlined pieces ∧ ∀ embed, turn embed s = .aside (pieces embed)) ∨
    ∃ found, (∀ pieces, found ≠ .aside pieces) ∧ ∀ embed, turn embed s = found

theorem outlined_shown (label : Kind) (text : List Char) :
    Outlined fun _ ↦ Piece.shown label text :=
  outlined_of_lasting (Piece.lasting_shown label text)

/-- A literal has an outline if what it finds set in has one. -/
theorem outlined_partsFrom (label : Kind) {turn : Reader → List Char → Turn Kind}
    (h : OutlinedTurn turn) (part s : List Char) :
    Found Outlined fun embed ↦ partsFrom label (turn embed) [] part s := by
  induction hn : s.length using Nat.strongRecOn generalizing part s with
  | ind n ih =>
    cases s with
    | nil =>
      rcases h [] with ⟨pieces, -, hturn⟩ | ⟨found, -, hturn⟩
      · refine found_none.congr fun embed _ ↦ ?_
        rw [partsFrom, hturn]
      · cases found with
        | close closing =>
          refine (found_some (outlined_shown label part.reverse)).congr fun embed _ ↦ ?_
          rw [partsFrom, hturn]
          rfl
        | _ =>
          refine found_none.congr fun embed _ ↦ ?_
          rw [partsFrom, hturn]
    | cons c s =>
      rcases h (c :: s) with ⟨pieces, hpieces, hturn⟩ | ⟨found, haside, hturn⟩
      · obtain ⟨m, hwidth⟩ := hpieces.exists_width
        by_cases hm : m = 0
        · refine found_none.congr fun embed hembed ↦ ?_
          simp only [partsFrom, hturn, hwidth embed hembed, hm, if_true]
        · have hlt : ((c :: s).drop m).length < n := by
            rw [← hn, List.length_drop, List.length_cons]
            omega
          have hbehind := (ih _ hlt [] _ rfl).map
            (fun embed ps ↦ Piece.shown label part.reverse ++ (pieces embed ++ ps))
            fun _ hps ↦ (outlined_shown label part.reverse).append (hpieces.append hps)
          refine hbehind.congr fun embed hembed ↦ ?_
          simp only [partsFrom, hturn, hwidth embed hembed, hm, if_false]
          rw [partsFrom_eq]
          simp
      · cases found with
        | aside pieces => exact absurd rfl (haside pieces)
        | plain =>
          refine (ih _ (by simp [← hn]) (c :: part) s rfl).congr fun embed _ ↦ ?_
          rw [partsFrom, hturn]
        | close closing =>
          refine (found_some
            (outlined_shown label (part.reverse ++ (c :: s).take closing))).congr fun embed _ ↦ ?_
          rw [partsFrom, hturn]
          rfl
        | wrong =>
          refine found_none.congr fun embed _ ↦ ?_
          rw [partsFrom, hturn]
        | spoiled =>
          refine found_none.congr fun embed _ ↦ ?_
          rw [partsFrom, hturn]

theorem outlinedTurn_stringTurn (quote : Char) : OutlinedTurn fun _ ↦ stringTurn quote := by
  intro s
  cases hturn : stringTurn quote s with
  | aside pieces =>
    obtain ⟨rest, -, rfl⟩ := escape_of_stringTurn hturn
    exact .inl ⟨fun _ ↦ escapePieces s, outlined_of_lasting rfl, fun _ ↦ hturn⟩
  | _ => exact .inr ⟨stringTurn quote s, by simp [hturn], fun _ ↦ rfl⟩

theorem outlined_string : OutlinedConstruct fun _ ↦ string where
  read s := by
    cases s with
    | nil => exact found_none
    | cons quote s =>
      by_cases hquote : Text.isQuote quote
      · refine (outlined_partsFrom .string (outlinedTurn_stringTurn quote) [quote] s).congr
          fun embed _ ↦ ?_
        simp only [string, hquote, if_true]
        rfl
      · refine found_none.congr fun embed _ ↦ ?_
        simp only [string, hquote]
        rfl
  trail _ _ := rfl

theorem outlined_token (label : Kind) (text : List Char) :
    Outlined fun _ ↦ [Piece.token label text] :=
  outlined_of_lasting rfl

theorem outlined_substitution (s : List Char) : Outlined fun embed ↦ substitution embed s := by
  unfold substitution
  simp only
  split_ifs
  · exact (outlined_token .symPunc _).append (outlined_embed _)
  · exact (outlined_token .symPunc _).append ((outlined_embed _).append (outlined_token _ _))

theorem outlinedTurn_templateTurn : OutlinedTurn templateTurn := by
  intro s
  cases s with
  | nil => exact .inr ⟨.close 0, by simp, fun _ ↦ rfl⟩
  | cons c s =>
    simp only [templateTurn]
    split_ifs
    · exact .inr ⟨.close 1, by simp, fun _ ↦ rfl⟩
    · exact .inl ⟨_, outlined_of_lasting rfl, fun _ ↦ rfl⟩
    · exact .inl ⟨_, outlined_substitution _, fun _ ↦ rfl⟩
    · exact .inr ⟨.plain, by simp, fun _ ↦ rfl⟩

theorem outlined_template : OutlinedConstruct template where
  read s := by
    simp only [template]
    split_ifs
    · exact outlined_partsFrom _ outlinedTurn_templateTurn _ _
    · exact found_none
  trail _ _ := rfl

theorem outlined_number : OutlinedConstruct fun _ ↦ number := by
  apply outlinedConstruct_of_lasting fun _ ↦ rfl
  intro s ps h
  unfold number at h
  simp only at h
  split_ifs at h
  · obtain rfl := Option.some.inj h
    rfl
  · obtain rfl := Option.some.inj h
    simp

theorem outlined_linePieces (text : List Char) : Outlined fun _ ↦ Comment.linePieces text :=
  outlined_of_lasting (Piece.lasting_framed ..)

theorem outlined_blockPieces (terminated : Bool) (text : List Char) :
    Outlined fun _ ↦ Comment.blockPieces terminated text :=
  outlined_of_lasting (Piece.lasting_framed ..)

theorem outlined_comment : OutlinedConstruct fun _ ↦ comment := by
  have hline : OutlinedConstruct fun _ ↦ Comment.line lineCommentLength := by
    refine ⟨fun s ↦ ?_, fun _ _ ↦ rfl⟩
    simp only [Comment.line]
    split_ifs
    · exact found_none
    · exact found_some (outlined_linePieces _)
  have hblock : OutlinedConstruct fun _ ↦ Comment.block := by
    refine ⟨fun s ↦ ?_, fun _ _ ↦ rfl⟩
    simp only [Comment.block]
    split_ifs
    · exact found_none
    · exact found_some (outlined_blockPieces _ _)
  exact outlined_firstOf_cons hline (outlined_firstOf_cons hblock outlined_firstOf_nil)

theorem outlined_container (text : List Char) : Outlined fun embed ↦ container embed text :=
  ((outlined_token .symBrace _).append (outlined_embed _)).append (outlined_shown _ _)

theorem outlined_showPart (piece : Piece TagPart) : Outlined fun embed ↦ showPart embed piece := by
  cases piece with
  | gap text => exact outlined_of_lasting rfl
  | withdrawn reported => exact outlined_of_lasting rfl
  | token label text =>
    cases label with
    | comment =>
      simp only [showPart, commentPieces]
      split_ifs
      · exact outlined_linePieces text
      · exact outlined_blockPieces true text
    | code => exact outlined_container text
    | _ => exact outlined_token _ text

theorem outlined_showTag (parts : List (Piece TagPart)) :
    Outlined fun embed ↦ showTag embed parts := by
  induction parts with
  | nil => exact outlined_of_lasting Piece.lasting_nil
  | cons piece parts ih => exact (outlined_showPart piece).append ih

variable [Text.IdentifierClasses]

/-- A child has an outline, since the code in it is handed on as it stands. -/
theorem outlined_child (depth : Nat) (s : List Char) :
    Found OutlinedStep fun embed ↦ child embed depth s := by
  unfold child
  simp only
  split_ifs
  · exact found_none
  · exact found_some ⟨(outlined_token .symBrace _).append (outlined_embed _), depth, fun _ ↦ rfl⟩
  · exact found_some ⟨outlined_container _, depth, fun _ ↦ rfl⟩
  · cases tag? s with
    | none => exact found_some ⟨outlined_of_lasting rfl, depth, fun _ ↦ rfl⟩
    | some found => exact found_some ⟨outlined_showTag found.2, _, fun _ ↦ rfl⟩
  · exact found_some ⟨outlined_of_lasting rfl, depth, fun _ ↦ rfl⟩
  · exact found_some ⟨outlined_token _ _, depth, fun _ ↦ rfl⟩
  · exact found_some ⟨outlined_of_lasting (Piece.lasting_hidden _), depth, fun _ ↦ rfl⟩

theorem outlined_element : OutlinedConstruct element where
  read s := by
    simp only [element]
    cases tag? s with
    | none => exact found_none
    | some found =>
      obtain ⟨kind, parts⟩ := found
      simp only
      split_ifs
      · exact found_none
      · exact found_some ((outlined_showTag parts).append (outlined_run outlined_child 1 _))
      · exact found_some (outlined_showTag parts)
  trail _ _ := rfl

theorem outlined_operand (strict expression : Bool) :
    OutlinedConstruct fun embed ↦ operand embed strict expression :=
  outlined_firstOf_cons outlined_string <|
    outlined_firstOf_cons outlined_template <|
    outlined_firstOf_cons outlined_number <|
    outlined_firstOf_cons (outlined_onlyIf expression (outlined_measured _ _)) <|
    outlined_firstOf_cons (outlined_onlyIf (expression && !strict) outlined_element) <|
    outlined_firstOf_cons (outlined_measured _ _) outlined_firstOf_nil

/-- An item has an outline, since only its operands hold code. -/
theorem outlined_item (strict : Bool) (position : Position) (s : List Char) :
    Found OutlinedStep fun embed ↦ item embed strict position s := by
  have hspace := ((outlined_skipSome (Text.spanLength isSpace)).read s).step position
  have hcomment := (outlined_comment.read s).step position
  have hoperand := ((outlined_operand strict position.expression).read s).step Position.operand
  have hword : Found OutlinedStep fun _ ↦ word position.member s := by
    apply foundStep_of_lasting
    intro ps next h
    obtain ⟨kind, -, rfl⟩ := word_eq_some h
    rfl
  have hoperator : Found OutlinedStep fun _ ↦ operator position.expression s := by
    apply foundStep_of_lasting
    intro ps next h
    obtain ⟨op, -, rfl⟩ := operator_eq_some h
    rfl
  have hjunk := ((outlined_measured .error fun s ↦ (s.take 1).length).read s).step ({} : Position)
  exact hspace.orElse (hcomment.orElse (hoperand.orElse (hword.orElse (hoperator.orElse hjunk))))

/-- Whatever reads embedded code, the pieces of a script are its outline with the code filled
in. -/
theorem run_item_eq {embed : Reader} (hembed : embed.Covering) (strict : Bool) (s : List Char) :
    run (item embed strict) {} s = fill embed (outline strict s) := by
  obtain ⟨found, hlasts, hfill⟩ := outlined_run (outlined_item strict) {} s
  have hmarked : outline strict s = found := by
    rw [← unmark_fill hlasts, ← hfill marked covering_marked]
    rfl
  rw [hmarked]
  exact hfill embed hembed

theorem scanLevels_succ (strict : Bool) (levels : Nat) (s : List Char) :
    scanLevels strict (levels + 1) s = fill (scanLevels strict levels) (outline strict s) :=
  run_item_eq (covers_scanLevels strict levels) strict s

/-- The outline of a script covers it. -/
theorem outlineText_outline (strict : Bool) (s : List Char) :
    outlineText (outline strict s) = s := by
  have hcovers := covers_scanLevels strict 1 s
  rw [scanLevels_succ] at hcovers
  rw [← textOf_fill (covers_scanLevels strict 0), hcovers.textOf_eq]

end Highlight.JavaScript
