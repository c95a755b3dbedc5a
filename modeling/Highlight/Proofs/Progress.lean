import Highlight.Proofs.Placement

/-!
# Scans that come to an end

Whatever a loop of a scanner reads covers at least one byte, so that no loop stands still. All
languages but XML have an item for every character and are read to the end of the source; a scan of
XML ends there or where no item is.
-/

namespace Highlight

open Piece (Covers textOf width)

variable {κ σ : Type}

theorem Piece.byteLength_textOf_pos {ps : List (Piece κ)} (h : 0 < width ps) :
    0 < Text.byteLength (textOf ps) := by
  rw [Nat.pos_iff_ne_zero, ne_eq, Text.byteLength_eq_zero]
  intro hempty
  rw [← length_textOf, hempty] at h
  exact absurd h (Nat.lt_irrefl 0)

/-- Wherever the construct is there, it takes at least one byte. -/
def Construct.MovesOn (c : Construct κ) : Prop :=
  ∀ s ps, c s = some ps → 0 < Text.byteLength (textOf ps)

/-- Wherever the step goes on, it takes at least one byte. -/
def StepMovesOn (step : σ → List Char → Option (List (Piece κ) × σ)) : Prop :=
  ∀ state s ps next, s ≠ [] → step state s = some (ps, next) → 0 < Text.byteLength (textOf ps)

/-- Whatever is set into a literal takes at least one byte. -/
def Turn.MovesOn (turn : List Char → Turn κ) : Prop :=
  ∀ s ps, turn s = .aside ps → 0 < Text.byteLength (textOf ps)

theorem Construct.Advances.movesOn {c : Construct κ} (h : c.Advances) : c.MovesOn :=
  fun s ps hps ↦ Piece.byteLength_textOf_pos (h s ps hps)

theorem StepAdvances.movesOn {step : σ → List Char → Option (List (Piece κ) × σ)}
    (h : StepAdvances step) : StepMovesOn step :=
  fun state s ps next hs hps ↦ Piece.byteLength_textOf_pos (h state s ps next hs hps)

theorem Turn.Advances.movesOn {turn : List Char → Turn κ} (h : Turn.Advances turn) :
    Turn.MovesOn turn :=
  fun s ps hps ↦ Piece.byteLength_textOf_pos (h s ps hps)

variable [Text.IdentifierClasses]

/-- The loops of the scanners all move on. Those over plain characters of a literal take one
character at a time. -/
structure LoopsMoveOn : Prop where
  xmlItem : Xml.item.MovesOn
  xmlAttribute : Xml.spacedAttribute.MovesOn
  xmlAttributeValue : ∀ quote, Turn.MovesOn (Xml.valueTurn quote)
  xmlSubset : Xml.subsetPart.MovesOn
  xmlDeclaration : Xml.declarationPart.MovesOn
  htmlItem : Html.item.MovesOn
  htmlTag : Html.tagPart.MovesOn
  htmlAttributeValue : Turn.MovesOn Html.valueTurn
  htmlDoctype : StepMovesOn Html.doctypePart
  htmlRawText : Html.rawTextPart.MovesOn
  cItem : ∀ dialect strict, StepMovesOn (CFamily.item dialect strict)
  cLiteral : ∀ quote, Turn.MovesOn (CFamily.literalTurn quote)
  scriptItem : ∀ strict levels,
    StepMovesOn (JavaScript.item (JavaScript.scanLevels strict levels) strict)
  scriptString : ∀ quote, Turn.MovesOn (JavaScript.stringTurn quote)
  scriptTemplate : ∀ strict levels,
    Turn.MovesOn (JavaScript.templateTurn (JavaScript.scanLevels strict levels))
  scriptTrivia : JavaScript.triviaPart.MovesOn
  scriptAttribute : JavaScript.spacedAttribute.MovesOn
  scriptChild : ∀ strict levels,
    StepMovesOn (JavaScript.child (JavaScript.scanLevels strict levels))
  jsonItem : ∀ strict, (Json.item strict).MovesOn
  jsonEscape : ∀ s, s ≠ [] →
    0 < Text.byteLength (s.take (if Json.escapeLength s = 0 then 2 else Json.escapeLength s))

/-- Each loop of a scanner takes at least one byte of what is left. -/
theorem loopsMoveOn : LoopsMoveOn where
  xmlItem := Xml.advances_item.movesOn
  xmlAttribute := Xml.advances_spacedAttribute.movesOn
  xmlAttributeValue quote := (Xml.advances_valueTurn quote).movesOn
  xmlSubset := Xml.advances_subsetPart.movesOn
  xmlDeclaration := Xml.advances_declarationPart.movesOn
  htmlItem := Html.advances_item.movesOn
  htmlTag := Html.advances_tagPart.movesOn
  htmlAttributeValue := Html.advances_valueTurn.movesOn
  htmlDoctype := Html.advances_doctypePart.movesOn
  htmlRawText := Html.advances_rawTextPart.movesOn
  cItem dialect strict := (CFamily.advances_item dialect strict).movesOn
  cLiteral quote := (CFamily.advances_literalTurn quote).movesOn
  scriptItem strict levels :=
    (JavaScript.advances_item (JavaScript.covers_scanLevels strict levels) strict).movesOn
  scriptString quote := (JavaScript.advances_stringTurn quote).movesOn
  scriptTemplate _ _ := JavaScript.advances_templateTurn.movesOn
  scriptTrivia := JavaScript.advances_triviaPart.movesOn
  scriptAttribute := JavaScript.advances_spacedAttribute.movesOn
  scriptChild strict levels :=
    (JavaScript.advances_child (JavaScript.covers_scanLevels strict levels)).movesOn
  jsonItem strict := (Json.advances_item strict).movesOn
  jsonEscape s hs := by
    have hpos : 0 < if Json.escapeLength s = 0 then 2 else Json.escapeLength s := by
      split <;> omega
    rw [Nat.pos_iff_ne_zero, ne_eq, Text.byteLength_eq_zero, List.take_eq_nil_iff, not_or]
    exact ⟨Nat.ne_of_gt hpos, hs⟩

/-- A source is covered by its pieces in every language but XML. -/
theorem Language.covers_scan {language : Language} (h : language ≠ .xml) (strict : Bool)
    (source : List Char) : Covers (language.scan strict source) source := by
  cases language with
  | xml => exact absurd rfl h
  | html => exact Html.covers_scan source
  | c | cpp => exact CFamily.covers_scan _ strict source
  | javaScript => exact JavaScript.covers_scan strict source
  | json => exact Json.covers_scan strict source

/-- A scan ends behind the text that its pieces cover. -/
theorem Language.isBetween_read (language : Language) (options : Options) (source : List Char)
    (sink : Sink) :
    let pieces := language.scan options.strict source
    ((Cursor.ofSource sink source options).read pieces).IsBetween (textOf pieces)
      (source.drop (width pieces)) := by
  intro pieces
  have hsource := (language.fits_scan options.strict source).textOf_append_drop
  have hstart : (Cursor.ofSource sink source options).IsBetween []
      (textOf pieces ++ source.drop (width pieces)) := by
    rw [hsource]
    exact Cursor.isBetween_ofSource _ _ _
  exact hstart.read

/-- A scan reaches the end of its source exactly if its pieces cover the source. -/
theorem Language.scanInto_completes_iff (language : Language) (options : Options)
    (source : List Char) (sink : Sink) :
    (language.scanInto options source sink).2 = true ↔
      width (language.scan options.strict source) = source.length := by
  have hbetween := language.isBetween_read options source sink
  have hfits := language.fits_scan options.strict source
  have hle := hfits.width_le
  calc (language.scanInto options source sink).2 = true
      ↔ Text.byteLength (textOf (language.scan options.strict source) ++
            source.drop (width (language.scan options.strict source))) ≤
          Text.byteLength (textOf (language.scan options.strict source)) := by
        rw [← hbetween.source_eq, ← hbetween.stop_eq, ← hbetween.index_eq]
        exact decide_eq_true_iff
    _ ↔ source.drop (width (language.scan options.strict source)) = [] := by
        rw [Text.byteLength_append, ← Text.byteLength_eq_zero]
        omega
    _ ↔ width (language.scan options.strict source) = source.length := by
        rw [List.drop_eq_nil_iff]
        omega

theorem Language.poisoned_scanInto (language : Language) (options : Options) (source : List Char)
    (sink : Sink) : (language.scanInto options source sink.startScan).1.poisoned = false :=
  (language.inStep_passed options source sink _ (Cursor.read_mem_passed _ _)).accepted

/-- The scan of a source ends at its last byte in every language but XML, and it ends well. A scan
of XML ends there too or in front of what begins no item. No loop stands still on the way, and the
loops over insides end where these do. -/
theorem highlight_comesToEnd (language : Language) (options : Options) (source : List Char)
    (sink : Sink) :
    let final := (Cursor.ofSource sink.startScan source options).read
      (language.scan options.strict source)
    (language ≠ .xml → final.index = Text.byteLength source ∧
      (language.scanInto options source sink.startScan).2 = true ∧
      (highlight language options source sink).2 = .ok ()) ∧
    (language = .xml → ∃ front rest, source = front ++ rest ∧
      final.index = Text.byteLength front ∧ (rest = [] ∨ Xml.item rest = none)) ∧
    LoopsMoveOn ∧ InsidesCovered := by
  intro final
  have hfinal := language.isBetween_read options source sink.startScan
  refine ⟨?_, ?_, loopsMoveOn, insidesCovered⟩
  · intro hlanguage
    have hcovers := language.covers_scan hlanguage options.strict source
    have hindex : final.index = Text.byteLength source := by
      rw [hfinal.index_eq, hcovers.textOf_eq]
    have hend : (language.scanInto options source sink.startScan).2 = true :=
      (language.scanInto_completes_iff options source sink.startScan).2 hcovers.2
    refine ⟨hindex, hend, ?_⟩
    change language.result (language.scanInto options source sink.startScan).1.poisoned
      (language.scanInto options source sink.startScan).2 = .ok ()
    rw [language.poisoned_scanInto, hend]
    rfl
  · rintro rfl
    refine ⟨_, _, ?_, hfinal.index_eq, Xml.scan_ends source⟩
    exact (Xml.fits_scan source).textOf_append_drop.symm

end Highlight
