import Highlight.Proofs.Coverage
import Highlight.Proofs.Xml.Declaration
import Highlight.Text.Unicode

/-!
# The prolog

A document may begin with an XML declaration. Where its grammar derives a front part of the source,
the tokens of the declaration come first and the items are read from its end on. Where it derives
none, what was reported of a declaration is taken back, and the items are read as if none had been
tried: a declaration with something wrong in it is an instruction like any other.
-/

namespace Highlight

namespace Xml

open Piece (textOf width)

variable {ps qs : List (Piece Kind)} {options : Options} {source rest : List Char} {sink : Sink}

/-- White space is passed over, and nothing else is. -/
structure PassesSpace (ps : List (Piece Kind)) : Prop where
  gaps : Piece.GapsIn Grammar.OptionalSpace ps
  labels : ∀ kind text, .token kind text ∈ ps → ∀ c ∈ text, isSpace c = false

theorem PassesSpace.append (hps : PassesSpace ps) (hqs : PassesSpace qs) :
    PassesSpace (ps ++ qs) where
  gaps := Piece.gapsIn_append.2 ⟨hps.gaps, hqs.gaps⟩
  labels kind text h :=
    (List.mem_append.1 h).elim (hps.labels kind text) (hqs.labels kind text)

theorem passesSpace_hidden {space : List Char} (h : Grammar.OptionalSpace space) :
    PassesSpace (Piece.hidden space) where
  gaps := Piece.gapsIn_hidden h
  labels kind text hmem := by
    unfold Piece.hidden at hmem
    split_ifs at hmem <;> simp at hmem

theorem passesSpace_token {kind : Kind} {text : List Char} (h : ∀ c ∈ text, isSpace c = false) :
    PassesSpace [.token kind text] where
  gaps := Piece.gapsIn_token kind text
  labels := by
    rintro _ _ hmem
    obtain ⟨rfl, rfl⟩ := Piece.token.inj (List.mem_singleton.1 hmem)
    exact h

theorem passesSpace_literal {kind : Kind} {lit : String} (h : lit.toList.any isSpace = false) :
    PassesSpace [.token kind lit.toList] :=
  passesSpace_token fun c hc ↦ by simpa using List.any_eq_false.1 h c hc

theorem not_isSpace_of_isEncodingChar {c : Char} (h : isEncodingChar c) : isSpace c = false := by
  rw [Bool.eq_false_iff, isSpace]
  intro hspace
  simp only [Bool.or_eq_true, beq_iff_eq] at hspace
  rcases hspace with ((rfl | rfl) | rfl) | rfl <;> exact absurd h (by decide)

theorem Grammar.PseudoAttribute.passesSpace {keyword : String} {value : List Char → Prop}
    (h : Grammar.PseudoAttribute keyword value ps) (hkeyword : keyword.toList.any isSpace = false)
    (hvalue : ∀ s, value s → ∀ c ∈ s, isEncodingChar c) : PassesSpace ps := by
  obtain @⟨space, before, behind, s, quote, hspace, hbefore, hbehind, hquote, hs⟩ := h
  have hstring : ∀ c ∈ [quote] ++ s ++ [quote], isSpace c = false := by
    have hends : ∀ c ∈ [quote], isSpace c = false :=
      List.forall_mem_singleton.2 (not_isSpace_quote hquote)
    have hinside : ∀ c ∈ s, isSpace c = false :=
      fun c hc ↦ not_isSpace_of_isEncodingChar (hvalue s hs c hc)
    exact List.forall_mem_append.2 ⟨List.forall_mem_append.2 ⟨hends, hinside⟩, hends⟩
  exact (((((passesSpace_hidden hspace.2).append (passesSpace_literal hkeyword)).append
    (passesSpace_hidden hbefore)).append (passesSpace_literal rfl)).append
      (passesSpace_hidden hbehind)).append (passesSpace_token hstring)

theorem Grammar.Optional.passesSpace {form : List (Piece Kind) → Prop}
    (h : Grammar.Optional form ps) (hform : ∀ qs, form qs → PassesSpace qs) : PassesSpace ps := by
  cases h with
  | absent => exact ⟨Piece.gapsIn_nil, fun _ _ hmem ↦ absurd hmem List.not_mem_nil⟩
  | present h => exact hform _ h

/-- The gaps of an XML declaration are all its white space. -/
theorem Grammar.XmlDeclaration.passesSpace (h : Grammar.XmlDeclaration ps) : PassesSpace ps := by
  obtain @⟨version, encoding, standalone, space, hversion, hencoding, hstandalone, hspace⟩ := h
  have hversionSpace := hversion.passesSpace rfl fun _ ↦ Grammar.VersionNumber.isEncodingChar
  have hencodingSpace := hencoding.passesSpace fun _ hqs ↦
    hqs.passesSpace rfl fun _ ↦ Grammar.EncodingName.isEncodingChar
  have hstandaloneSpace := hstandalone.passesSpace fun _ hqs ↦
    hqs.passesSpace rfl fun _ ↦ Grammar.Standalone.isEncodingChar
  exact (((((passesSpace_literal rfl).append hversionSpace).append hencodingSpace).append
    hstandaloneSpace).append (passesSpace_hidden hspace)).append (passesSpace_literal rfl)

def scanItems (options : Options) (source : List Char) (begin : Nat) (sink : Sink) :
    Sink × Except HighlightError Unit :=
  let cursor := Cursor.ofRange sink source begin (Text.byteLength source) options
  let cursor := cursor.read ((Construct.many item cursor.remainder).getD [])
  (cursor.sink, Language.xml.result cursor.sink.poisoned cursor.atEnd)

variable [Text.IdentifierClasses]

/-- Behind the prolog there is nothing but the loop over items. -/
theorem highlight_eq_scanItems {after : Sink}
    (hprolog : Construct.optional declaration source = some ps)
    (hread : (Cursor.ofSource sink.startScan source options).read ps =
      Cursor.ofRange after source (Text.byteLength (textOf ps)) (Text.byteLength source) options) :
    highlight .xml options source sink =
      scanItems options source (Text.byteLength (textOf ps)) after := by
  obtain ⟨prolog, hsome, hscan⟩ := scan_eq source
  obtain rfl := Option.some.inj (hprolog.symm.trans hsome)
  let cursor := Cursor.ofRange after source (Text.byteLength (textOf ps)) (Text.byteLength source)
    options
  have hsplit :=
    ((Construct.fits_optional fits_declaration).read source ps hprolog).textOf_append_drop
  have hbetween : cursor.IsBetween (textOf ps) (source.drop (width ps)) := ⟨hsplit.symm, rfl, rfl⟩
  have hitems : (Cursor.ofSource sink.startScan source options).read
      (Language.xml.scan options.strict source) =
        cursor.read ((Construct.many item cursor.remainder).getD []) := by
    change Cursor.read _ (scan source) = _
    rw [hscan, Cursor.read_append, hread, hbetween.remainder_eq]
    rfl
  simp only [highlight, Language.scanInto, hitems]
  rfl

/-- A declaration that is not there leaves no trace. -/
theorem highlight_eq_scanItems_of_none (h : declaration source = none) :
    highlight .xml options source sink = scanItems options source 0 sink.startScan := by
  have hprolog : Construct.optional declaration source =
      some (Piece.withdrawal (declaration.trail source)) := by
    simp only [Construct.optional, h, Option.getD_none]
  have hstart := Cursor.inStep_ofSource (Sink.wellFormed_startScan sink)
    (Sink.currentScan_startScan sink) rfl source options
  have hread : (Cursor.ofSource sink.startScan source options).read
      (Piece.withdrawal (declaration.trail source)) =
        Cursor.ofSource sink.startScan source options := by
    apply hstart.read_withdrawal
    rw [(Cursor.isBetween_ofSource _ _ _).remainder_eq]
    exact fits_declaration.trail source
  have hbytes : Text.byteLength (textOf (Piece.withdrawal (declaration.trail source))) = 0 := by
    rw [Piece.textOf_withdrawal, Text.byteLength_nil]
  calc
    _ = scanItems options source
        (Text.byteLength (textOf (Piece.withdrawal (declaration.trail source))))
        sink.startScan := by
      apply highlight_eq_scanItems hprolog
      rw [hread, hbytes]
      rfl
    _ = scanItems options source 0 sink.startScan := by rw [hbytes]

/-- The tokens of pieces come first in the scan of a source, which goes on behind them with the
items. -/
structure BeginsWith (options : Options) (source : List Char) (sink : Sink)
    (ps : List (Piece Kind)) : Prop where
  shown : (Piece.tokens 0 ps).map (fun token ↦ (token.kind, token.text source)) =
    Piece.labelled ps
  /-- Every character of the pieces but white space is covered, and by one token only. -/
  covered : ∀ front c behind, textOf ps = front ++ c :: behind →
    (Piece.tokens 0 ps).countP (·.covers (Text.byteLength front)) = if isSpace c then 0 else 1
  within : ∀ token ∈ Piece.tokens 0 ps, token.stop ≤ Text.byteLength (textOf ps)
  first : ∃ behind, (highlight .xml options source sink).1.currentScan.toList =
    Piece.tokens 0 ps ++ behind ∧ ∀ token ∈ behind, Text.byteLength (textOf ps) ≤ token.begin
  goesOn : highlight .xml options source sink =
    scanItems options source (Text.byteLength (textOf ps))
      { tokens := sink.tokens ++ (Piece.tokens 0 ps).toArray, scanStart := sink.tokens.size }

/-- A well-formed declaration is read first, and the loop over items begins behind it. -/
theorem beginsWith_of_declaration {strict : Bool} (h : Grammar.XmlDeclaration ps)
    (hsource : source = textOf ps ++ rest) :
    BeginsWith { coalescing := false, strict } source sink ps := by
  obtain ⟨qs, hqs, hlasting⟩ := leaves_declaration_iff (r := rest).2 h
  rw [← hsource] at hqs
  have htext : textOf qs = textOf ps := by rw [← hlasting, Piece.textOf_lasting]
  have htokens : Piece.tokens 0 qs = Piece.tokens 0 ps := by
    rw [← hlasting, Piece.tokens_lasting]
  have hprolog : Construct.optional declaration source = some qs := by
    simp only [Construct.optional, hqs, Option.getD_some]
  refine ⟨?_, fun front c behind hchar ↦ ?_, fun token htoken ↦ ?_, ?_, ?_⟩
  · have hshown := Piece.map_text_tokens [] rest ps
    rwa [List.nil_append, ← hsource] at hshown
  · rw [← Nat.zero_add (Text.byteLength front)]
    exact Piece.countP_covers h.passesSpace.gaps h.passesSpace.labels hchar
  · have hbounds := Piece.bounds_of_mem_tokens htoken
    omega
  · obtain ⟨prolog, hsome, hscan⟩ := scan_eq source
    obtain rfl := Option.some.inj (hprolog.symm.trans hsome)
    rw [currentScan_highlight_plain, Language.scan, hscan, Piece.tokens_append, htokens, htext,
      Nat.zero_add]
    exact ⟨_, rfl, fun token htoken ↦ (Piece.bounds_of_mem_tokens htoken).1⟩
  · rw [← htext, ← htokens]
    apply highlight_eq_scanItems hprolog
    have hstart := Cursor.inStep_ofSource (Sink.wellFormed_startScan sink)
      (Sink.currentScan_startScan sink) rfl source { coalescing := false, strict }
    have hfits : Piece.Fits qs
        (Cursor.ofSource sink.startScan source { coalescing := false, strict }).remainder := by
      rw [(Cursor.isBetween_ofSource _ _ _).remainder_eq]
      exact fits_declaration.read source qs hqs
    rw [hstart.read_eq rfl hfits]
    simp only [Cursor.ofSource, Cursor.ofRange, Nat.zero_add]
    rfl

end Xml

open Piece (textOf)

/-- Where its grammar derives an XML declaration at the front of a source, the tokens of that come
first, and the items are read from its end on. Where it derives none, the items are read from the
beginning on. -/
theorem highlight_xml_prolog [Text.IdentifierClasses] (source : List Char) (sink : Sink) :
    (∀ strict ps rest, Xml.Grammar.XmlDeclaration ps → source = textOf ps ++ rest →
      Xml.BeginsWith { coalescing := false, strict } source sink ps) ∧
    ((∀ ps rest, Xml.Grammar.XmlDeclaration ps → source ≠ textOf ps ++ rest) →
      ∀ options, highlight .xml options source sink =
        Xml.scanItems options source 0 sink.startScan) := by
  refine ⟨fun strict ps rest ↦ Xml.beginsWith_of_declaration, fun hnone options ↦ ?_⟩
  apply Xml.highlight_eq_scanItems_of_none
  by_contra hsome
  obtain ⟨i, r, hsplit, htakes⟩ :=
    Xml.fits_declaration.exists_takes (Option.isSome_iff_ne_none.2 hsome)
  obtain ⟨ps, rfl, hleaves⟩ := htakes.exists_leaves
  exact hnone ps r (Xml.leaves_declaration_iff.1 hleaves) hsplit

/-- An encoding is shown with the declaration. Where the white space in front of it is missing, the
declaration is an instruction. -/
theorem highlight_xml_prolog_encoding :
    let source := "<?xml version='1.0' encoding = \"UTF-8\" ?><a/>".toList
    let ps : List (Piece Kind) := [
      .token .directive "<?xml".toList, .gap " ".toList, .token .markupAttr "version".toList,
      .token .symPunc "=".toList, .token .string "'1.0'".toList, .gap " ".toList,
      .token .markupAttr "encoding".toList, .gap " ".toList, .token .symPunc "=".toList,
      .gap " ".toList, .token .string "\"UTF-8\"".toList, .gap " ".toList,
      .token .directive "?>".toList]
    let instruction := "<?xml version='1.0'encoding='UTF-8'?>".toList
    Xml.BeginsWith { coalescing := false } source .empty ps ∧
      highlight .xml {} instruction .empty =
        Xml.scanItems {} instruction 0 Sink.empty.startScan := by
  intro source ps instruction
  have hspace : Xml.Grammar.OptionalSpace " ".toList := List.forall_mem_singleton.2 rfl
  have hnumber : Xml.Grammar.VersionNumber "1.0".toList :=
    @Xml.Grammar.VersionNumber.mk "0".toList (by decide) (List.forall_mem_singleton.2 rfl)
  have hname : Xml.Grammar.EncodingName "UTF-8".toList := by
    refine @Xml.Grammar.EncodingName.mk 'U' "TF-8".toList rfl ?_
    change ∀ c ∈ ['T', 'F', '-', '8'], _
    simp only [List.forall_mem_cons]
    exact ⟨rfl, rfl, rfl, rfl, List.forall_mem_nil _⟩
  have hversion := @Xml.Grammar.PseudoAttribute.mk "version" Xml.Grammar.VersionNumber
    " ".toList [] [] "1.0".toList '\'' ⟨by decide, hspace⟩ (List.forall_mem_nil _)
    (List.forall_mem_nil _) rfl hnumber
  have hencoding := @Xml.Grammar.PseudoAttribute.mk "encoding" Xml.Grammar.EncodingName
    " ".toList " ".toList " ".toList "UTF-8".toList '"' ⟨by decide, hspace⟩ hspace hspace rfl hname
  have hps : Xml.Grammar.XmlDeclaration ps := .mk hversion (.present hencoding) .absent hspace
  have hnone : Xml.declaration instruction = none := by
    rw [← Option.isNone_iff_eq_none]
    decide +kernel
  have hsource : source = Piece.textOf ps ++ "<a/>".toList := by decide +kernel
  exact ⟨(highlight_xml_prolog source .empty).1 false ps "<a/>".toList hps hsource,
    (highlight_xml_prolog instruction .empty).2 (fun ps rest h hsplit ↦
      (Xml.leaves_declaration_iff.2 h).takes.ne_none hsplit.symm hnone) {}⟩

end Highlight
