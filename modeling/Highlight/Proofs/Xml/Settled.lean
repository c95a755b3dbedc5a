import Highlight.Proofs.Piece.Leaving
import Highlight.Proofs.Xml.Document

/-!
# What the items of XML leave

Every item of a document but character data is settled, and since the grammar says where it ends, it
leaves the same pieces whatever follows it. A repetition within an item is followed by a mark at
which it ends, so cutting off what is behind the item does not let it end earlier or later.
-/

namespace Highlight.Xml

open Construct (Takes Leaves Settled measured skip skipSome)
open Piece (lasting textOf width)

variable {label : Kind} {ps : List (Piece Kind)} {i r t : List Char}

@[simp]
theorem settled_name : (measured label nameLength).Settled := by
  apply (Construct.renders_measured label nameLength).settled
  intro i t r h
  rw [takes_name_iff] at h ⊢
  exact ⟨h.1, Text.startsIn_of_append h.2⟩

@[simp]
theorem settled_space : (skip spaceLength : Construct Kind).Settled := by
  apply (Construct.renders_skip spaceLength).settled
  intro i t r h
  rw [takes_space_iff] at h ⊢
  exact ⟨h.1, Text.startsIn_of_append h.2⟩

@[simp]
theorem settled_someSpace : (skipSome spaceLength : Construct Kind).Settled := by
  apply (Construct.renders_skipSome spaceLength).settled
  intro i t r h
  rw [takes_someSpace_iff] at h ⊢
  exact ⟨h.1, Text.startsIn_of_append h.2⟩

/-- A stretch that a form alone decides is settled. -/
theorem settled_measured {length : List Char → Nat} {form : List Char → Prop}
    (h : ∀ {i r}, (measured label length).Takes i r ↔ form i) :
    (measured label length).Settled := by
  apply (Construct.renders_measured label length).settled
  intro i t r htakes
  rw [h] at htakes ⊢
  exact htakes

@[simp]
theorem settled_systemLiteral : (measured label systemLiteralLength).Settled :=
  settled_measured takes_systemLiteral_iff

@[simp]
theorem settled_pubidLiteral : (measured label pubidLiteralLength).Settled :=
  settled_measured takes_pubidLiteral_iff

@[simp]
theorem settled_reference : reference.Settled := settled_measured takes_reference_iff

@[simp]
theorem settled_parameterReference : parameterReference.Settled :=
  settled_measured takes_parameterReference_iff

@[simp]
theorem settled_comment : comment.Settled := by
  have hrenders : comment.Renders (Piece.framed .commentDelimiter .comment 4 3) := by
    intro s ps h
    unfold comment at h
    simp only at h
    split_ifs at h
    obtain rfl := Option.some.inj h
    rw [Piece.lasting_framed, Piece.textOf_framed]
  apply hrenders.settled
  intro i t r h
  rw [takes_comment_iff] at h ⊢
  exact h

def cdataPieces (text : List Char) : List (Piece Kind) :=
  [.token .directive (text.take 9)] ++ Piece.hidden ((text.drop 9).take (text.length - 12)) ++
    [.token .directive (text.drop (text.length - 3))]

@[simp]
theorem settled_cdata : cdata.Settled := by
  have hrenders : cdata.Renders cdataPieces := by
    intro s ps h
    obtain ⟨hn, hcovers⟩ := covers_cdata h
    have hlength : (s.take (cdataLength s)).length = cdataLength s := by
      rw [List.length_take]
      exact Nat.min_eq_left (hasRoom_cdataLength.le_length s)
    have hpieces : ps = cdataPieces (s.take (cdataLength s)) := by
      rw [cdataPieces, hlength]
      simp only [cdata, hn, if_false, Option.some.injEq] at h
      exact h.symm
    rw [hcovers.textOf_eq, hpieces]
    simp [cdataPieces]
  apply hrenders.settled
  intro i t r h
  rw [takes_cdata_iff] at h ⊢
  exact h

/-- The body of a processing instruction is decided by the mark behind it. -/
theorem settled_instructionRest :
    (Construct.seq [instructionBody, .literal .symPunc "?>"]).Settled := by
  have hrenders : (Construct.seq [instructionBody, .literal .symPunc "?>"]).Renders fun text ↦
      Piece.hidden (text.take (text.length - 2)) ++ [.token .symPunc "?>".toList] := by
    intro s ps h
    obtain ⟨qs, rs, hqs, hrs, rfl⟩ := Construct.seq_cons_eq_some.1 h
    obtain ⟨us, vs, hus, hvs, rfl⟩ := Construct.seq_cons_eq_some.1 hrs
    obtain ⟨-, rfl⟩ := Construct.literal_eq_some.1 hus
    obtain rfl := Construct.seq_nil_eq_some.1 hvs
    obtain ⟨text, rfl⟩ : ∃ text, qs = Piece.hidden text := by
      unfold instructionBody at hqs
      simp only at hqs
      split at hqs
      · simp at hqs
      · split_ifs at hqs
        exact ⟨_, (Option.some.inj hqs).symm⟩
    have hlength : (text ++ "?>".toList).length - 2 = text.length := by simp
    simp only [List.append_nil, Piece.lasting_append, Piece.lasting_hidden, Piece.textOf_append,
      Piece.textOf_hidden, Piece.textOf_cons, Piece.textOf_nil, Piece.text, hlength, List.take_left]
    rfl
  apply hrenders.settled
  intro i t r h
  simp only [Construct.takes_seq_cons_cons_iff, Construct.takes_seq_singleton_iff,
    Construct.takes_literal_iff] at h ⊢
  obtain ⟨body, _, rfl, hbody, rfl⟩ := h
  exact ⟨body, _, rfl, takes_instructionBody_iff.2 (takes_instructionBody_iff.1 hbody), rfl⟩

@[simp]
theorem settled_instruction : instruction.Settled :=
  Construct.settled_seq_cons (Construct.settled_literal _ _)
    (Construct.settled_seq_cons settled_name settled_instructionRest)

/-- A literal in front of a sequence is there where the sequence is. -/
theorem exists_of_isSome_seq_literal {lit : String} {cs : List (Construct Kind)} {s : List Char}
    (h : (Construct.seq (.literal label lit :: cs) s).isSome) : ∃ rest, s = lit.toList ++ rest := by
  obtain ⟨ps, hps⟩ := Option.isSome_iff_exists.1 h
  obtain ⟨_, _, hlit, -, -⟩ := Construct.seq_cons_eq_some.1 hps
  obtain ⟨rest, hrest⟩ := (Construct.literal_eq_some.1 hlit).1
  exact ⟨rest, hrest.symm⟩

/-- A percent sign that is bare in view of what follows stays so. -/
theorem settled_bare :
    (skipSome (fun s ↦ if isBare s then 1 else 0) : Construct Kind).Settled := by
  apply (Construct.renders_skipSome _).settled
  intro i t r h
  obtain ⟨c, rfl, hbare⟩ := takes_bare_iff.1 h
  obtain ⟨hclose, hquote, hpercent⟩ := isBare_cons_iff.1 hbare
  refine takes_bare_iff.2 ⟨c, rfl, isBare_cons_iff.2 ⟨hclose, hquote, fun hc ↦ ?_⟩⟩
  exact Text.startsIn_of_append (hpercent hc)

@[simp]
theorem settled_declarationMark : (measured label declarationMarkLength).Settled := by
  apply (Construct.renders_measured label declarationMarkLength).settled
  intro i t r h
  obtain ⟨mark, rfl, hne, hmark, hr⟩ := takes_declarationMark_iff.1 h
  exact takes_declarationMark_iff.2 ⟨mark, rfl, hne, hmark, Text.startsIn_of_append hr⟩

theorem settled_declarationPart : declarationPart.Settled :=
  Construct.settled_firstOf (by simp) declarationPartFor_of_takes (by simp [settled_bare])

@[simp]
theorem settled_markupDeclaration : markupDeclaration.Settled := by
  refine Construct.settled_seq_cons settled_declarationMark
    (Construct.settled_many_seq advances_declarationPart fits_declarationPart
      settled_declarationPart (Construct.settled_seq (by simp)) ?_)
  intro s h
  obtain ⟨rest, rfl⟩ := exists_of_isSome_seq_literal h
  exact declarationPart_close rest

theorem settled_subsetPart : subsetPart.Settled :=
  Construct.settled_firstOf (by simp) subsetPartFor_of_takes (by simp)

@[simp]
theorem settled_internalSubset : internalSubset.Settled := by
  refine Construct.settled_ifNext (Construct.settled_seq_cons (Construct.settled_literal _ _)
    (Construct.settled_many_seq advances_subsetPart fits_subsetPart settled_subsetPart
      (Construct.settled_seq (by simp)) ?_)) ?_
  · intro s h
    obtain ⟨rest, rfl⟩ := exists_of_isSome_seq_literal h
    exact subsetPart_close rest
  · intro s h
    obtain ⟨rest, rfl⟩ := exists_of_isSome_seq_literal h
    exact Text.startsWith_iff.2 ⟨rest, rfl⟩

/-- White space and the keyword stand at the front of the text. -/
def Announces (keyword : String) (s : List Char) : Prop :=
  ∃ space rest, s = space ++ (keyword.toList ++ rest) ∧ Grammar.Space space

theorem announces_iff {keyword : String} {s : List Char}
    (hkeyword : ∀ rest, Text.startsIn isSpace (keyword.toList ++ rest) = false) :
    spaceLength s ≠ 0 ∧ Text.startsWith keyword (s.drop (spaceLength s)) ↔ Announces keyword s := by
  constructor
  · rintro ⟨hn, hstart⟩
    obtain ⟨rest, hrest⟩ := Text.startsWith_iff.1 hstart
    refine ⟨s.take (spaceLength s), rest, ?_, ?_, Text.forall_mem_take_spanLength⟩
    · rw [hrest, List.take_append_drop]
    · exact Text.take_spanLength_ne_nil hn
  · rintro ⟨space, rest, rfl, hne, hspace⟩
    rw [spaceLength_append hspace (hkeyword rest), List.drop_left]
    exact ⟨List.length_eq_zero_iff.not.2 hne, Text.startsWith_iff.2 ⟨rest, rfl⟩⟩

theorem Announces.append {keyword : String} {s : List Char} (h : Announces keyword s)
    (r : List Char) : Announces keyword (s ++ r) := by
  obtain ⟨space, rest, rfl, hspace⟩ := h
  exact ⟨space, rest ++ r, by simp only [List.append_assoc], hspace⟩

theorem Announces.not_system {s : List Char} (h : Announces "PUBLIC" s) :
    ¬ Announces "SYSTEM" s := by
  rw [← announces_iff (by intro rest; rfl)] at h ⊢
  rintro ⟨-, hsystem⟩
  rw [Text.startsWith_iff] at hsystem
  rcases List.prefix_or_prefix_of_prefix hsystem (Text.startsWith_iff.1 h.2) with hboth | hboth
  · exact absurd hboth (by decide)
  · exact absurd hboth (by decide)

def systemId : Construct Kind :=
  .seq [.skip spaceLength, .literal .keyword "SYSTEM", spacedLiteral systemLiteralLength]

def publicId : Construct Kind :=
  .seq [.skip spaceLength, .literal .keyword "PUBLIC", spacedLiteral pubidLiteralLength,
    spacedLiteral systemLiteralLength]

theorem leaves_systemId_iff (h : Announces "SYSTEM" (textOf ps ++ r)) :
    externalId.Leaves ps r ↔ systemId.Leaves ps r := by
  have hsystem := (announces_iff fun _ ↦ rfl).2 h
  rw [externalId, Construct.leaves_choose_iff]
  simp only
  rw [if_pos hsystem]
  rfl

theorem leaves_publicId_iff (h : Announces "PUBLIC" (textOf ps ++ r)) :
    externalId.Leaves ps r ↔ publicId.Leaves ps r := by
  have hsystem := (not_congr (announces_iff fun _ ↦ rfl)).2 h.not_system
  have hpublic := (announces_iff fun _ ↦ rfl).2 h
  rw [externalId, Construct.leaves_choose_iff]
  simp only
  rw [if_neg hsystem, if_pos hpublic]
  rfl

theorem leaves_noExternalId_iff (hnoSystem : ¬ Announces "SYSTEM" (textOf ps ++ r))
    (hnoPublic : ¬ Announces "PUBLIC" (textOf ps ++ r)) : externalId.Leaves ps r ↔ ps = [] := by
  have hsystem := (not_congr (announces_iff fun _ ↦ rfl)).2 hnoSystem
  have hpublic := (not_congr (announces_iff fun _ ↦ rfl)).2 hnoPublic
  rw [externalId, Construct.leaves_choose_iff]
  simp only
  rw [if_neg hsystem, if_neg hpublic]
  exact Construct.leaves_seq_nil_iff

theorem settled_spacedLiteral {length : List Char → Nat}
    (h : (measured Kind.string length).Settled) : (spacedLiteral length).Settled :=
  Construct.settled_seq (by simp [h])

/-- The keyword of an external identifier tells its form whatever follows, and where there is none
no keyword appears when the text is cut off. -/
@[simp]
theorem settled_externalId : externalId.Settled := by
  intro ps t r h
  have hsystem : systemId.Settled := Construct.settled_seq (by simp [settled_spacedLiteral])
  have hpublic : publicId.Settled := Construct.settled_seq (by simp [settled_spacedLiteral])
  have hform := externalId_of_takes h.takes
  generalize htext : textOf ps = text at hform
  cases hform with
  | absent =>
    have hkeyword {keyword : String} {cs : List (Construct Kind)} (hne : keyword.toList ≠ []) :
        (Construct.seq (.skip spaceLength :: .literal .keyword keyword :: cs)).Advances :=
      Construct.advances_seq (List.mem_cons_of_mem _ List.mem_cons_self)
        (Construct.advances_literal hne)
    have hnoSystem : ¬ Announces "SYSTEM" (textOf ps ++ (t ++ r)) := fun hopen ↦
      ((leaves_systemId_iff hopen).1 h).textOf_ne_nil (hkeyword (by decide)) htext
    have hnoPublic : ¬ Announces "PUBLIC" (textOf ps ++ (t ++ r)) := fun hopen ↦
      ((leaves_publicId_iff hopen).1 h).textOf_ne_nil (hkeyword (by decide)) htext
    have hnil := (leaves_noExternalId_iff hnoSystem hnoPublic).1 h
    rw [← List.append_assoc] at hnoSystem hnoPublic
    exact (leaves_noExternalId_iff (fun hopen ↦ hnoSystem (hopen.append r))
      fun hopen ↦ hnoPublic (hopen.append r)).2 hnil
  | @system before between literal hbefore hbetween hliteral =>
    have hopen (x : List Char) : Announces "SYSTEM" (textOf ps ++ x) :=
      ⟨before, between ++ literal ++ x, by simp only [htext, List.append_assoc], hbefore⟩
    have hleaves := (leaves_systemId_iff (hopen (t ++ r))).1 h
    exact (leaves_systemId_iff (hopen t)).2 (hsystem ps t r hleaves)
  | @pubid before between pubid behind literal hbefore hbetween hpubid hbehind hliteral =>
    have hopen (x : List Char) : Announces "PUBLIC" (textOf ps ++ x) :=
      ⟨before, between ++ pubid ++ behind ++ literal ++ x,
        by simp only [htext, List.append_assoc], hbefore⟩
    have hleaves := (leaves_publicId_iff (hopen (t ++ r))).1 h
    exact (leaves_publicId_iff (hopen t)).2 (hpublic ps t r hleaves)

@[simp]
theorem settled_doctype : doctype.Settled := Construct.settled_seq (by simp)

@[simp]
theorem settled_attributeValue : attributeValue.Settled := by
  intro ps t r h
  obtain ⟨us, htext, hus⟩ := exists_attributeValue (takes_attributeValue_iff.1 h.takes)
  obtain ⟨qs, hqs, rfl⟩ := h
  rw [hus] at hqs
  obtain rfl := Option.some.inj hqs
  exact ⟨us, hus t, rfl⟩

@[simp]
theorem settled_tagAttribute : tagAttribute.Settled := Construct.settled_seq (by simp)

theorem settled_spacedAttribute : spacedAttribute.Settled := Construct.settled_seq (by simp)

/-- What the next character calls for at the end of a tag. -/
def tagEndFor (label : Kind) (s : List Char) : Construct Kind :=
  if Text.startsWith ">" s then .literal label ">" else .literal label "/>"

theorem tagEndFor_of_takes : ∀ d ∈ [Construct.literal label ">", .literal label "/>"],
    ∀ a b, d.Takes a b → tagEndFor label (a ++ b) = d := by
  simp only [List.forall_mem_cons]
  refine ⟨fun a b h ↦ ?_, fun a b h ↦ ?_, List.forall_mem_nil _⟩
  · rw [Construct.takes_literal_iff.1 h]
    rfl
  · rw [Construct.takes_literal_iff.1 h]
    rfl

theorem settled_tagEnd :
    (Construct.firstOf [.literal label ">", .literal label "/>"]).Settled :=
  Construct.settled_firstOf (by simp) tagEndFor_of_takes (by simp)

@[simp]
theorem settled_startTag : startTag.Settled := by
  refine Construct.settled_seq_cons (Construct.settled_literal _ _)
    (Construct.settled_seq_cons settled_name
      (Construct.settled_many_seq advances_spacedAttribute fits_spacedAttribute
        settled_spacedAttribute (Construct.settled_seq (by simp [settled_tagEnd])) ?_))
  intro s h
  have hfits : (Construct.seq [.skip spaceLength,
      .firstOf [.literal Kind.symPunc ">", .literal Kind.symPunc "/>"]]).Fits :=
    Construct.fits_seq (by simp [Construct.fits_firstOf])
  obtain ⟨_, rest, rfl, htakes⟩ := hfits.exists_takes h
  simp only [Construct.takes_seq_cons_cons_iff, Construct.takes_seq_singleton_iff, takes_space_iff,
    takes_tagEnd_iff] at htakes
  obtain ⟨space, closing, rfl, ⟨hspace, -⟩, hclosing⟩ := htakes
  rw [List.append_assoc]
  exact spacedAttribute_close hspace hclosing

@[simp]
theorem settled_endTag : endTag.Settled := Construct.settled_seq (by simp)

/-! ## Items -/

/-- Character data is no item of the grammar, since it holds no mark that begins one. -/
theorem not_item_of_characterData (h : characterData.Takes i r) : ¬ Grammar.Item i := by
  intro hitem
  obtain ⟨hne, hdata, -⟩ := characterData_of_takes h
  obtain ⟨c, s, rfl⟩ := List.exists_cons_of_ne_nil hne
  have hmark := hitem.startsIn_append []
  rw [List.append_nil, Text.startsIn_cons, Bool.or_eq_true, beq_iff_eq, beq_iff_eq] at hmark
  rcases hmark with rfl | rfl
  · exact absurd List.mem_cons_self hdata.noMarkup
  · exact absurd List.mem_cons_self hdata.noReference

/-- Where what an item leaves is no character data, it stays when the text is cut off. -/
theorem leaves_item_cut (hitem : Grammar.Item (textOf ps)) (h : item.Leaves ps (t ++ r)) :
    item.Leaves ps t := by
  have hsettled : ∀ d ∈ [comment, cdata, instruction, doctype, endTag, startTag, reference],
      d.Settled := by simp
  obtain ⟨d, hd, hleaves⟩ := Construct.exists_leaves_of_firstOf h
  refine Construct.leaves_firstOf (by simp) itemFor_of_takes hd ?_
  have hsplit : d ∈ [comment, cdata, instruction, doctype, endTag, startTag, reference] ++
      [characterData] := hd
  rcases List.mem_append.1 hsplit with hmarkup | hdata
  · exact hsettled d hmarkup ps t r hleaves
  · obtain rfl := List.mem_singleton.1 hdata
    exact absurd hitem (not_item_of_characterData hleaves.takes)

/-- An item of the grammar leaves the same pieces whatever follows it. -/
theorem leaves_item (hitem : Grammar.Item (textOf ps)) (h : item.Leaves ps r) (t : List Char) :
    item.Leaves ps t := by
  obtain ⟨qs, htext, hqs⟩ := (takes_item hitem t).exists_leaves
  have hcut : item.Leaves qs [] := leaves_item_cut (htext ▸ hitem) hqs
  rw [(leaves_item_cut hitem h : item.Leaves ps []).unique hcut htext.symm]
  exact hqs

end Highlight.Xml
