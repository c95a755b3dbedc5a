import Highlight.Proofs.Markup.Group
import Highlight.Proofs.Xml.Reading

/-!
# The tags that XML shows

Everything that a document shows is tags as groups and entries that are no marks of a tag. An
attribute value ends with its quote, so the stretch before that is never empty and the value shows a
string.
-/

namespace Highlight.Xml

open Construct (literal seq Shows)
open Markup
open Piece (labelled)

variable {s : List Char} {ps : List (Piece Kind)} {language : Language}

/-- A value whose reading does not begin at its quote is closed by one, and that is shown. -/
theorem exists_string {quote : Char} {part : List Char}
    (h : partsFrom .string (valueTurn quote) [] part s = some ps) :
    ∃ text, (.string, text) ∈ labelled ps := by
  refine partsFrom_induction (motive := fun _ _ ps ↦ ∃ text, (.string, text) ∈ labelled ps)
    ?_ ?_ ?_ h
  · intro part s closing hturn
    cases s with
    | nil => simp [valueTurn] at hturn
    | cons c s =>
      obtain rfl : closing = 1 := by
        unfold valueTurn at hturn
        grind
      refine ⟨part.reverse ++ [c], ?_⟩
      rw [Piece.labelled_shown, if_neg (by simp)]
      exact List.mem_singleton_self _
  · intro _ _ _ _ _ hstring
    exact hstring
  · rintro part s pieces ps _ ⟨text, hmem⟩
    refine ⟨text, ?_⟩
    rw [Piece.labelled_append, Piece.labelled_append]
    exact List.mem_append_right _ (List.mem_append_right _ hmem)

theorem shows_attributeValue : attributeValue.Shows fun value ↦
    ValueParts value ∧ (language = .xml → ∃ text, (.string, text) ∈ value) := by
  refine Construct.shows_choose fun s ↦ Construct.shows_onlyIf fun s ps h ↦ ⟨?_, fun _ ↦ ?_⟩
  · refine Construct.shows_parts composes_valueParts valueParts_string ?_ 1 s ps h
    intro t pieces hturn
    exact Construct.shows_measured composes_valueParts valueParts_escape _ t pieces
      (reference_of_valueTurn hturn)
  · exact exists_string h

theorem shows_tagAttribute : tagAttribute.Shows (Attribute language) := by
  refine Markup.shows_attribute rfl ?_
  have hspace := Construct.shows_skip composes_nil spaceLength
  refine Construct.shows_seq_silent hspace (Construct.shows_seq_silent
    (Construct.shows_skipLiteral composes_nil "=") (Construct.shows_seq_silent hspace ?_))
  exact Construct.shows_seq_singleton shows_attributeValue

theorem shows_spacedAttribute : spacedAttribute.Shows (Attribute language) :=
  Construct.shows_seq_silent (Construct.shows_skipSome composes_nil _)
    (Construct.shows_seq_singleton shows_tagAttribute)

@[simp]
theorem shows_startTag : startTag.Shows (Grouped language) := by
  refine Markup.shows_startTag rfl
    (shows_spacedAttribute.mono fun _ hattribute ↦ .single hattribute) ?_
  refine Construct.shows_seq_silent (Construct.shows_skip composes_nil _)
    (Construct.shows_seq_singleton (Construct.shows_firstOf ?_))
  simp only [List.forall_mem_cons, List.not_mem_nil, false_imp_iff, implies_true, and_true]
  constructor <;>
  · intro s ps hps
    obtain ⟨-, rfl⟩ := Construct.literal_eq_some.1 hps
    exact .intro _ (by decide) (composes_grouped _).nil

@[simp]
theorem shows_endTag : endTag.Shows (Grouped language) := Markup.shows_endTag rfl

theorem shows_instructionBody : instructionBody.Shows (· = []) := by
  intro s ps h
  unfold instructionBody at h
  simp only at h
  split at h
  · simp at h
  · split_ifs at h
    obtain rfl := Option.some.inj h
    exact Piece.labelled_hidden _

@[simp]
theorem shows_instruction : instruction.Shows (Grouped .xml) :=
  Construct.shows_seq_literal (by decide) <| Construct.shows_seq_measured rfl fun _ ↦
    Construct.shows_seq_silent shows_instructionBody <|
      Construct.shows_seq_literal (by decide) <|
        Construct.shows_seq_nil (Markup.Group.instruction rfl).grouped

@[simp]
theorem shows_comment : comment.Shows (Grouped language) := by
  intro s ps h
  unfold comment at h
  simp only at h
  split_ifs at h
  obtain rfl := Option.some.inj h
  exact Markup.grouped_framed (by simp) (by simp) _ _ _

@[simp]
theorem shows_cdata : cdata.Shows (Grouped language) := by
  intro s ps h
  unfold cdata at h
  simp only at h
  split_ifs at h
  obtain rfl := Option.some.inj h
  simp only [Piece.labelled_append, Piece.labelled_hidden, List.append_nil]
  exact (composes_grouped _).append (grouped_token (by simp) _) (grouped_token (by simp) _)

section

variable {form : List Entry → Prop} (hform : Composes form)
  (hother : ∀ kind text, kind ≠ .symPunc → form [(kind, text)]) (hequals : form [(.symPunc, ['='])])

include hform hother hequals

/-- Of what a pseudo-attribute shows, its equals sign alone is punctuation. -/
theorem shows_pieces (info : PseudoAttribute) : form (labelled info.pieces) := by
  simp only [PseudoAttribute.pieces, Piece.labelled_append, Piece.labelled_hidden, List.nil_append,
    List.append_nil]
  refine hform.append (hform.append ?_ ?_) ?_
  · exact hform.labelled_shown (hother _ _ (by simp))
  · exact hform.labelled_token hequals
  · exact hform.labelled_token (hother _ _ (by simp))

theorem shows_required (keyword : String) (valueLength : List Char → Nat) :
    (PseudoAttribute.required keyword valueLength).Shows form := by
  intro s ps h
  obtain ⟨info, -, hinfo⟩ := Option.bind_eq_some_iff.1 h
  split_ifs at hinfo
  obtain rfl := Option.some.inj hinfo
  exact shows_pieces hform hother hequals info

theorem shows_allowed (keyword : String) (valueLength : List Char → Nat) :
    (PseudoAttribute.allowed keyword valueLength).Shows form := by
  intro s ps h
  unfold PseudoAttribute.allowed at h
  simp only at h
  split at h
  · split_ifs at h
    obtain rfl := Option.some.inj h
    exact shows_pieces hform hother hequals _
  · obtain rfl := Option.some.inj h
    exact hform.nil

theorem shows_declaration : declaration.Shows form := by
  have hdirective (lit : String) : (literal .directive lit).Shows form :=
    Construct.shows_literal hform (hother _ _ (by simp))
  apply Construct.shows_seq hform
  simp only [List.forall_mem_cons]
  exact ⟨hdirective _, shows_required hform hother hequals _ _,
    shows_allowed hform hother hequals _ _, shows_allowed hform hother hequals _ _,
    Construct.shows_skip hform _, hdirective _, List.forall_mem_nil _⟩

end

/-- The equals signs of a declaration are punctuation, but no marks of a tag. -/
theorem grouped_declaration : declaration.Shows (Grouped language) :=
  shows_declaration (composes_grouped _) (fun _ _ hkind ↦ grouped_other hkind _)
    (.single (.other (List.forall_mem_singleton.2 (by decide))))

@[simp]
theorem shows_spacedLiteral (length : List Char → Nat) :
    (spacedLiteral length).Shows (Grouped language) := Markup.shows_seq (by simp)

@[simp]
theorem shows_externalId : externalId.Shows (Grouped language) := by
  refine Construct.shows_choose fun s ↦ ?_
  dsimp only
  split_ifs <;> exact Markup.shows_seq (by simp)

@[simp]
theorem shows_parameterReference : parameterReference.Shows (Grouped language) :=
  Markup.shows_measured (by simp)

@[simp]
theorem shows_declarationPart : declarationPart.Shows (Grouped language) :=
  Construct.shows_firstOf (by simp)

@[simp]
theorem shows_markupDeclaration : markupDeclaration.Shows (Grouped language) :=
  Markup.shows_seq (by simp)

@[simp]
theorem shows_subsetPart : subsetPart.Shows (Grouped .xml) := Construct.shows_firstOf (by simp)

@[simp]
theorem shows_internalSubset : internalSubset.Shows (Grouped .xml) :=
  Construct.shows_ifNext (composes_grouped _) (Markup.shows_seq (by simp))

@[simp]
theorem shows_doctype : doctype.Shows (Grouped .xml) := Markup.shows_seq (by simp)

@[simp]
theorem shows_item : item.Shows (Grouped .xml) :=
  Construct.shows_firstOf (by simp [reference, characterData])

theorem grouped_scan (s : List Char) : Grouped .xml (labelled (scan s)) := by
  have hdocument : document.Shows (Grouped .xml) :=
    Markup.shows_seq (by simp [Construct.shows_optional (composes_grouped _) grouped_declaration])
  cases hscan : document s with
  | none =>
    rw [scan, hscan]
    exact (composes_grouped _).nil
  | some ps =>
    rw [scan, hscan]
    exact hdocument s ps hscan

end Highlight.Xml
