import Highlight.Proofs.Html.Reading
import Highlight.Proofs.Xml.Group

/-!
# The tags that HTML shows

Everything that a document shows is tags as groups and entries that are no marks of a tag. The raw
text of an element stands behind the end of its start tag and shows references at most.
-/

namespace Highlight.Html

open Construct (seq Shows)
open Markup
open Piece (labelled)

theorem shows_valueParts : valueParts.Shows ValueParts := by
  refine Construct.shows_parts composes_valueParts valueParts_string (fun s ps hturn ↦ ?_) 0
  exact Construct.shows_measured composes_valueParts valueParts_escape _ s ps
    (reference_of_valueTurn hturn)

theorem shows_attributeValue : attributeValue.Shows ValueParts := by
  intro s ps h
  unfold attributeValue at h
  simp only [ite_eq_iff, reduceCtorEq, and_false, false_or] at h
  exact shows_valueParts _ ps h.2

theorem shows_assignedValue : assignedValue.Shows ValueParts := by
  refine Construct.shows_choose fun s ↦ ?_
  split_ifs
  · have hspace := Construct.shows_skip composes_valueParts spaceLength
    have hequals := Construct.shows_skipLiteral composes_valueParts "="
    exact Construct.shows_seq composes_valueParts (by simp [hspace, hequals, shows_attributeValue])
  · exact Construct.shows_seq_nil composes_valueParts.nil

theorem shows_tagAttribute : tagAttribute.Shows (Attribute .html) :=
  Markup.shows_attribute rfl <| (Construct.shows_seq_singleton shows_assignedValue).mono
    fun _ hvalue ↦ ⟨hvalue, fun hlanguage ↦ by simp at hlanguage⟩

theorem shows_straySlash : straySlash.Shows (· = []) := by
  intro s ps h
  unfold straySlash at h
  simp only at h
  split_ifs at h
  exact Construct.shows_skipLiteral composes_nil "/" s ps h

theorem shows_tagPart : tagPart.Shows (MadeOf (Attribute .html)) := by
  refine Construct.shows_firstOf ?_
  simp only [List.forall_mem_cons]
  refine ⟨Construct.shows_skipSome (composes_madeOf _) _, shows_straySlash.mono ?_,
    shows_tagAttribute.mono fun _ hattribute ↦ .single hattribute, List.forall_mem_nil _⟩
  rintro _ rfl
  exact (composes_madeOf _).nil

@[simp]
theorem shows_reference : reference.Shows (Grouped .html) := Markup.shows_measured (by simp)

theorem grouped_rawText (content : TextContent) (s : List Char) :
    Grouped .html (labelled (rawText content s)) := by
  cases content with
  | raw =>
    rw [rawText, Piece.labelled_hidden]
    exact (composes_grouped _).nil
  | escapable =>
    have hpart : rawTextPart.Shows (Grouped .html) := Construct.shows_firstOf (by simp)
    exact hpart.repeated (composes_grouped _) s

theorem shows_tagEnd (name : List Char) : (tagEnd name).Shows (TagEnd .html) := by
  intro s ps h
  unfold tagEnd at h
  simp only at h
  split_ifs at h
  · split at h <;> obtain rfl := Option.some.inj h
    · exact .intro ">" (by decide) (grouped_rawText _ _)
    · exact .intro ">" (by decide) (composes_grouped _).nil
  · obtain ⟨-, rfl⟩ := Construct.literal_eq_some.1 h
    exact .intro "/>" (by decide) (composes_grouped _).nil

@[simp]
theorem shows_startTag : startTag.Shows (Grouped .html) :=
  Construct.shows_choose fun _ ↦ Markup.shows_startTag rfl shows_tagPart
    (Construct.shows_seq_singleton (shows_tagEnd _))

@[simp]
theorem shows_endTag : endTag.Shows (Grouped .html) := Markup.shows_endTag rfl

@[simp]
theorem shows_comment : comment.Shows (Grouped .html) := by
  intro s ps h
  unfold comment at h
  simp only at h
  split_ifs at h <;> obtain rfl := Option.some.inj h
  · exact grouped_token (by simp) _
  all_goals exact Markup.grouped_framed (by simp) (by simp) _ _ _

theorem doctypeWordKind_ne (named : Bool) (word : List Char) :
    doctypeWordKind named word ≠ .symPunc := by
  unfold doctypeWordKind
  split_ifs <;> decide

theorem grouped_doctypePart (named : Bool) (s : List Char) (ps : List (Piece Kind)) (next : Bool)
    (h : doctypePart named s = some (ps, next)) : Grouped .html (labelled ps) := by
  unfold doctypePart at h
  simp only at h
  split_ifs at h <;> obtain ⟨rfl, rfl⟩ := Prod.mk.inj (Option.some.inj h)
  · exact (composes_grouped _).nil
  · exact grouped_token (by simp) _
  · exact grouped_token (by simp) _
  · exact grouped_shown (doctypeWordKind_ne _ _) _

@[simp]
theorem shows_doctype : doctype.Shows (Grouped .html) := by
  intro s ps h
  unfold doctype at h
  simp only at h
  split_ifs at h
  obtain rfl := Option.some.inj h
  rw [Piece.labelled_append, Piece.labelled_append]
  refine (composes_grouped _).append ((composes_grouped _).append ?_ ?_) ?_
  · exact grouped_token (by simp) _
  · exact shows_run (composes_grouped _) grouped_doctypePart _ _
  · exact grouped_token (by simp) _

theorem shows_item : item.Shows (Grouped .html) := Construct.shows_firstOf (by simp)

theorem grouped_scan (s : List Char) : Grouped .html (labelled (scan s)) :=
  shows_item.repeated (composes_grouped _) s

end Highlight.Html
