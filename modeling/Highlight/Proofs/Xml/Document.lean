import Highlight.Proofs.Progress
import Highlight.Proofs.Xml.Declaration
import Highlight.Proofs.Xml.Tag

/-!
# Documents that are read to their end

The scanner of XML accepts exactly the documents of the grammar. It tries the forms of an item in an
order and never goes back behind an item that it has read. That loses nothing, since the first
characters of an item tell its form and no item is the beginning of another.
-/

namespace Highlight.Xml

open Construct (Takes TakesMany)
open Piece (textOf width)

variable {ps : List (Piece Kind)} {i r : List Char}

def itemFor : List Char → Construct Kind
  | '<' :: '!' :: '-' :: _ => comment
  | '<' :: '!' :: '[' :: _ => cdata
  | '<' :: '!' :: _ => doctype
  | '<' :: '?' :: _ => instruction
  | '<' :: '/' :: _ => endTag
  | '<' :: _ => startTag
  | '&' :: _ => reference
  | _ => characterData

theorem itemFor_startTag (h : Grammar.StartTag i) (r : List Char) :
    itemFor (i ++ r) = startTag := by
  obtain @⟨_, attributes, space, closing, @⟨c, s, hc, -⟩, -, -, -⟩ := h
  have hmark {d : Char} (hd : isNameChar d = false) : c ≠ d := by
    rintro rfl
    rw [isNameChar_of_isNameStart hc] at hd
    exact absurd hd (by decide)
  have hcomment : c ≠ '!' := hmark (not_isNameChar_of_mem (by decide))
  have hinstruction : c ≠ '?' := hmark (not_isNameChar_of_mem (by decide))
  have hendTag : c ≠ '/' := hmark (not_isNameChar_of_mem (by decide))
  change itemFor ('<' :: c :: (s ++ attributes ++ space ++ closing ++ r)) = startTag
  simp [itemFor, hcomment, hinstruction, hendTag]

theorem itemFor_characterData {c : Char} {s : List Char} (hmarkup : c ≠ '<')
    (hreference : c ≠ '&') : itemFor (c :: s) = characterData := by
  simp [itemFor, hmarkup, hreference]

/-- The first characters of what is taken tell which form it has. -/
theorem itemFor_of_takes :
    ∀ d ∈ [comment, cdata, instruction, doctype, endTag, startTag, reference, characterData],
      ∀ a b, d.Takes a b → itemFor (a ++ b) = d := by
  simp only [List.forall_mem_cons]
  refine ⟨fun a b h ↦ ?_, fun a b h ↦ ?_, fun a b h ↦ ?_, fun a b h ↦ ?_, fun a b h ↦ ?_,
    fun a b h ↦ ?_, fun a b h ↦ ?_, fun a b h ↦ ?_, List.forall_mem_nil _⟩
  · obtain ⟨-, -⟩ := takes_comment_iff.1 h
    rfl
  · obtain ⟨-⟩ := takes_cdata_iff.1 h
    rfl
  · obtain ⟨-, -, -⟩ := takes_instruction_iff.1 h
    rfl
  · obtain ⟨-, -, -, -, -⟩ := takes_doctype_iff.1 h
    rfl
  · obtain ⟨-, -⟩ := takes_endTag_iff.1 h
    rfl
  · exact itemFor_startTag (takes_startTag_iff.1 h) b
  · obtain ⟨s, rfl, -⟩ := (takes_reference_iff.1 h).exists_cons
    rfl
  · obtain ⟨hne, hdata, -⟩ := characterData_of_takes h
    obtain ⟨c, s, rfl⟩ := List.exists_cons_of_ne_nil hne
    apply itemFor_characterData
    · exact ne_of_mem_of_not_mem List.mem_cons_self hdata.noMarkup
    · exact ne_of_mem_of_not_mem List.mem_cons_self hdata.noReference

theorem takes_item_iff : item.Takes i r ↔ (itemFor (i ++ r)).Takes i r := by
  apply Construct.takes_firstOf_iff
  · simp
  · intro s
    unfold itemFor
    split <;> simp
  · exact itemFor_of_takes

/-- What is read as an item of the scanner is an item of the grammar or character data. -/
theorem item_of_takes (h : item.Takes i r) : Grammar.Item i ∨ characterData.Takes i r := by
  obtain ⟨c, hc, htakes⟩ := Construct.exists_takes_of_firstOf h
  simp only [List.mem_cons, List.not_mem_nil, or_false] at hc
  rcases hc with rfl | rfl | rfl | rfl | rfl | rfl | rfl | rfl
  · exact .inl (.comment (takes_comment_iff.1 htakes))
  · exact .inl (.cdata (takes_cdata_iff.1 htakes))
  · exact .inl (.instruction (takes_instruction_iff.1 htakes))
  · exact .inl (.doctype (takes_doctype_iff.1 htakes))
  · exact .inl (.endTag (takes_endTag_iff.1 htakes))
  · exact .inl (.startTag (takes_startTag_iff.1 htakes))
  · exact .inl (.reference (takes_reference_iff.1 htakes))
  · exact .inr htakes

/-- What a document calls for is an item of it. -/
theorem takes_item_of_itemFor {c : Construct Kind} (hcalled : itemFor (i ++ r) = c)
    (h : c.Takes i r) : item.Takes i r := by
  apply takes_item_iff.2
  rw [hcalled]
  exact h

/-- An item of the grammar is read whatever follows it. -/
theorem takes_item (h : Grammar.Item i) (r : List Char) : item.Takes i r := by
  cases h with
  | comment h =>
    apply takes_item_of_itemFor _ (takes_comment_iff.2 h)
    cases h
    rfl
  | cdata h =>
    apply takes_item_of_itemFor _ (takes_cdata_iff.2 h)
    cases h
    rfl
  | instruction h =>
    apply takes_item_of_itemFor _ (takes_instruction_iff.2 h)
    cases h
    rfl
  | doctype h =>
    apply takes_item_of_itemFor _ (takes_doctype_iff.2 h)
    cases h
    rfl
  | endTag h =>
    apply takes_item_of_itemFor _ (takes_endTag_iff.2 h)
    cases h
    rfl
  | startTag h =>
    apply takes_item_of_itemFor _ (takes_startTag_iff.2 h)
    exact itemFor_startTag h r
  | reference h =>
    apply takes_item_of_itemFor _ (takes_reference_iff.2 h)
    obtain ⟨s, rfl, -⟩ := h.exists_cons
    rfl

/-- An item begins with one of the two marks that end character data. -/
theorem Grammar.Item.startsIn_append (h : Grammar.Item i) (r : List Char) :
    Text.startsIn (fun c ↦ c == '<' || c == '&') (i ++ r) := by
  cases h with
  | comment h | cdata h | instruction h | doctype h | endTag h | startTag h =>
    cases h
    rfl
  | reference h =>
    obtain ⟨s, rfl, -⟩ := h.exists_cons
    rfl

theorem takes_item_characterData (hne : i ≠ []) (hi : Grammar.CharacterData i)
    (hr : r = [] ∨ Text.startsIn (fun c ↦ c == '<' || c == '&') r) : item.Takes i r := by
  apply takes_item_of_itemFor _ (takes_characterData hne hi hr)
  obtain ⟨c, s, rfl⟩ := List.exists_cons_of_ne_nil hne
  apply itemFor_characterData
  · exact ne_of_mem_of_not_mem List.mem_cons_self hi.noMarkup
  · exact ne_of_mem_of_not_mem List.mem_cons_self hi.noReference

/-- Text that an item or the end of a document follows holds no mark that ends it. -/
theorem eq_nil_of_endsData (hi : Grammar.CharacterData i)
    (hr : r = [] ∨ Text.startsIn (fun c ↦ c == '<' || c == '&') r) (h : endsData (i ++ r)) :
    i = [] := by
  by_contra hne
  have htakes := takes_characterData hne hi hr
  have hlength := ((measures_characterData.takes_iff dataLength_le).1 htakes).2
  have hstart := (dataLength_append_iff.1 hlength).2 0 (List.length_pos_iff.2 hne)
  rw [List.drop_zero, h] at hstart
  exact absurd hstart (by decide)

/-- Character data in front of a document makes a document with it where something ends it. -/
theorem document_append (hi : Grammar.CharacterData i) (h : Grammar.Document r)
    (hends : r = [] ∨ endsData r) : Grammar.Document (i ++ r) := by
  cases h with
  | last htext =>
    have hr : r = [] := by
      rcases hends with hr | hends
      · exact hr
      · exact eq_nil_of_endsData htext (.inl rfl) (by rwa [List.append_nil])
    rw [hr, List.append_nil]
    exact .last hi
  | @next text item rest htext hitem hrest =>
    have hmark := hitem.startsIn_append rest
    have hnil : text = [] := by
      rcases hends with hr | hends
      · exact (List.append_eq_nil_iff.1 (List.append_eq_nil_iff.1 hr).1).1
      · rw [List.append_assoc] at hends
        exact eq_nil_of_endsData htext (.inr hmark) hends
    rw [hnil, List.nil_append, ← List.append_assoc]
    exact .next hi hitem hrest

theorem characterData_nil : Grammar.CharacterData [] := ⟨by simp, by simp, by simp⟩

/-- Reading items up to the end of a text reads a document. -/
theorem takesMany_item_iff : TakesMany item i [] ↔ Grammar.Document i := by
  constructor
  · intro h
    generalize hrest : ([] : List Char) = rest at h
    induction h with
    | nil _ => exact .last characterData_nil
    | @cons a b _ ha _ ih =>
      subst hrest
      rw [List.append_nil] at ha
      rcases item_of_takes ha with hitem | hdata
      · exact .next characterData_nil hitem (ih rfl)
      · obtain ⟨-, htext, hends⟩ := characterData_of_takes hdata
        exact document_append htext (ih rfl) hends
  · intro h
    have hnil : TakesMany item [] [] := .nil (advances_item.eq_none fits_item)
    induction h with
    | @last text htext =>
      by_cases hne : text = []
      · rw [hne]
        exact hnil
      · rw [← List.append_nil text]
        exact .cons (takes_item_characterData hne htext (.inl rfl)) hnil
    | @next text item rest htext hitem _ ih =>
      have hinner := TakesMany.cons (takes_item hitem _) ih
      rw [List.append_assoc]
      by_cases hne : text = []
      · rw [hne]
        exact hinner
      · refine .cons (takes_item_characterData hne htext (.inr ?_)) hinner
        rw [List.append_assoc]
        exact hitem.startsIn_append _

/-- White space begins a pseudo-attribute, and no question mark stands in it. -/
theorem Grammar.PseudoAttribute.startsIn_and_not_mem {keyword : String} {value : List Char → Prop}
    (h : Grammar.PseudoAttribute keyword value ps) (hkeyword : '?' ∉ keyword.toList)
    (hvalue : ∀ s, value s → ∀ c ∈ s, isEncodingChar c) :
    Text.startsIn isSpace (textOf ps) ∧ '?' ∉ textOf ps := by
  obtain @⟨space, before, behind, s, quote, hspace, hbefore, hbehind, hquote, hs⟩ := h
  have hspaces {t : List Char} (ht : Grammar.OptionalSpace t) : '?' ∉ t :=
    fun hmem ↦ absurd (ht '?' hmem) (by decide)
  have hmark : '?' ≠ quote := by
    rintro rfl
    exact absurd hquote (by decide)
  have hinside : '?' ∉ s := fun hmem ↦ absurd (hvalue s hs '?' hmem) (by decide)
  constructor
  · obtain ⟨c, rest, rfl⟩ := List.exists_cons_of_ne_nil hspace.1
    exact hspace.2 c List.mem_cons_self
  · simp [Piece.text, hspaces hspace.2, hspaces hbefore, hspaces hbehind, hkeyword, hmark,
      hinside]

theorem Grammar.Optional.not_mem {form : List (Piece Kind) → Prop} (h : Grammar.Optional form ps)
    (hform : ∀ qs, form qs → '?' ∉ textOf qs) : '?' ∉ textOf ps := by
  cases h with
  | absent => exact List.not_mem_nil
  | present h => exact hform _ h

/-- An XML declaration that is read could be read as a processing instruction as well. -/
theorem instruction_of_declaration (h : declaration.Takes i r) : Grammar.Instruction i := by
  obtain ⟨ps, rfl, hleaves⟩ := h.exists_leaves
  obtain @⟨version, encoding, standalone, space, hversion, hencoding, hstandalone, hspace⟩ :=
    leaves_declaration_iff.1 hleaves
  have hxml : Grammar.Name "xml".toList := by
    change Grammar.Name ['x', 'm', 'l']
    apply Grammar.Name.mk
    · rfl
    · simp only [List.forall_mem_cons]
      exact ⟨rfl, rfl, List.forall_mem_nil _⟩
  obtain ⟨hstart, hversionMark⟩ :=
    hversion.startsIn_and_not_mem (by decide) fun _ ↦ Grammar.VersionNumber.isEncodingChar
  have hencodingMark := hencoding.not_mem fun _ hqs ↦
    (hqs.startsIn_and_not_mem (by decide) fun _ ↦ Grammar.EncodingName.isEncodingChar).2
  have hstandaloneMark := hstandalone.not_mem fun _ hqs ↦
    (hqs.startsIn_and_not_mem (by decide) fun _ ↦ Grammar.Standalone.isEncodingChar).2
  have hspaceMark : '?' ∉ space := fun hmem ↦ absurd (hspace '?' hmem) (by decide)
  have hend : ¬ "?>".toList <:+:
      textOf version ++ textOf encoding ++ textOf standalone ++ space := by
    intro hinfix
    have hmem := hinfix.subset (show '?' ∈ "?>".toList by decide)
    simp only [List.mem_append, hversionMark, hencodingMark, hstandaloneMark, hspaceMark,
      or_self] at hmem
  have hbody : Text.startsIn isSpace
      (textOf version ++ textOf encoding ++ textOf standalone ++ space) := by
    generalize textOf version = front at hstart
    cases front with
    | nil => simp at hstart
    | cons c front => exact hstart
  have htext : "<?".toList ++ "xml".toList = "<?xml".toList := rfl
  have hform := Grammar.Instruction.mk hxml hend (.inr hbody)
  rw [htext] at hform
  simpa only [Piece.textOf_append, Piece.textOf_cons, Piece.textOf_nil, Piece.textOf_hidden,
    Piece.text, List.append_assoc, List.append_nil] using hform

/-- The pieces of a source cover it exactly if it is a document. -/
theorem width_scan_eq_iff (s : List Char) : width (scan s) = s.length ↔ Grammar.Document s := by
  obtain ⟨prolog, hprolog, hscan⟩ := scan_eq s
  rw [hscan, Piece.width_append, Piece.width_append, Piece.width_withdrawal, Nat.add_zero,
    ← takesMany_item_iff]
  have hprolog := Option.some.inj hprolog
  cases hdeclaration : declaration s with
  | none =>
    rw [hdeclaration, Option.getD_none] at hprolog
    subst hprolog
    calc
      _ ↔ width (item.repeated s) = s.length := by
        rw [Piece.width_withdrawal, List.drop_zero, Nat.zero_add]
      _ ↔ TakesMany item s [] := Construct.width_repeated_eq_iff advances_item fits_item
  | some ps =>
    rw [hdeclaration, Option.getD_some] at hprolog
    subst hprolog
    have htakes := fits_declaration.takes hdeclaration
    have hfits := fits_declaration.read s ps hdeclaration
    have hsplit := hfits.textOf_append_drop
    have hitem := takes_item (.instruction (instruction_of_declaration htakes)) (s.drop (width ps))
    have hwidth := hfits.width_le
    have hrest := Construct.width_repeated_eq_iff advances_item fits_item (s := s.drop (width ps))
    rw [List.length_drop] at hrest
    constructor
    · intro hcovers
      rw [← hsplit]
      exact .cons (by rwa [List.append_nil]) (hrest.1 (by omega))
    · intro hmany
      rw [← hsplit] at hmany
      have htail := hrest.2 (hmany.tail (by rwa [List.append_nil]))
      omega

/-- A source is read to its end exactly if it is a document of the grammar. -/
theorem accepts_iff_document [Text.IdentifierClasses]
    (options : Options) (source : List Char) (sink : Sink) :
    (Language.xml.scanInto options source sink).2 = true ↔ Grammar.Document source :=
  (Language.xml.scanInto_completes_iff options source sink).trans (width_scan_eq_iff source)

end Highlight.Xml
