import Highlight.Proofs.JavaScript.Trivia

/-!
# Tags read part by part

A tag is read by going from place to place: behind its bracket, behind its name, behind the name of
an attribute and so on. Which part may come next is decided by the place alone, and of what stands
behind a part only the next character matters. So this description of tags, which tries nothing in
any order, holds of the parts that a tag leaves, and whatever fits it is a tag in front of any text:
a tag is decided by its own text.
-/

namespace Highlight.JavaScript

open Construct (measured Takes TakesMany LeavesMany seq ifNext skipLiteral)
open Piece (textOf lasting)

variable {kind : TagKind} {ps qs : List (Piece TagPart)} {r t : List Char}

/-- How much of a tag has been read. -/
inductive Place where
  /-- The bracket that opens the tag. -/
  | opened
  /-- The slash of a closing tag. -/
  | closing
  /-- The name of a closing tag. -/
  | closed
  /-- The name of a tag, a whole attribute, or code that stands for several. -/
  | inside
  /-- The name of an attribute, with or without a value behind it. -/
  | named
  /-- The equals sign of an attribute. -/
  | valued
  deriving DecidableEq

/-- Where attributes and the end of the tag may follow. -/
def Place.takesAttributes : Place → Bool
  | inside | named => true
  | _ => false

def punctuation (lit : String) : Piece TagPart := .token .punctuation lit.toList

section

variable [Text.IdentifierClasses]

/-- The parts that may come at a place in front of `behind`, and the place behind them. -/
inductive Goes (behind : List Char) : Place → Piece TagPart → Place → Prop
  | name {n : List Char} : n ≠ [] → tagNameLength (n ++ behind) = n.length →
      Goes behind .opened (.token .tagName n) .inside
  | slash : Text.startsIn (fun d ↦ d == '/' || d == '*') behind = false →
      Goes behind .opened (punctuation "/") .closing
  | closingName {n : List Char} : n ≠ [] → tagNameLength (n ++ behind) = n.length →
      Goes behind .closing (.token .tagName n) .closed
  | attributeName {place : Place} {n : List Char} : place.takesAttributes → n ≠ [] →
      attributeNameLength (n ++ behind) = n.length →
      Goes behind place (.token .attributeName n) .named
  | spread {place : Place} {s : List Char} : place.takesAttributes → Grammar.Code s →
      Goes behind place (.token .code s) .inside
  | equals : Goes behind .named (.gap "=".toList) .valued
  | string {quote : Char} {s : List Char} : Text.isQuote quote → quote ∉ s →
      Goes behind .valued (.token .string ([quote] ++ s ++ [quote])) .inside
  | code {s : List Char} : Grammar.Code s → Goes behind .valued (.token .code s) .inside

/-- The marks that may end a tag at a place, and the kind of tag that they end. -/
inductive Ends : Place → Piece TagPart → TagKind → Prop
  | fragmentOpening : Ends .opened (punctuation ">") .fragmentOpening
  | fragmentClosing : Ends .closing (punctuation ">") .fragmentClosing
  | closing : Ends .closed (punctuation ">") .closing
  | opening {place : Place} : place.takesAttributes → Ends place (punctuation ">") .opening
  | selfClosing {place : Place} : place.takesAttributes → Ends place (punctuation "/>") .selfClosing

/-- What is left of a tag at a place. -/
inductive Rest : Place → List (Piece TagPart) → TagKind → Prop
  | ends {place : Place} {a : List (Piece TagPart)} {piece : Piece TagPart} {kind : TagKind} :
      Trivia a → Ends place piece kind → Rest place (a ++ [piece]) kind
  | goes {place next : Place} {a ps : List (Piece TagPart)} {piece : Piece TagPart}
      {kind : TagKind} : Trivia a → Goes (textOf ps) place piece next → Rest next ps kind →
      Rest place (a ++ piece :: ps) kind

inductive IsTag : List (Piece TagPart) → TagKind → Prop
  | opened {ps : List (Piece TagPart)} {kind : TagKind} :
      Text.startsIn (· == '/') (textOf ps) = false → Rest .opened ps kind →
      IsTag (punctuation "<" :: ps) kind
  | closing {ps : List (Piece TagPart)} {kind : TagKind} : Rest .closing ps kind →
      IsTag (punctuation "</" :: ps) kind

omit [Text.IdentifierClasses] in
theorem ne_nil_of_ends {place : Place} {piece : Piece TagPart} (h : Ends place piece kind) :
    piece.text ≠ [] := by
  cases h <;> exact List.cons_ne_nil _ _

theorem Rest.textOf_ne_nil {place : Place} (h : Rest place ps kind) : textOf ps ≠ [] := by
  induction h with
  | ends _ hends =>
    rw [Piece.textOf_append, textOf_single]
    exact List.append_ne_nil_of_right_ne_nil _ (ne_nil_of_ends hends)
  | goes _ _ _ ih =>
    rw [Piece.textOf_append, Piece.textOf_cons]
    exact List.append_ne_nil_of_right_ne_nil _ (List.append_ne_nil_of_right_ne_nil _ ih)

/-- A name begins with a character that begins no white space and no comment. -/
theorem exists_cons_of_name {tail : List Char → Option Nat} {n : List Char} (hn : n ≠ [])
    (h : qualifiedLength tail (n ++ r) = n.length) :
    ∃ c v, n = c :: v ∧ isIdentifierStart c := by
  obtain ⟨c, v, rfl⟩ := List.exists_cons_of_ne_nil hn
  have hstart := startsIn_of_qualifiedLength (h.trans_ne (Nat.succ_ne_zero _))
  exact ⟨c, v, rfl, hstart⟩

theorem isSpace_of_isIdentifierStart {c : Char} (h : isIdentifierStart c) : isSpace c = false := by
  rw [Bool.eq_false_iff]
  intro hspace
  rw [isIdentifierStart_of_isSpace hspace] at h
  exact Bool.noConfusion h

theorem ne_slash_of_isIdentifierStart {c : Char} (h : isIdentifierStart c) : c ≠ '/' := by
  rintro rfl
  rw [isIdentifierStart_mark '/' (by decide)] at h
  exact Bool.noConfusion h

theorem triviaPart_name {tail : List Char → Option Nat} {n : List Char} (hn : n ≠ [])
    (h : qualifiedLength tail (n ++ r) = n.length) (t : List Char) :
    triviaPart (n ++ t) = none := by
  obtain ⟨c, v, rfl, hstart⟩ := exists_cons_of_name hn h
  exact triviaPart_eq_none (isSpace_of_isIdentifierStart hstart)
    fun hslash ↦ absurd hslash (ne_slash_of_isIdentifierStart hstart)

/-- No part of a tag is white space or a comment. -/
theorem Goes.triviaPart_eq_none {place next : Place} {piece : Piece TagPart}
    (h : Goes r place piece next) (hr : r ≠ []) (t : List Char) :
    triviaPart (piece.text ++ (r ++ t)) = none := by
  cases h with
  | name hn hlength => exact triviaPart_name hn hlength _
  | closingName hn hlength => exact triviaPart_name hn hlength _
  | attributeName _ hn hlength => exact triviaPart_name hn hlength _
  | slash hnone =>
    rw [← Text.startsIn_append hr t] at hnone
    exact JavaScript.triviaPart_eq_none isSpace_slash fun _ ↦ hnone
  | spread _ hs =>
    obtain ⟨v, rfl⟩ := hs.exists_cons
    exact JavaScript.triviaPart_eq_none (by decide) (absurd · (by decide))
  | equals => exact JavaScript.triviaPart_eq_none (by decide) (absurd · (by decide))
  | @string quote s hquote hs =>
    have hquotes : quote = '"' ∨ quote = '\'' := by simpa [Text.isQuote] using hquote
    rcases hquotes with rfl | rfl
    · exact JavaScript.triviaPart_eq_none (by decide) (absurd · (by decide))
    · exact JavaScript.triviaPart_eq_none (by decide) (absurd · (by decide))
  | code hs =>
    obtain ⟨v, rfl⟩ := hs.exists_cons
    exact JavaScript.triviaPart_eq_none (by decide) (absurd · (by decide))

end

theorem Ends.triviaPart_eq_none {place : Place} {piece : Piece TagPart}
    (h : Ends place piece kind) (t : List Char) : triviaPart (piece.text ++ t) = none := by
  have hangle : triviaPart ('>' :: t) = none :=
    JavaScript.triviaPart_eq_none (by decide) (absurd · (by decide))
  cases h with
  | selfClosing => exact JavaScript.triviaPart_eq_none (by decide) fun _ ↦ rfl
  | _ => exact hangle

theorem takes_cons {c : Construct TagPart} {cs : List (Construct TagPart)} {i j t : List Char}
    (hc : c.Takes i (j ++ t)) (h : (seq cs).Takes j t) : (seq (c :: cs)).Takes (i ++ j) t :=
  Construct.takes_seq_cons_iff.2 ⟨i, j, rfl, hc, h⟩

theorem takes_mark (lit : String) (t : List Char) : (mark lit).Takes lit.toList t :=
  Construct.takes_literal_iff.2 rfl

theorem takes_tagName [Text.IdentifierClasses]
    {n : List Char} (hn : n ≠ []) (h : tagNameLength (n ++ r) = n.length) :
    tagName.Takes n r :=
  ((Construct.measures_measured _ _).takes_iff tagNameLength_le).2 ⟨hn, h⟩

theorem takes_code {s : List Char} (hs : Grammar.Code s) (r : List Char) :
    (measured .code bracedLength : Construct TagPart).Takes s r := by
  refine ((Construct.measures_measured _ _).takes_iff hasRoom_bracedLength.le_length).2 ⟨?_, ?_⟩
  · obtain ⟨v, rfl⟩ := hs.exists_cons
    exact List.cons_ne_nil _ _
  · exact hs.bracedLength_append r

/-- A part that may come in front of something may come there whatever follows that. -/
theorem Goes.append [Text.IdentifierClasses]
    {place next : Place} {piece : Piece TagPart} (h : Goes r place piece next)
    (hr : r ≠ []) (t : List Char) : Goes (r ++ t) place piece next := by
  have hshorter (n : List Char) : n.length < (n ++ r).length := by
    rw [List.length_append]
    exact Nat.lt_add_of_pos_right (List.length_pos_iff.2 hr)
  have htagName {n : List Char} (hn : n ≠ []) (hlength : tagNameLength (n ++ r) = n.length) :
      tagNameLength (n ++ (r ++ t)) = n.length := by
    have hne : n.length ≠ 0 := List.length_eq_zero_iff.not.2 hn
    rw [← List.append_assoc, tagNameLength_append (hlength.trans_ne hne)
      (hlength.trans_lt (hshorter n)), hlength]
  cases h with
  | name hn hlength => exact .name hn (htagName hn hlength)
  | slash hnone => exact .slash (by rwa [Text.startsIn_append hr])
  | closingName hn hlength => exact .closingName hn (htagName hn hlength)
  | @attributeName _ n hplace hn hlength =>
    have hne : n.length ≠ 0 := List.length_eq_zero_iff.not.2 hn
    refine .attributeName hplace hn ?_
    rw [← List.append_assoc, attributeNameLength_append (hlength.trans_ne hne)
      (hlength.trans_lt (hshorter n)), hlength]
  | spread hplace hs => exact .spread hplace hs
  | equals => exact .equals
  | string hquote hs => exact .string hquote hs
  | code hs => exact .code hs

/-- In front of what begins no white space and no comment the trivia before it is taken. -/
theorem takes_trivia_cons {a : List (Piece TagPart)} {cs : List (Construct TagPart)}
    {i t : List Char} (ha : Trivia a) (hnone : triviaPart (i ++ t) = none)
    (h : (seq cs).Takes i t) : (seq (trivia :: cs)).Takes (textOf a ++ i) t :=
  takes_cons (ha.takes hnone) h

/-- The end of a tag behind trivia. -/
theorem takes_end {a : List (Piece TagPart)} {lit : String} (ha : Trivia a)
    (hnone : triviaPart (lit.toList ++ t) = none) :
    (seq [trivia, mark lit]).Takes (textOf a ++ lit.toList) t :=
  takes_trivia_cons ha hnone (Construct.takes_seq_singleton_iff.2 (takes_mark lit t))

section

variable [Text.IdentifierClasses]

/-- What is left behind the slash of a closing tag. -/
def closingRest : TagKind → List (Construct TagPart)
  | .fragmentClosing => [trivia, mark ">"]
  | _ => [trivia, tagName, trivia, mark ">"]

theorem Rest.takes_closed (h : Rest .closed ps kind) (t : List Char) :
    kind = .closing ∧ (seq [trivia, mark ">"]).Takes (textOf ps) t := by
  cases h with
  | ends ha hends =>
    have hnone := hends.triviaPart_eq_none t
    cases hends with
    | closing =>
      rw [Piece.textOf_append, textOf_single]
      exact ⟨rfl, takes_end ha hnone⟩
    | opening hplace => simp [Place.takesAttributes] at hplace
    | selfClosing hplace => simp [Place.takesAttributes] at hplace
  | goes _ hgoes _ =>
    cases hgoes with
    | attributeName hplace => simp [Place.takesAttributes] at hplace
    | spread hplace => simp [Place.takesAttributes] at hplace

theorem Rest.takes_closing (h : Rest .closing ps kind) (t : List Char) :
    (kind = .fragmentClosing ∨ kind = .closing) ∧ (seq (closingRest kind)).Takes (textOf ps) t := by
  cases h with
  | ends ha hends =>
    have hnone := hends.triviaPart_eq_none t
    cases hends with
    | fragmentClosing =>
      rw [Piece.textOf_append, textOf_single]
      exact ⟨.inl rfl, takes_end ha hnone⟩
    | opening hplace => simp [Place.takesAttributes] at hplace
    | selfClosing hplace => simp [Place.takesAttributes] at hplace
  | @goes _ _ a qs _ _ ha hgoes hrest =>
    have hnone := hgoes.triviaPart_eq_none hrest.textOf_ne_nil t
    have hahead := hgoes.append hrest.textOf_ne_nil t
    cases hgoes with
    | closingName hn _ =>
      obtain ⟨rfl, htakes⟩ := hrest.takes_closed t
      cases hahead with
      | closingName _ hlength =>
        rw [Piece.textOf_append, Piece.textOf_cons]
        rw [← List.append_assoc] at hnone
        exact ⟨.inr rfl, takes_trivia_cons ha hnone (takes_cons (takes_tagName hn hlength) htakes)⟩
    | attributeName hplace => simp [Place.takesAttributes] at hplace
    | spread hplace => simp [Place.takesAttributes] at hplace

/-- The value of an attribute with the equals sign before it, where there is one. -/
def equalsValue : Construct TagPart :=
  ifNext "=" (seq [skipLiteral "=", trivia, attributeValue])

theorem namedAttribute_eq :
    namedAttribute = seq [measured .attributeName attributeNameLength, trivia, equalsValue] := rfl

def attributeRest : Place → List (Construct TagPart)
  | .named => [trivia, equalsValue]
  | .valued => [trivia, attributeValue]
  | _ => []

/-- The mark that ends a tag with attributes. -/
def endMark (kind : TagKind) : String := if kind = .selfClosing then "/>" else ">"

def attributesRest (kind : TagKind) : List (Construct TagPart) :=
  [tagAttributes, trivia, mark (endMark kind)]

theorem takes_attributes_cons {cs : List (Construct TagPart)} {i j : List Char}
    (hi : spacedAttribute.Takes i (j ++ t)) (h : (seq (tagAttributes :: cs)).Takes j t) :
    (seq (tagAttributes :: cs)).Takes (i ++ j) t := by
  obtain ⟨a, b, rfl, ha, hb⟩ := Construct.takes_seq_cons_iff.1 h
  rw [← List.append_assoc]
  refine takes_cons ?_ hb
  rw [List.append_assoc] at hi
  have hmany := (Construct.takes_many_iff advances_spacedAttribute fits_spacedAttribute).1 ha
  exact (Construct.takes_many_iff advances_spacedAttribute fits_spacedAttribute).2 (.cons hi hmany)

/-- Where a tag ends there is no more attribute. -/
theorem takes_attributes_end {a : List (Piece TagPart)} {lit : String} {first : Char}
    (hlit : lit.toList.head? = some first) (hfirst : first ∈ ['>', '/']) (ha : Trivia a)
    (hnone : triviaPart (lit.toList ++ t) = none) :
    (seq [tagAttributes, trivia, mark lit]).Takes (textOf a ++ lit.toList) t := by
  have hends := takes_end ha hnone
  have hapart : Construct.Apart [trivia, mark lit] [trivia, tagAttribute] :=
    (Construct.apart_of_first (not_tagAttribute_of_mark hlit hfirst) _ _).cons trivia
  have hspaced : spacedAttribute (textOf a ++ lit.toList ++ t) = none :=
    Option.not_isSome_iff_eq_none.1 (hapart _ hends.isSome)
  have hmany := (Construct.takes_many_iff advances_spacedAttribute fits_spacedAttribute).2
    (.nil hspaced)
  rw [← List.nil_append (textOf a ++ lit.toList)]
  exact takes_cons hmany hends

theorem takes_spread {s : List Char} (hs : Grammar.Code s) (r : List Char) :
    tagAttribute.Takes s r := by
  rw [tagAttribute_eq]
  exact Construct.takes_firstOf_cons_iff.2 (.inl (takes_code hs r))

/-- An attribute that begins with a name is not taken for code. -/
theorem takes_namedAttribute {i : List Char} (h : namedAttribute.Takes i r) :
    tagAttribute.Takes i r := by
  have hname := startsIn_of_namedAttribute h.isSome
  have hcode : bracedLength (i ++ r) = 0 := by
    rw [bracedLength, startsWith_eq_false_of_name hname rfl (by decide),
      if_neg Bool.false_ne_true]
  rw [tagAttribute_eq]
  refine Construct.takes_firstOf_cons_iff.2 (.inr ⟨Construct.measured_of_eq_zero hcode, ?_⟩)
  exact Construct.takes_firstOf_cons_iff.2 (.inl h)

end

theorem takes_equalsValue {i : List Char} (h : (seq [trivia, attributeValue]).Takes i t) :
    equalsValue.Takes ("=".toList ++ i) t := by
  rw [equalsValue, ifNext, Construct.takes_choose_iff, if_pos]
  · exact takes_cons (Construct.takes_skipLiteral_iff.2 rfl) h
  · rw [List.append_assoc]
    exact Text.startsWith_iff.2 (List.prefix_append _ _)

theorem takes_noValue (h : Text.startsWith "=" t = false) : equalsValue.Takes [] t := by
  rw [equalsValue, ifNext, Construct.takes_choose_iff, List.nil_append, h,
    if_neg Bool.false_ne_true]
  exact Construct.takes_seq_nil_iff.2 rfl

/-- An attribute that begins at a place is taken with all that is left of it. -/
theorem takes_attribute [Text.IdentifierClasses]
    {a : List (Piece TagPart)} {piece : Piece TagPart} {next : Place}
    {cs : List (Construct TagPart)} (ha : Trivia a)
    (hnone : triviaPart (piece.text ++ (textOf ps ++ t)) = none)
    (hgoes : Goes (textOf ps ++ t) .inside piece next)
    (h : (seq (attributeRest next ++ tagAttributes :: cs)).Takes (textOf ps) t) :
    (seq (tagAttributes :: cs)).Takes (textOf a ++ (piece.text ++ textOf ps)) t := by
  cases hgoes with
  | @spread _ s hplace hs =>
    have hattribute : spacedAttribute.Takes (textOf a ++ s) (textOf ps ++ t) :=
      takes_trivia_cons ha hnone (Construct.takes_seq_singleton_iff.2 (takes_spread hs _))
    have htakes := takes_attributes_cons hattribute h
    rwa [List.append_assoc] at htakes
  | @attributeName _ n hplace hn hlength =>
    obtain ⟨b, rest, hsplit, hb, hrest⟩ := Construct.takes_seq_cons_iff.1 h
    obtain ⟨v, j, rfl, hv, hj⟩ := Construct.takes_seq_cons_iff.1 hrest
    rw [hsplit] at hlength hnone ⊢
    have hname : (measured .attributeName attributeNameLength : Construct TagPart).Takes n
        (b ++ v ++ (j ++ t)) := by
      refine ((Construct.measures_measured _ _).takes_iff attributeNameLength_le).2 ⟨hn, ?_⟩
      simpa only [List.append_assoc] using hlength
    have hnamed : namedAttribute.Takes (n ++ (b ++ v)) (j ++ t) := by
      rw [List.append_assoc] at hb
      exact takes_cons hname (takes_cons hb (Construct.takes_seq_singleton_iff.2 hv))
    have hattribute : spacedAttribute.Takes (textOf a ++ (n ++ (b ++ v))) (j ++ t) := by
      refine takes_trivia_cons ha ?_ ?_
      · simpa only [List.append_assoc, Piece.text] using hnone
      · exact Construct.takes_seq_singleton_iff.2 (takes_namedAttribute hnamed)
    have htakes := takes_attributes_cons hattribute hj
    simpa only [List.append_assoc, Piece.text] using htakes

/-- Behind the name of an attribute whatever is no value is looked at as if the attribute were
complete. -/
theorem takes_named {a : List (Piece TagPart)} {cs : List (Construct TagPart)} {i : List Char}
    (ha : Trivia a) (hnone : triviaPart (i ++ t) = none)
    (hequals : Text.startsWith "=" (i ++ t) = false) (h : (seq cs).Takes i t) :
    (seq (attributeRest .named ++ cs)).Takes (textOf a ++ i) t := by
  have hvalue := takes_noValue hequals
  refine takes_trivia_cons ha hnone ?_
  rw [← List.nil_append i]
  exact takes_cons hvalue h

theorem startsWith_equals_of_ends {place : Place} {piece : Piece TagPart}
    (h : Ends place piece kind) (t : List Char) :
    Text.startsWith "=" (piece.text ++ t) = false := by
  cases h <;> exact Text.startsWith_cons_eq_false rfl (by decide) _

section

variable [Text.IdentifierClasses]

theorem isIdentifierStart_equals : isIdentifierStart '=' = false := rfl

theorem startsWith_equals_of_goes {piece : Piece TagPart} {next : Place}
    (h : Goes r .inside piece next) (t : List Char) :
    Text.startsWith "=" (piece.text ++ t) = false := by
  cases h with
  | spread _ hs =>
    obtain ⟨v, rfl⟩ := hs.exists_cons
    exact Text.startsWith_cons_eq_false rfl (by decide) _
  | attributeName _ hn hlength =>
    obtain ⟨c, v, rfl, hstart⟩ := exists_cons_of_name hn hlength
    refine Text.startsWith_cons_eq_false (show "=".toList.head? = some '=' from rfl) ?_ _
    rintro rfl
    rw [isIdentifierStart_equals] at hstart
    exact Bool.noConfusion hstart

/-- The end of a tag with attributes. -/
theorem takes_ends {a : List (Piece TagPart)} {place : Place} {piece : Piece TagPart}
    (ha : Trivia a) (hends : Ends place piece kind) (hplace : place.takesAttributes) :
    (kind = .opening ∨ kind = .selfClosing) ∧
      (seq (attributesRest kind)).Takes (textOf a ++ piece.text) t := by
  have hnone := hends.triviaPart_eq_none t
  cases hends with
  | opening => exact ⟨.inl rfl, takes_attributes_end rfl (by decide) ha hnone⟩
  | selfClosing => exact ⟨.inr rfl, takes_attributes_end rfl (by decide) ha hnone⟩
  | _ => simp [Place.takesAttributes] at hplace

end

theorem takes_string {quote : Char} {s : List Char} (hquote : Text.isQuote quote) (hs : quote ∉ s)
    (r : List Char) : attributeValue.Takes ([quote] ++ s ++ [quote]) r := by
  refine Construct.takes_firstOf_cons_iff.2 (.inl ?_)
  refine ((Construct.measures_measured _ _).takes_iff Text.quotedLength_le).2 ⟨?_, ?_⟩
  · exact List.cons_ne_nil _ _
  · exact Text.quotedLength_append hquote hs r

theorem takes_codeValue {s : List Char} (hs : Grammar.Code s) (r : List Char) :
    attributeValue.Takes s r := by
  have hstring : Text.quotedLength (s ++ r) = 0 := by
    obtain ⟨v, rfl⟩ := hs.exists_cons
    rfl
  refine Construct.takes_firstOf_cons_iff.2 (.inr ⟨Construct.measured_of_eq_zero hstring, ?_⟩)
  exact Construct.takes_firstOf_cons_iff.2 (.inl (takes_code hs r))

/-- Behind the equals sign the value is taken together with it. -/
theorem takes_equals {a : List (Piece TagPart)} {cs : List (Construct TagPart)} {i : List Char}
    (ha : Trivia a) (hnone : triviaPart ("=".toList ++ (i ++ t)) = none)
    (h : (seq (attributeRest .valued ++ cs)).Takes i t) :
    (seq (attributeRest .named ++ cs)).Takes (textOf a ++ ("=".toList ++ i)) t := by
  obtain ⟨b, rest, rfl, hb, hrest⟩ := Construct.takes_seq_cons_iff.1 h
  obtain ⟨v, j, rfl, hv, hj⟩ := Construct.takes_seq_cons_iff.1 hrest
  have hvalue : equalsValue.Takes ("=".toList ++ (b ++ v)) (j ++ t) := by
    rw [List.append_assoc] at hb
    exact takes_equalsValue (takes_cons hb (Construct.takes_seq_singleton_iff.2 hv))
  have htakes : (seq (attributeRest .named ++ cs)).Takes
      (textOf a ++ (("=".toList ++ (b ++ v)) ++ j)) t :=
    takes_trivia_cons ha (by simpa only [List.append_assoc] using hnone) (takes_cons hvalue hj)
  simpa only [List.append_assoc] using htakes

section

variable [Text.IdentifierClasses]

/-- An attribute is taken wherever attributes may come: behind the name of another one, that one has
no value. -/
theorem takes_attribute_at {a : List (Piece TagPart)} {place next : Place} {piece : Piece TagPart}
    (hplace : place.takesAttributes) (ha : Trivia a)
    (hnone : triviaPart (piece.text ++ (textOf ps ++ t)) = none)
    (hinside : Goes (textOf ps ++ t) .inside piece next)
    (h : (seq (attributeRest next ++ attributesRest kind)).Takes (textOf ps) t) :
    (seq (attributeRest place ++ attributesRest kind)).Takes
      (textOf a ++ (piece.text ++ textOf ps)) t := by
  cases place with
  | inside => exact takes_attribute ha hnone hinside h
  | named =>
    have hequals := startsWith_equals_of_goes hinside (textOf ps ++ t)
    have hrest := takes_attribute .nil hnone hinside h
    rw [← List.append_assoc] at hnone hequals
    exact takes_named ha hnone hequals hrest
  | _ => simp [Place.takesAttributes] at hplace

/-- Where attributes may come, a tag with attributes is left. -/
theorem Rest.takes_attributes {place : Place} (h : Rest place ps kind)
    (hplace : place.takesAttributes ∨ place = .valued) (t : List Char) :
    (kind = .opening ∨ kind = .selfClosing) ∧
      (seq (attributeRest place ++ attributesRest kind)).Takes (textOf ps) t := by
  induction h with
  | @ends place a piece kind ha hends =>
    have hattributes : place.takesAttributes := by
      rcases hplace with hplace | rfl
      · exact hplace
      · cases hends with
        | opening hattributes | selfClosing hattributes => exact hattributes
    rw [Piece.textOf_append, textOf_single]
    cases place with
    | inside => exact takes_ends ha hends rfl
    | named =>
      obtain ⟨hkind, htakes⟩ := takes_ends (t := t) .nil hends rfl
      refine ⟨hkind, takes_named ha (hends.triviaPart_eq_none t) ?_ htakes⟩
      exact startsWith_equals_of_ends hends t
    | _ => simp [Place.takesAttributes] at hattributes
  | @goes place next a ps piece kind ha hgoes hrest ih =>
    have hnone := hgoes.triviaPart_eq_none hrest.textOf_ne_nil t
    have hahead := hgoes.append hrest.textOf_ne_nil t
    rw [Piece.textOf_append, Piece.textOf_cons]
    cases hahead with
    | name | slash | closingName => simp [Place.takesAttributes] at hplace
    | attributeName hattributes hn hlength =>
      obtain ⟨hkind, htakes⟩ := ih (.inl rfl)
      exact ⟨hkind, takes_attribute_at hattributes ha hnone (.attributeName rfl hn hlength) htakes⟩
    | spread hattributes hs =>
      obtain ⟨hkind, htakes⟩ := ih (.inl rfl)
      exact ⟨hkind, takes_attribute_at hattributes ha hnone (.spread rfl hs) htakes⟩
    | equals =>
      obtain ⟨hkind, htakes⟩ := ih (.inr rfl)
      exact ⟨hkind, takes_equals ha hnone htakes⟩
    | string hquote hs =>
      obtain ⟨hkind, htakes⟩ := ih (.inl rfl)
      rw [← List.append_assoc] at hnone
      exact ⟨hkind, takes_trivia_cons ha hnone (takes_cons (takes_string hquote hs _) htakes)⟩
    | code hs =>
      obtain ⟨hkind, htakes⟩ := ih (.inl rfl)
      rw [← List.append_assoc] at hnone
      exact ⟨hkind, takes_trivia_cons ha hnone (takes_cons (takes_codeValue hs _) htakes)⟩

/-! ## Whole tags -/

def openedRest : TagKind → List (Construct TagPart)
  | .fragmentOpening => [trivia, mark ">"]
  | .opening => trivia :: tagName :: attributesRest .opening
  | .selfClosing => trivia :: tagName :: attributesRest .selfClosing
  | .fragmentClosing => trivia :: mark "/" :: closingRest .fragmentClosing
  | .closing => trivia :: mark "/" :: closingRest .closing

theorem Rest.takes_opened (h : Rest .opened ps kind) (t : List Char) :
    (seq (openedRest kind)).Takes (textOf ps) t := by
  cases h with
  | ends ha hends =>
    have hnone := hends.triviaPart_eq_none t
    cases hends with
    | fragmentOpening =>
      rw [Piece.textOf_append, textOf_single]
      exact takes_end ha hnone
    | opening hplace | selfClosing hplace => simp [Place.takesAttributes] at hplace
  | @goes _ _ a ps _ _ ha hgoes hrest =>
    have hnone := hgoes.triviaPart_eq_none hrest.textOf_ne_nil t
    have hahead := hgoes.append hrest.textOf_ne_nil t
    rw [Piece.textOf_append, Piece.textOf_cons]
    rw [← List.append_assoc] at hnone
    cases hahead with
    | name hn hlength =>
      obtain ⟨hkind, htakes⟩ := hrest.takes_attributes (.inl rfl) t
      have hname := takes_trivia_cons ha hnone (takes_cons (takes_tagName hn hlength) htakes)
      rcases hkind with rfl | rfl <;> exact hname
    | slash =>
      obtain ⟨hkind, htakes⟩ := hrest.takes_closing t
      have hslash := takes_trivia_cons ha hnone (takes_cons (takes_mark "/" _) htakes)
      rcases hkind with rfl | rfl <;> exact hslash
    | attributeName hplace | spread hplace => simp [Place.takesAttributes] at hplace

/-- A closing tag has a form of its own if its slash follows its bracket. -/
theorem mem_tagForms_iff {s : List Char} {cs : List (Construct TagPart)} :
    (kind, cs) ∈ tagForms s ↔
      if Text.startsWith "</" s then
        (kind = .fragmentClosing ∨ kind = .closing) ∧ cs = mark "</" :: closingRest kind
      else cs = mark "<" :: openedRest kind := by
  unfold tagForms
  split_ifs
  · cases kind <;> simp [closingForms, closingRest]
  · cases kind <;>
      simp [openingForms, closingForms, openedRest, closingRest, attributesRest, endMark]

/-- The pieces of a tag are taken as one of its forms, whatever follows. -/
theorem IsTag.exists_form (h : IsTag ps kind) (t : List Char) :
    ∃ form ∈ tagForms (textOf ps ++ t), form.1 = kind ∧ (seq form.2).Takes (textOf ps) t := by
  cases h with
  | @opened ps _ hslash hrest =>
    have htakes := takes_cons (takes_mark "<" _) (hrest.takes_opened t)
    have hclosing : Text.startsWith "</" (textOf (punctuation "<" :: ps) ++ t) = false := by
      change Text.startsWith "</" ('<' :: (textOf ps ++ t)) = false
      rw [Text.startsWith_pair (show "</".toList = ['<', '/'] from rfl),
        Text.startsIn_append hrest.textOf_ne_nil, hslash, Bool.and_false]
    refine ⟨(kind, mark "<" :: openedRest kind), ?_, rfl, htakes⟩
    rw [mem_tagForms_iff, hclosing, if_neg Bool.false_ne_true]
  | @closing ps _ hrest =>
    obtain ⟨hkind, htakes⟩ := hrest.takes_closing t
    have hclosing : Text.startsWith "</" (textOf (punctuation "</" :: ps) ++ t) := by
      rw [Text.startsWith_iff, Piece.textOf_cons, List.append_assoc]
      exact List.prefix_append _ _
    refine ⟨(kind, mark "</" :: closingRest kind), ?_, rfl, takes_cons (takes_mark "</" _) htakes⟩
    rw [mem_tagForms_iff, if_pos hclosing]
    exact ⟨hkind, rfl⟩

/-- The form that is there is the form that is found. -/
theorem tag?_of_form {s : List Char} {form : TagKind × List (Construct TagPart)}
    {parts : List (Piece TagPart)} (hform : form ∈ tagForms s) (h : seq form.2 s = some parts) :
    tag? s = some (form.1, parts) := by
  obtain ⟨⟨kind, found⟩, hfound⟩ : ∃ found, tag? s = some found := by
    rw [← Option.isSome_iff_exists, tag?, List.findSome?_isSome_iff]
    refine ⟨form, hform, ?_⟩
    rw [Option.isSome_map, h]
    rfl
  obtain ⟨other, hother, rfl, hparts⟩ := tag?_eq_some hfound
  obtain rfl :=
    form_unique hform hother (Option.isSome_of_eq_some h) (Option.isSome_of_eq_some hparts)
  rw [hfound, Option.some.inj (h.symm.trans hparts)]

/-- The pieces of a tag are a tag in front of any text. -/
theorem IsTag.tag?_append (h : IsTag ps kind) (t : List Char) :
    ∃ parts, tag? (textOf ps ++ t) = some (kind, parts) ∧ textOf parts = textOf ps := by
  obtain ⟨form, hform, rfl, parts, hparts, htext⟩ := h.exists_form t
  exact ⟨parts, tag?_of_form hform hparts, htext⟩

end

/-! ## What a tag leaves fits the description -/

/-- What is left in front of something begins with trivia, as much as there is. -/
theorem exists_trivia {cs : List (Construct TagPart)} (h : (seq (trivia :: cs)).Leaves ps r)
    (hcs : (seq cs).Advances) : ∃ a qs, ps = a ++ qs ∧ Trivia a ∧ (seq cs).Leaves qs r ∧
      triviaPart (textOf qs ++ r) = none := by
  obtain ⟨a, qs, rfl, ha, hqs⟩ := Construct.leaves_seq_cons_iff.1 h
  have hmany := (Construct.leaves_many_iff advances_triviaPart fits_triviaPart).1 ha
  have hne := List.append_ne_nil_of_left_ne_nil (hqs.textOf_ne_nil hcs) r
  exact ⟨a, qs, rfl, trivia_of_leavesMany hmany hne, hqs, hmany.ends⟩

theorem advances_mark {lit : String} (hlit : lit.toList ≠ []) : (mark lit).Advances :=
  Construct.advances_literal hlit

theorem advances_tagName [Text.IdentifierClasses]
    : tagName.Advances := Construct.advances_measured rfl

theorem exists_end {lit : String} (hlit : lit.toList ≠ [])
    (h : (seq [trivia, mark lit]).Leaves ps r) : ∃ a, ps = a ++ [punctuation lit] ∧ Trivia a := by
  obtain ⟨a, qs, rfl, ha, hqs, -⟩ :=
    exists_trivia h (Construct.advances_seq List.mem_cons_self (advances_mark hlit))
  obtain rfl := Construct.leaves_literal_iff.1 (Construct.leaves_seq_singleton_iff.1 hqs)
  exact ⟨a, rfl, ha⟩

variable [Text.IdentifierClasses]

/-- A name is the same where the text behind it is cut off. -/
theorem tagNameLength_cut {n s : List Char} (hn : n ≠ [])
    (h : tagNameLength (n ++ (s ++ r)) = n.length) : tagNameLength (n ++ s) = n.length := by
  rw [← List.append_assoc] at h
  rw [kept_tagNameLength (n ++ s) r (h.trans_ne (List.length_eq_zero_iff.not.2 hn)) ?_, h]
  rw [id_eq, h, List.length_append]
  exact Nat.le_add_right _ _

theorem attributeNameLength_cut {n s : List Char} (hn : n ≠ [])
    (h : attributeNameLength (n ++ (s ++ r)) = n.length) :
    attributeNameLength (n ++ s) = n.length := by
  rw [← List.append_assoc] at h
  rw [kept_attributeNameLength (n ++ s) r (h.trans_ne (List.length_eq_zero_iff.not.2 hn)) ?_, h]
  rw [id_eq, h, List.length_append]
  exact Nat.le_add_right _ _

theorem exists_tagName {cs : List (Construct TagPart)} (h : (seq (tagName :: cs)).Leaves ps r) :
    ∃ n qs, ps = .token .tagName n :: qs ∧ n ≠ [] ∧ tagNameLength (n ++ textOf qs) = n.length ∧
      (seq cs).Leaves qs r := by
  obtain ⟨us, qs, rfl, hus, hqs⟩ := Construct.leaves_seq_cons_iff.1 h
  obtain ⟨n, rfl, hn, hlength⟩ := (Construct.leaves_measured_iff tagNameLength_le).1 hus
  exact ⟨n, qs, rfl, hn, tagNameLength_cut hn hlength, hqs⟩

theorem rest_closing (h : (seq (closingRest kind)).Leaves ps r)
    (hkind : kind = .fragmentClosing ∨ kind = .closing) : Rest .closing ps kind := by
  rcases hkind with rfl | rfl
  · obtain ⟨a, rfl, ha⟩ := exists_end (by decide) h
    exact .ends ha .fragmentClosing
  · obtain ⟨a, qs, rfl, ha, hqs, -⟩ :=
      exists_trivia h (Construct.advances_seq List.mem_cons_self advances_tagName)
    obtain ⟨n, us, rfl, hn, hlength, hus⟩ := exists_tagName hqs
    obtain ⟨b, rfl, hb⟩ := exists_end (by decide) hus
    exact .goes ha (.closingName hn hlength) (.ends hb .closing)

/-- Trivia behind the name of an attribute may as well belong to what follows. -/
theorem Rest.named_of_inside {a : List (Piece TagPart)} (h : Rest .inside ps kind)
    (ha : Trivia a) : Rest .named (a ++ ps) kind := by
  cases h with
  | ends hb hends =>
    rw [← List.append_assoc]
    cases hends with
    | opening => exact .ends (ha.append hb) (.opening rfl)
    | selfClosing => exact .ends (ha.append hb) (.selfClosing rfl)
  | goes hb hgoes hrest =>
    rw [← List.append_assoc]
    cases hgoes with
    | attributeName _ hn hlength =>
      exact .goes (ha.append hb) (.attributeName rfl hn hlength) hrest
    | spread _ hs => exact .goes (ha.append hb) (.spread rfl hs) hrest

omit [Text.IdentifierClasses] in
theorem code_of_leaves (h : (measured .code bracedLength).Leaves ps r) :
    ∃ s, ps = [.token .code s] ∧ Grammar.Code s := by
  obtain ⟨s, rfl, hs, hlength⟩ :=
    (Construct.leaves_measured_iff hasRoom_bracedLength.le_length).1 h
  exact ⟨s, rfl, (bracedLength_append_iff hs).1 hlength⟩

/-- The value of an attribute is a string or code. -/
theorem goes_of_attributeValue (h : attributeValue.Leaves ps r) (s : List Char) :
    ∃ piece, ps = [piece] ∧ Goes s .valued piece .inside := by
  obtain ⟨d, hd, hleaves⟩ := Construct.exists_leaves_of_firstOf h
  simp only [List.mem_cons, List.not_mem_nil, or_false] at hd
  rcases hd with rfl | rfl
  · obtain ⟨i, rfl, hi, hlength⟩ := (Construct.leaves_measured_iff Text.quotedLength_le).1 hleaves
    obtain ⟨quote, s, rfl, hquote, hs⟩ := Text.exists_of_quotedLength hi hlength
    exact ⟨_, rfl, .string hquote hs⟩
  · obtain ⟨s, rfl, hs⟩ := code_of_leaves hleaves
    exact ⟨_, rfl, .code hs⟩

omit [Text.IdentifierClasses] in
theorem advances_attributeValue : attributeValue.Advances := by
  apply Construct.advances_firstOf
  simp only [List.forall_mem_cons]
  exact ⟨Construct.advances_measured rfl,
    Construct.advances_measured hasRoom_bracedLength.length_nil, List.forall_mem_nil _⟩

/-- Behind the name of an attribute there is its value or there is none. -/
theorem rest_named {a : List (Piece TagPart)} (ha : Trivia a)
    (h : equalsValue.Leaves ps (textOf qs ++ r)) (hqs : Rest .inside qs kind) :
    Rest .named (a ++ (ps ++ qs)) kind := by
  rw [equalsValue, ifNext, Construct.leaves_choose_iff] at h
  split_ifs at h
  · obtain ⟨us, vs, rfl, hus, hvs⟩ := Construct.leaves_seq_cons_iff.1 h
    obtain rfl := Construct.leaves_skipLiteral_iff.1 hus
    obtain ⟨b, ws, rfl, hb, hws, -⟩ :=
      exists_trivia hvs (Construct.advances_seq List.mem_cons_self advances_attributeValue)
    obtain ⟨piece, rfl, hgoes⟩ :=
      goes_of_attributeValue (Construct.leaves_seq_singleton_iff.1 hws) (textOf qs)
    simp only [List.append_assoc, List.cons_append, List.nil_append]
    exact .goes ha .equals (.goes hb hgoes hqs)
  · obtain rfl := Construct.leaves_seq_nil_iff.1 h
    exact hqs.named_of_inside ha

/-- An attribute stands in front of what may come inside of a tag. -/
theorem rest_inside_cons (h : spacedAttribute.Leaves ps (textOf qs ++ r))
    (hqs : Rest .inside qs kind) : Rest .inside (ps ++ qs) kind := by
  obtain ⟨a, us, rfl, ha, hus, -⟩ :=
    exists_trivia h (Construct.advances_seq List.mem_cons_self advances_tagAttribute)
  rw [Construct.leaves_seq_singleton_iff, tagAttribute_eq] at hus
  obtain ⟨d, hd, hleaves⟩ := Construct.exists_leaves_of_firstOf hus
  simp only [List.mem_cons, List.not_mem_nil, or_false] at hd
  rcases hd with rfl | rfl
  · obtain ⟨s, rfl, hs⟩ := code_of_leaves hleaves
    rw [List.append_assoc]
    exact .goes ha (.spread rfl hs) hqs
  · rw [namedAttribute_eq] at hleaves
    obtain ⟨ns, vs, rfl, hns, hvs⟩ := Construct.leaves_seq_cons_iff.1 hleaves
    obtain ⟨n, rfl, hn, hlength⟩ := (Construct.leaves_measured_iff attributeNameLength_le).1 hns
    obtain ⟨b, ws, rfl, hb, hws⟩ := Construct.leaves_seq_cons_iff.1 hvs
    rw [Construct.leaves_seq_singleton_iff] at hws
    have htrivia : Trivia b := by
      have hmany := (Construct.leaves_many_iff advances_triviaPart fits_triviaPart).1 hb
      refine trivia_of_leavesMany hmany (List.append_ne_nil_of_right_ne_nil _ ?_)
      exact List.append_ne_nil_of_left_ne_nil hqs.textOf_ne_nil r
    have hrest := rest_named htrivia hws hqs
    have hname : attributeNameLength (n ++ textOf (b ++ (ws ++ qs))) = n.length := by
      apply attributeNameLength_cut hn (r := r)
      simpa only [Piece.textOf_append, List.append_assoc] using hlength
    simp only [List.append_assoc, List.cons_append, List.nil_append]
    exact .goes ha (.attributeName rfl hn hname) hrest

theorem rest_inside (h : (seq (attributesRest kind)).Leaves ps r)
    (hkind : kind = .opening ∨ kind = .selfClosing) : Rest .inside ps kind := by
  obtain ⟨us, vs, rfl, hus, hvs⟩ := Construct.leaves_seq_cons_iff.1 h
  have hend : Rest .inside vs kind := by
    rcases hkind with rfl | rfl
    · obtain ⟨a, rfl, ha⟩ := exists_end (by decide) hvs
      exact .ends ha (.opening rfl)
    · obtain ⟨a, rfl, ha⟩ := exists_end (by decide) hvs
      exact .ends ha (.selfClosing rfl)
  have hmany :=
    (Construct.leaves_many_iff advances_spacedAttribute fits_spacedAttribute).1 hus
  clear h hus hvs
  generalize hbehind : textOf vs ++ r = behind at hmany
  induction hmany with
  | nil _ => exact hend
  | @cons ps qs _ hturn _ ih =>
    subst hbehind
    rw [List.append_assoc]
    rw [← List.append_assoc, ← Piece.textOf_append] at hturn
    exact rest_inside_cons hturn (ih rfl)

theorem isIdentifierStart_star : isIdentifierStart '*' = false := rfl

/-- What may follow the slash of a closing tag does not make a block comment of it. -/
theorem Rest.startsIn_star (h : Rest .closing ps kind) :
    Text.startsIn (· == '*') (textOf ps) = false := by
  have hbegins {a qs : List (Piece TagPart)} {piece : Piece TagPart} (ha : Trivia a)
      (hpiece : ∃ c v, piece.text = c :: v ∧ c ≠ '*') :
      Text.startsIn (· == '*') (textOf (a ++ piece :: qs)) = false := by
    rw [Piece.textOf_append, Piece.textOf_cons]
    by_cases hnil : a = []
    · obtain ⟨c, v, htext, hc⟩ := hpiece
      subst hnil
      rw [htext]
      exact beq_false_of_ne hc
    · obtain ⟨c, v, htext, hc⟩ := ha.exists_cons hnil
      rw [htext]
      refine beq_false_of_ne ?_
      rintro rfl
      exact absurd hc (by decide)
  cases h with
  | ends ha hends =>
    cases hends with
    | fragmentClosing => exact hbegins ha ⟨'>', [], rfl, by decide⟩
    | opening hplace | selfClosing hplace => simp [Place.takesAttributes] at hplace
  | goes ha hgoes _ =>
    cases hgoes with
    | closingName hn hlength =>
      obtain ⟨c, v, rfl, hstart⟩ := exists_cons_of_name hn hlength
      refine hbegins ha ⟨c, v, rfl, ?_⟩
      rintro rfl
      rw [isIdentifierStart_star] at hstart
      exact Bool.noConfusion hstart
    | attributeName hplace | spread hplace => simp [Place.takesAttributes] at hplace

omit [Text.IdentifierClasses] in
theorem lineComment_of_none {s : List Char} (h : triviaPart s = none) :
    Text.startsWith "//" s = false := by
  have hline := Construct.firstOf_eq_none_iff.1 h (measured .comment lineCommentLength) (by simp)
  rw [Bool.eq_false_iff]
  intro hstarts
  obtain ⟨rest, rfl⟩ := Text.startsWith_iff.1 hstarts
  have hlength : lineCommentLength ("//".toList ++ rest) ≠ 0 := by
    rw [lineCommentLength, restOfLine, Text.after?_eq_some.2 rfl]
    exact Nat.ne_of_gt (Nat.add_pos_left (by decide) _)
  exact Option.isSome_iff_ne_none.1 (Construct.isSome_measured hlength) hline

/-- What the forms of a tag leave behind the bracket fits the description. -/
theorem rest_opened (h : (seq (openedRest kind)).Leaves ps r) : Rest .opened ps kind := by
  have hname {kind : TagKind} (hkind : kind = .opening ∨ kind = .selfClosing)
      (h : (seq (trivia :: tagName :: attributesRest kind)).Leaves ps r) :
      Rest .opened ps kind := by
    obtain ⟨a, qs, rfl, ha, hqs, -⟩ :=
      exists_trivia h (Construct.advances_seq List.mem_cons_self advances_tagName)
    obtain ⟨n, us, rfl, hn, hlength, hus⟩ := exists_tagName hqs
    exact .goes ha (.name hn hlength) (rest_inside hus hkind)
  have hslash {kind : TagKind} (hkind : kind = .fragmentClosing ∨ kind = .closing)
      (h : (seq (trivia :: mark "/" :: closingRest kind)).Leaves ps r) :
      Rest .opened ps kind := by
    obtain ⟨a, qs, rfl, ha, hqs, hnone⟩ :=
      exists_trivia h (Construct.advances_seq List.mem_cons_self (advances_mark (by decide)))
    obtain ⟨us, vs, rfl, hus, hvs⟩ := Construct.leaves_seq_cons_iff.1 hqs
    obtain rfl := Construct.leaves_literal_iff.1 hus
    have hrest := rest_closing hvs hkind
    have hline := lineComment_of_none hnone
    have hslash : Text.startsIn (fun d ↦ d == '/' || d == '*') (textOf vs) = false := by
      obtain ⟨c, v, htext⟩ := List.exists_cons_of_ne_nil hrest.textOf_ne_nil
      have hstar := hrest.startsIn_star
      rw [Piece.textOf_append, htext] at hline
      rw [htext, Text.startsIn_cons] at hstar ⊢
      change Text.startsWith "//" ('/' :: (c :: v ++ r)) = false at hline
      rw [Text.startsWith_pair (show "//".toList = ['/', '/'] from rfl), beq_self_eq_true,
        Bool.true_and, List.cons_append, Text.startsIn_cons] at hline
      rw [hline, hstar, Bool.false_or]
    exact .goes ha (.slash hslash) hrest
  cases kind with
  | fragmentOpening =>
    obtain ⟨a, rfl, ha⟩ := exists_end (by decide) h
    exact .ends ha .fragmentOpening
  | opening => exact hname (.inl rfl) h
  | selfClosing => exact hname (.inr rfl) h
  | fragmentClosing => exact hslash (.inl rfl) h
  | closing => exact hslash (.inr rfl) h

/-- The parts that a tag leaves are those of a tag. -/
theorem isTag_of_tag? {s : List Char} {parts : List (Piece TagPart)}
    (h : tag? s = some (kind, parts)) : IsTag (lasting parts) kind := by
  obtain ⟨⟨kind, cs⟩, hform, rfl, hparts⟩ := tag?_eq_some h
  have hleaves := (Construct.fits_seq (tagForms_mem hform).1).leaves hparts
  have hwhole : textOf (lasting parts) ++ s.drop (Piece.width parts) = s := by
    rw [Piece.textOf_lasting, (fits_tag? h).textOf_append_drop]
  rw [mem_tagForms_iff] at hform
  split_ifs at hform with hclosing
  · obtain ⟨hkind, rfl⟩ := hform
    obtain ⟨us, ps, hsplit, hus, hps⟩ := Construct.leaves_seq_cons_iff.1 hleaves
    obtain rfl := Construct.leaves_literal_iff.1 hus
    rw [hsplit]
    exact .closing (rest_closing hps hkind)
  · subst hform
    obtain ⟨us, ps, hsplit, hus, hps⟩ := Construct.leaves_seq_cons_iff.1 hleaves
    obtain rfl := Construct.leaves_literal_iff.1 hus
    have hrest := rest_opened hps
    rw [hsplit]
    refine .opened ?_ hrest
    rw [← hwhole, hsplit] at hclosing
    change ¬ Text.startsWith "</" ('<' :: (textOf ps ++ s.drop (Piece.width parts))) at hclosing
    rw [Text.startsWith_pair (show "</".toList = ['<', '/'] from rfl), beq_self_eq_true,
      Bool.true_and, Text.startsIn_append hrest.textOf_ne_nil, Bool.not_eq_true] at hclosing
    exact hclosing

/-- A tag is decided by its own text: in front of any other text it leaves the same parts. -/
theorem tag?_cut_append {s : List Char} {parts : List (Piece TagPart)}
    (h : tag? s = some (kind, parts)) (t : List Char) :
    ∃ again, tag? (textOf parts ++ t) = some (kind, again) ∧ lasting again = lasting parts := by
  obtain ⟨again, hagain, htext⟩ := (isTag_of_tag? h).tag?_append t
  rw [Piece.textOf_lasting] at hagain htext
  refine ⟨again, hagain, ?_⟩
  obtain ⟨alone, halone, hlasting⟩ := tag?_textOf h
  obtain ⟨same, hsame, hlasting'⟩ := tag?_textOf hagain
  rw [htext, halone] at hsame
  obtain ⟨-, rfl⟩ := Prod.mk.inj (Option.some.inj hsame)
  rw [← hlasting', hlasting]

end Highlight.JavaScript
