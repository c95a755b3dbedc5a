import Highlight.Proofs.Xml.Content

/-!
# What tags take

Tags and attributes take exactly the texts of the grammar. An attribute value is read character by
character and reference by reference; that every `&` in it begins a reference is the same as that it
can be read so.
-/

namespace Highlight.Xml

open Construct (Takes TakesMany measured)
open Piece (textOf width)

variable {label : Kind} {quote : Char} {i r : List Char}

/-- The inside of an attribute value as it is read. -/
inductive ValueText (quote : Char) : List Char → Prop
  | nil : ValueText quote []
  | plain {c : Char} {s : List Char} :
      c ≠ quote → c ≠ '<' → c ≠ '&' → ValueText quote s → ValueText quote (c :: s)
  | reference {s t : List Char} :
      Grammar.Reference s → ValueText quote t → ValueText quote (s ++ t)

/-- Behind its `&` a reference holds nothing that an attribute value minds. -/
theorem Grammar.Reference.exists_cons (h : Grammar.Reference i) :
    ∃ s, i = '&' :: s ∧ ∀ c ∈ ['<', '&', '"', '\''], c ∉ s := by
  have hout {p : Char → Bool} {s : List Char} (hp : ['<', '&', '"', '\''].any p = false)
      (hs : ∀ c ∈ s, p c) : ∀ c ∈ ['<', '&', '"', '\''], c ∉ s ++ ";".toList := by
    intro c hc hmem
    rcases List.mem_append.1 hmem with hin | hend
    · exact List.any_eq_false.1 hp c hc (hs c hin)
    · obtain rfl : c = ';' := List.mem_singleton.1 hend
      exact absurd hc (by decide)
  have hmark {d : Char} {s : List Char} (hd : d ∉ ['<', '&', '"', '\''])
      (hs : ∀ c ∈ ['<', '&', '"', '\''], c ∉ s) : ∀ c ∈ ['<', '&', '"', '\''], c ∉ d :: s :=
    fun c hc ↦ List.not_mem_cons_of_ne_of_not_mem (ne_of_mem_of_not_mem hc hd) (hs c hc)
  cases h with
  | decimal _ hdigits => exact ⟨_, rfl, hmark (by decide) (hout (by decide) hdigits)⟩
  | hexadecimal _ hdigits =>
    exact ⟨_, rfl, hmark (by decide) (hmark (by decide) (hout (by decide) hdigits))⟩
  | entity hname =>
    obtain ⟨hc, hs⟩ := hname
    have hmarks : ['<', '&', '"', '\''].any isNameChar = false := by
      rw [List.any_eq_false]
      intro c hc
      rw [not_isNameChar_of_mem]
      · exact Bool.false_ne_true
      · simp only [List.mem_cons, List.not_mem_nil, or_false] at hc
        rcases hc with rfl | rfl | rfl | rfl <;> decide
    exact ⟨_, rfl, hout hmarks (List.forall_mem_cons.2 ⟨isNameChar_of_isNameStart hc, hs⟩)⟩

/-- The inside of an attribute value as the grammar has it. -/
structure ValueInside (quote : Char) (s : List Char) : Prop where
  noQuote : quote ∉ s
  noMarkup : '<' ∉ s
  references : ∀ front rest, s = front ++ '&' :: rest →
    ∃ reference, Grammar.Reference reference ∧ reference <+: '&' :: rest

theorem ValueInside.nil : ValueInside quote [] := ⟨by simp, by simp, by simp⟩

theorem ValueInside.plain {c : Char} {s : List Char} (hc : c ≠ quote) (hlt : c ≠ '<')
    (hplain : c ≠ '&') (h : ValueInside quote s) : ValueInside quote (c :: s) where
  noQuote := List.not_mem_cons_of_ne_of_not_mem hc.symm h.noQuote
  noMarkup := List.not_mem_cons_of_ne_of_not_mem hlt.symm h.noMarkup
  references := by
    intro front rest hsplit
    cases front with
    | nil => exact absurd (List.cons.inj hsplit).1 hplain
    | cons d front => exact h.references front rest (List.cons.inj hsplit).2

/-- Quotes are among the marks that do not stand in a reference. -/
theorem mem_marks_of_isQuote (h : Text.isQuote quote) : quote ∈ ['<', '&', '"', '\''] := by
  simp only [Text.isQuote, Bool.or_eq_true, beq_iff_eq] at h
  rcases h with rfl | rfl <;> decide

theorem ne_of_isQuote (h : Text.isQuote quote) : '&' ≠ quote := by
  rintro rfl
  exact absurd h (by decide)

theorem ValueInside.reference {s t : List Char} (hquote : Text.isQuote quote)
    (hreference : Grammar.Reference s) (h : ValueInside quote t) : ValueInside quote (s ++ t) := by
  obtain ⟨s, rfl, hs⟩ := hreference.exists_cons
  refine ⟨?_, ?_, fun front rest hsplit ↦ ?_⟩
  · simp [(ne_of_isQuote hquote).symm, hs quote (mem_marks_of_isQuote hquote), h.noQuote]
  · simp [hs '<' (by decide), h.noMarkup]
  · cases front with
    | nil =>
      refine ⟨_, hreference, ?_⟩
      rw [List.nil_append] at hsplit
      rw [← hsplit]
      exact List.prefix_append _ _
    | cons d front =>
      -- Another `&` cannot stand in the reference, so it stands behind it.
      rcases List.append_eq_append_iff.1 (List.cons.inj hsplit).2 with ⟨u, rfl, hu⟩ | ⟨u, rfl, hu⟩
      · exact h.references u rest hu
      · cases u with
        | nil => exact h.references [] rest hu.symm
        | cons e u =>
          obtain ⟨rfl, -⟩ := List.cons.inj hu
          exact absurd (by simp) (hs '&' (by decide))

theorem ValueInside.of_append {s t : List Char} (h : ValueInside quote (s ++ t)) :
    ValueInside quote t where
  noQuote hmem := h.noQuote (List.mem_append_right s hmem)
  noMarkup hmem := h.noMarkup (List.mem_append_right s hmem)
  references := by
    rintro front rest rfl
    exact h.references (s ++ front) rest (List.append_assoc _ _ _).symm

theorem ValueInside.valueText (h : ValueInside quote i) : ValueText quote i := by
  induction hn : i.length using Nat.strongRecOn generalizing i with
  | ind n ih =>
    cases i with
    | nil => exact .nil
    | cons c s =>
      by_cases hc : c = '&'
      · subst hc
        obtain ⟨reference, hreference, t, hsplit⟩ := h.references [] s rfl
        obtain ⟨u, rfl, -⟩ := hreference.exists_cons
        rw [← hsplit] at h hn ⊢
        have hlt : t.length < n := by
          rw [← hn, List.length_append, List.length_cons]
          omega
        exact .reference hreference (ih t.length hlt h.of_append rfl)
      · have hlt : s.length < n := by
          rw [← hn, List.length_cons]
          exact Nat.lt_succ_self _
        have hquote : c ≠ quote := ne_of_mem_of_not_mem List.mem_cons_self h.noQuote
        have hmarkup : c ≠ '<' := ne_of_mem_of_not_mem List.mem_cons_self h.noMarkup
        exact .plain hquote hmarkup hc (ih s.length hlt (of_append (s := [c]) h) rfl)

theorem valueText_iff (hquote : Text.isQuote quote) :
    ValueText quote i ↔ ValueInside quote i := by
  constructor
  · intro h
    induction h with
    | nil => exact .nil
    | plain hc hlt hplain _ ih => exact .plain hc hlt hplain ih
    | reference hreference _ ih => exact .reference hquote hreference ih
  · exact fun h ↦ h.valueText

section

variable (label) (part s : List Char)

theorem partsFrom_quote : partsFrom label (valueTurn quote) [] part (quote :: s) =
    some (Piece.shown label (part.reverse ++ [quote])) := by
  rw [partsFrom]
  simp only [valueTurn, if_true]
  rfl

theorem partsFrom_markup (h : '<' ≠ quote) :
    partsFrom label (valueTurn quote) [] part ('<' :: s) = none := by
  rw [partsFrom]
  simp only [valueTurn, if_neg h, if_true]

theorem partsFrom_plain {c : Char} (hclose : c ≠ quote) (hmarkup : c ≠ '<') (hamp : c ≠ '&') :
    partsFrom label (valueTurn quote) [] part (c :: s) =
      partsFrom label (valueTurn quote) [] (c :: part) s := by
  rw [partsFrom]
  simp only [valueTurn, if_neg hclose, if_neg hmarkup, if_neg hamp]

theorem partsFrom_noReference (hquote : '&' ≠ quote) (h : reference ('&' :: s) = none) :
    partsFrom label (valueTurn quote) [] part ('&' :: s) = none := by
  rw [partsFrom]
  simp only [valueTurn, if_neg hquote, if_neg (by decide : '&' ≠ '<'), if_true, h]

theorem partsFrom_reference {pieces : List (Piece Kind)} (hquote : '&' ≠ quote)
    (h : reference ('&' :: s) = some pieces) :
    partsFrom label (valueTurn quote) [] part ('&' :: s) =
      (partsFrom label (valueTurn quote) [] [] (('&' :: s).drop (width pieces))).map
        (Piece.shown label part.reverse ++ pieces ++ ·) := by
  have hpos := advances_reference _ _ h
  rw [partsFrom]
  simp only [valueTurn, if_neg hquote, if_neg (by decide : '&' ≠ '<'), if_true, h,
    if_neg (Nat.ne_of_gt hpos)]
  rw [partsFrom_eq]
  simp

end

/-- The loop over the inside of an attribute value finds its end. -/
theorem valueText_of_partsFrom {part s : List Char} {ps : List (Piece Kind)}
    (h : partsFrom label (valueTurn quote) [] part s = some ps) :
    ∃ body rest, s = body ++ quote :: rest ∧ ValueText quote body ∧
      textOf ps = part.reverse ++ body ++ [quote] := by
  induction hn : s.length using Nat.strongRecOn generalizing part s ps with
  | ind n ih =>
    cases s with
    | nil => simp [partsFrom, valueTurn] at h
    | cons c s =>
      by_cases hclose : c = quote
      · subst hclose
        rw [partsFrom_quote, Option.some.injEq] at h
        refine ⟨[], s, rfl, .nil, ?_⟩
        rw [← h, Piece.textOf_shown, List.append_nil]
      by_cases hmarkup : c = '<'
      · subst hmarkup
        rw [partsFrom_markup label part s hclose] at h
        exact absurd h (by simp)
      by_cases hamp : c = '&'
      · subst hamp
        cases hreference : reference ('&' :: s) with
        | none =>
          rw [partsFrom_noReference label part s hclose hreference] at h
          exact absurd h (by simp)
        | some pieces =>
          have htakes := fits_reference.takes hreference
          have hpos := advances_reference _ _ hreference
          have hsplit := (fits_reference.read _ _ hreference).textOf_append_drop
          have hlt : (('&' :: s).drop (width pieces)).length < n :=
            hn ▸ Piece.length_drop_width_lt (Nat.ne_of_gt hpos) '&' s
          rw [partsFrom_reference label part s hclose hreference, Option.map_eq_some_iff] at h
          obtain ⟨qs, hqs, rfl⟩ := h
          obtain ⟨body, rest, hrest, hbody, htext⟩ := ih _ hlt hqs rfl
          refine ⟨textOf pieces ++ body, rest, ?_,
            .reference (takes_reference_iff.1 htakes) hbody, ?_⟩
          · rw [List.append_assoc, ← hrest, hsplit]
          · simp [htext]
      · have hlt : s.length < n := by
          rw [← hn, List.length_cons]
          exact Nat.lt_succ_self _
        rw [partsFrom_plain label part s hclose hmarkup hamp] at h
        obtain ⟨body, rest, rfl, hbody, htext⟩ := ih s.length hlt h rfl
        refine ⟨c :: body, rest, rfl, .plain hclose hmarkup hamp hbody, ?_⟩
        rw [htext]
        simp

theorem reference_append (h : Grammar.Reference i) (r : List Char) :
    reference (i ++ r) = some [.token .escape i] := by
  have htakes : reference.Takes i r := takes_reference_iff.2 h
  obtain ⟨ps, hps, htext⟩ := htakes
  obtain ⟨-, hpieces⟩ := Construct.measured_eq_some.1 hps
  rw [hpieces, Piece.textOf_cons, Piece.textOf_nil, List.append_nil] at htext
  rw [hps, hpieces]
  exact congrArg (fun text ↦ some [Piece.token Kind.escape text]) htext

/-- The pieces of an attribute value do not depend on what follows it. -/
theorem exists_partsFrom (label : Kind) (hquote : Text.isQuote quote) {body : List Char}
    (h : ValueText quote body) (part : List Char) :
    ∃ ps, textOf ps = part.reverse ++ body ++ [quote] ∧
      ∀ rest, partsFrom label (valueTurn quote) [] part (body ++ quote :: rest) = some ps := by
  induction h generalizing part with
  | nil => exact ⟨_, by simp, fun rest ↦ partsFrom_quote label part rest⟩
  | @plain c s hclose hmarkup hamp _ ih =>
    obtain ⟨ps, htext, hps⟩ := ih (c :: part)
    refine ⟨ps, by simp [htext], fun rest ↦ ?_⟩
    rw [List.cons_append, partsFrom_plain label part _ hclose hmarkup hamp]
    exact hps rest
  | @reference s t hreference _ ih =>
    obtain ⟨ps, htext, hps⟩ := ih []
    refine ⟨Piece.shown label part.reverse ++ [.token .escape s] ++ ps, ?_, fun rest ↦ ?_⟩
    · simp [htext, Piece.text]
    · have hpieces := reference_append hreference (t ++ quote :: rest)
      have hdrop : (s ++ (t ++ quote :: rest)).drop (width [Piece.token Kind.escape s]) =
          t ++ quote :: rest := by
        rw [Piece.width_cons, Piece.width_nil, Nat.add_zero]
        exact List.drop_left
      obtain ⟨u, hu, -⟩ := hreference.exists_cons
      rw [List.append_assoc]
      rw [hu, List.cons_append] at hpieces hdrop ⊢
      rw [partsFrom_reference label part _ (ne_of_isQuote hquote) hpieces, hdrop, hps]
      rfl

theorem exists_attributeValue (h : Grammar.AttributeValue i) :
    ∃ ps, textOf ps = i ∧ ∀ r, attributeValue (i ++ r) = some ps := by
  obtain @⟨quote, s, hquote, hs, hmarkup, hreferences⟩ := h
  obtain ⟨ps, htext, hps⟩ := exists_partsFrom .string hquote
    ((valueText_iff hquote).2 ⟨hs, hmarkup, hreferences⟩) [quote]
  refine ⟨ps, htext, fun r ↦ ?_⟩
  have hread : attributeValue ([quote] ++ s ++ [quote] ++ r) =
      Construct.onlyIf (Text.isQuote quote) (.parts .string 1 (valueTurn quote))
        ([quote] ++ s ++ [quote] ++ r) := rfl
  rw [hread, Construct.onlyIf_eq_some, List.append_assoc, List.append_assoc]
  exact ⟨hquote, hps r⟩

/-- An attribute value is read exactly where the grammar has one. -/
theorem takes_attributeValue_iff : attributeValue.Takes i r ↔ Grammar.AttributeValue i := by
  constructor
  · intro h
    rw [attributeValue, Construct.takes_choose_iff, Construct.takes_onlyIf_iff] at h
    obtain ⟨hstart, ps, hps, htext⟩ := h
    cases hsource : i ++ r with
    | nil => simp [hsource] at hstart
    | cons quote s =>
      rw [hsource] at hstart hps
      obtain ⟨body, rest, -, hbody, hbodyText⟩ := valueText_of_partsFrom hps
      have hinside := (valueText_iff hstart).1 hbody
      rw [← htext, hbodyText]
      exact .mk hstart hinside.noQuote hinside.noMarkup hinside.references
  · intro h
    obtain ⟨ps, htext, hps⟩ := exists_attributeValue h
    exact ⟨ps, hps r, htext⟩

theorem takes_spacedAttribute_iff : spacedAttribute.Takes i r ↔ Grammar.Attribute i := by
  simp only [spacedAttribute, tagAttribute, Construct.takes_seq_cons_cons_iff,
    Construct.takes_seq_singleton_iff, takes_someSpace_iff, takes_name_iff, takes_space_iff,
    Construct.takes_skipLiteral_iff, takes_attributeValue_iff]
  constructor
  · rintro ⟨space, _, rfl, ⟨hspace, -⟩, name, _, rfl, ⟨hname, -⟩, before, _, rfl, ⟨hbefore, -⟩, _, _,
      rfl, rfl, behind, value, rfl, ⟨hbehind, -⟩, hvalue⟩
    have hform := Grammar.Attribute.mk hspace hname hbefore hbehind hvalue
    simpa only [List.append_assoc] using hform
  · rintro @⟨space, name, before, behind, value, hspace, hname, hbefore, hbehind, hvalue⟩
    have hvalueStart : Text.startsIn isSpace (value ++ r) = false := by
      obtain ⟨hquote, -, -, -⟩ := hvalue
      exact not_isSpace_quote hquote
    refine ⟨space, _, by simp only [List.append_assoc], ⟨hspace, ?_⟩, name, _, rfl, ⟨hname, ?_⟩,
      before, _, rfl, ⟨hbefore, rfl⟩, _, _, rfl, rfl, behind, value, rfl, ⟨hbehind, hvalueStart⟩,
      hvalue⟩
    all_goals simp only [List.append_assoc]
    · exact hname.startsIn_isSpace _
    · exact startsIn_isNameChar_append hbefore (not_isNameChar_of_mem (by decide))

/-- Where a construct takes exactly the texts of a form, its repetition goes on with them until the
construct is not there. -/
theorem takesMany_iff {c : Construct Kind} {form : List Char → Prop}
    (h : ∀ {i r}, c.Takes i r ↔ form i) : TakesMany c i r ↔ Grammar.Many form i ∧ c r = none := by
  constructor
  · intro hmany
    refine ⟨?_, hmany.ends⟩
    induction hmany with
    | nil _ => exact .nil
    | cons ha _ ih => exact .cons (h.1 ha) ih
  · rintro ⟨hmany, hr⟩
    induction hmany with
    | nil => exact .nil hr
    | cons hs _ ih => exact .cons (h.2 hs) ih

/-! ## Tags -/

theorem takes_tagEnd_iff :
    (Construct.firstOf [.literal label ">", .literal label "/>"]).Takes i r ↔
      i = ">".toList ∨ i = "/>".toList := by
  constructor
  · intro h
    obtain ⟨c, hc, htakes⟩ := Construct.exists_takes_of_firstOf h
    simp only [List.mem_cons, List.not_mem_nil, or_false] at hc
    exact hc.imp (fun hc ↦ by simpa [hc] using htakes) fun hc ↦ by simpa [hc] using htakes
  · rintro (rfl | rfl)
    · exact Construct.takes_firstOf_cons_iff.2 (.inl (Construct.takes_literal_iff.2 rfl))
    · refine Construct.takes_firstOf_cons_iff.2 (.inr ⟨?_, ?_⟩)
      · simp [Construct.literal, Text.startsWith]
      · exact Construct.takes_firstOf_cons_iff.2 (.inl (Construct.takes_literal_iff.2 rfl))

/-- In front of the end of a tag there is no attribute. -/
theorem spacedAttribute_close {space closing : List Char} (hspace : Grammar.OptionalSpace space)
    (hclosing : closing = ">".toList ∨ closing = "/>".toList) :
    spacedAttribute (space ++ (closing ++ r)) = none := by
  have hstop : Text.startsIn isSpace (closing ++ r) = false := by
    rcases hclosing with rfl | rfl <;> rfl
  have hnoName : Text.startsIn isNameChar (closing ++ r) = false := by
    rcases hclosing with rfl | rfl <;> exact not_isNameChar_of_mem (by decide)
  rw [← Option.not_isSome_iff_eq_none]
  intro h
  obtain ⟨a, b, hsplit, htakes⟩ := fits_spacedAttribute.exists_takes h
  obtain @⟨before, name, _, _, _, hbefore, hname, -, -, -⟩ := takes_spacedAttribute_iff.1 htakes
  simp only [List.append_assoc] at hsplit
  -- Both texts begin with the same white space, behind which only one of them has a name.
  obtain ⟨rfl, hrest⟩ := (takes_space_iff.2 ⟨hspace, hstop⟩).unique
    (takes_space_iff.2 ⟨hbefore.2, hname.startsIn_isSpace _⟩) hsplit
  obtain @⟨c, s, hc, -⟩ := hname
  rw [hrest, List.cons_append, Text.startsIn_cons, isNameChar_of_isNameStart hc] at hnoName
  exact absurd hnoName (by decide)

/-- A start tag is read exactly where the grammar has one. -/
theorem takes_startTag_iff : startTag.Takes i r ↔ Grammar.StartTag i := by
  simp only [startTag, Construct.takes_seq_cons_cons_iff, Construct.takes_seq_singleton_iff,
    Construct.takes_literal_iff, takes_name_iff, takes_space_iff, takes_tagEnd_iff,
    Construct.takes_many_iff advances_spacedAttribute fits_spacedAttribute,
    takesMany_iff takes_spacedAttribute_iff]
  constructor
  · rintro ⟨_, _, rfl, rfl, name, _, rfl, ⟨hname, -⟩, attributes, _, rfl, ⟨hattributes, -⟩, space,
      closing, rfl, ⟨hspace, -⟩, hclosing⟩
    have hform := Grammar.StartTag.mk hname hattributes hspace hclosing
    simpa only [List.append_assoc] using hform
  · rintro @⟨name, attributes, space, closing, hname, hattributes, hspace, hclosing⟩
    have hclosingSpace : Text.startsIn isSpace (closing ++ r) = false := by
      rcases hclosing with rfl | rfl <;> rfl
    refine ⟨"<".toList, _, by simp only [List.append_assoc], rfl, name, _, rfl, ⟨hname, ?_⟩,
      attributes, _, rfl, ⟨hattributes, ?_⟩, space, closing, rfl, ⟨hspace, hclosingSpace⟩, hclosing⟩
    all_goals simp only [List.append_assoc]
    · have hbehind : Text.startsIn isNameChar (space ++ (closing ++ r)) = false := by
        apply startsIn_isNameChar_append hspace
        rcases hclosing with rfl | rfl <;> exact not_isNameChar_of_mem (by decide)
      cases hattributes with
      | nil => exact hbehind
      | cons hattribute _ =>
        obtain ⟨⟨hne, hbefore⟩, -, -, -, -⟩ := hattribute
        obtain ⟨c, s, rfl⟩ := List.exists_cons_of_ne_nil hne
        exact isNameChar_of_isSpace (hbefore c List.mem_cons_self)
    · exact spacedAttribute_close hspace hclosing

theorem takes_endTag_iff : endTag.Takes i r ↔ Grammar.EndTag i := by
  simp only [endTag, Construct.takes_seq_cons_cons_iff, Construct.takes_seq_singleton_iff,
    Construct.takes_literal_iff, takes_name_iff, takes_space_iff]
  constructor
  · rintro ⟨_, _, rfl, rfl, name, _, rfl, ⟨hname, -⟩, space, _, rfl, ⟨hspace, -⟩, rfl⟩
    rw [← List.append_assoc, ← List.append_assoc]
    exact .mk hname hspace
  · rintro @⟨name, space, hname, hspace⟩
    refine ⟨"</".toList, _, by simp only [List.append_assoc], rfl, name, _, rfl, ⟨hname, ?_⟩, space, _,
      rfl, ⟨hspace, rfl⟩, rfl⟩
    rw [List.append_assoc]
    exact startsIn_isNameChar_append hspace (not_isNameChar_of_mem (by decide))

end Highlight.Xml
