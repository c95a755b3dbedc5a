import Highlight.Proofs.Xml.Content

/-!
# What a document type declaration takes

The parts of a document type declaration take exactly the texts of the grammar. Some of them can be
cut in several ways, such as white space next to white space or a capital behind the name of a
declaration; the scanner finds the cut that leaves the least behind, and whatever can be cut at all
can be cut there.
-/

namespace Highlight.Xml

open Construct (Takes TakesMany measured skip skipSome)

variable {label : Kind} {i r : List Char}

theorem takes_parameterReference_iff :
    parameterReference.Takes i r ↔ Grammar.ParameterReference i := by
  rw [parameterReference,
    (Construct.measures_measured _ parameterReferenceLength).takes_iff parameterReferenceLength_le]
  unfold parameterReferenceLength
  constructor
  · rintro ⟨hi, hlength⟩
    split_ifs at hlength with hmark
    · obtain ⟨t, hn, rfl⟩ := Reference.eq_of_closedLength hi hmark hlength
      exact .mk (name_take hn)
    · exact absurd hlength.symm (Nat.ne_of_gt (List.length_pos_iff.2 hi))
  · rintro @⟨name, hname⟩
    have hne : name ≠ [] := by
      cases hname
      exact List.cons_ne_nil _ _
    rw [if_pos (Text.startsWith_iff.2 (by simp only [List.append_assoc, List.prefix_append]))]
    refine ⟨by simp, ?_⟩
    exact Reference.closedLength_append "%" hne
      (nameLength_append hname (not_isNameChar_of_mem (by decide)))

/-- A bare character is taken alone. -/
theorem takes_bare_iff :
    (skipSome (fun s ↦ if isBare s then 1 else 0) : Construct Kind).Takes i r ↔
      ∃ c, i = [c] ∧ isBare (c :: r) := by
  have hle (s : List Char) : (if isBare s then 1 else 0) ≤ s.length := by
    cases s with
    | nil => simp [isBare]
    | cons c s => split <;> simp
  rw [(Construct.measures_skipSome _).takes_iff hle]
  constructor
  · rintro ⟨hi, hlength⟩
    split_ifs at hlength with hbare
    · obtain ⟨c, rfl⟩ := List.length_eq_one_iff.1 hlength.symm
      exact ⟨c, rfl, hbare⟩
    · exact absurd hlength.symm (Nat.ne_of_gt (List.length_pos_iff.2 hi))
  · rintro ⟨c, rfl, hbare⟩
    exact ⟨List.cons_ne_nil c [], if_pos hbare⟩

theorem isBare_cons_iff {c : Char} : isBare (c :: r) ↔
    c ≠ '>' ∧ Text.isQuote c = false ∧ (c = '%' → Text.startsIn isNameStart r = false) := by
  have hname : nameLength r = 0 ↔ Text.startsIn isNameStart r = false :=
    Text.wordLength_eq_zero_iff
  rw [← hname]
  simp [isBare, and_assoc, imp_iff_not_or]

theorem exists_of_declarationPart (h : declarationPart.Takes i r) :
    Grammar.SystemLiteral i ∨ Grammar.ParameterReference i ∨ ∃ c, i = [c] ∧ isBare (c :: r) := by
  obtain ⟨c, hc, htakes⟩ := Construct.exists_takes_of_firstOf h
  simp only [List.mem_cons, List.not_mem_nil, or_false] at hc
  rcases hc with rfl | rfl | rfl
  · exact .inl (takes_systemLiteral_iff.1 htakes)
  · exact .inr (.inl (takes_parameterReference_iff.1 htakes))
  · exact .inr (.inr (takes_bare_iff.1 htakes))

def declarationPartFor (s : List Char) : Construct Kind :=
  if isBare s then skipSome fun s ↦ if isBare s then 1 else 0
  else if Text.startsIn Text.isQuote s then measured .string systemLiteralLength
  else parameterReference

theorem declarationPartFor_literal (h : Grammar.SystemLiteral i) (r : List Char) :
    declarationPartFor (i ++ r) = measured .string systemLiteralLength := by
  obtain @⟨quote, s, hquote, -⟩ := h
  simp [declarationPartFor, isBare, hquote]

theorem declarationPartFor_reference (h : Grammar.ParameterReference i) (r : List Char) :
    declarationPartFor (i ++ r) = parameterReference := by
  obtain @⟨_, @⟨c, s, hc, -⟩⟩ := h
  have hbare : ¬ isBare ('%' :: (c :: s ++ ";".toList ++ r)) := by
    rw [isBare_cons_iff]
    rintro ⟨-, -, hstart⟩
    exact absurd (hstart rfl) (by simp [hc])
  have hquote : Text.isQuote '%' = false := by decide
  change declarationPartFor ('%' :: (c :: s ++ ";".toList ++ r)) = _
  rw [declarationPartFor, if_neg hbare, Text.startsIn_cons, hquote, if_neg Bool.false_ne_true]

theorem declarationPartFor_of_takes :
    ∀ d ∈ [measured .string systemLiteralLength, parameterReference,
      skipSome fun s ↦ if isBare s then 1 else 0],
      ∀ a b, d.Takes a b → declarationPartFor (a ++ b) = d := by
  simp only [List.forall_mem_cons]
  refine ⟨fun a b h ↦ ?_, fun a b h ↦ ?_, fun a b h ↦ ?_, List.forall_mem_nil _⟩
  · exact declarationPartFor_literal (takes_systemLiteral_iff.1 h) b
  · exact declarationPartFor_reference (takes_parameterReference_iff.1 h) b
  · obtain ⟨c, rfl, hbare⟩ := takes_bare_iff.1 h
    exact if_pos hbare

theorem takes_declarationPart_iff :
    declarationPart.Takes i r ↔ (declarationPartFor (i ++ r)).Takes i r := by
  apply Construct.takes_firstOf_iff
  · simp
  · intro s
    unfold declarationPartFor parameterReference
    split_ifs <;> simp
  · exact declarationPartFor_of_takes

/-- A mark and a run of a class behind it are taken where the class goes no further. -/
theorem takes_marked_iff (lit : String) (p : Char → Bool) :
    (measured label (markedLength lit p)).Takes i r ↔ ∃ run, i = lit.toList ++ run ∧ run ≠ [] ∧
      (∀ c ∈ run, p c) ∧ Text.startsIn p r = false := by
  rw [(Construct.measures_measured _ _).takes_iff (markedLength_le lit p), markedLength]
  constructor
  · rintro ⟨hi, hmeasured⟩
    have hpos := List.length_pos_iff.2 hi
    cases hafter : Text.after? lit (i ++ r) with
    | none =>
      simp only [hafter] at hmeasured
      omega
    | some rest =>
      obtain ⟨run, behind, rfl, hrun, hbehind⟩ := Text.exists_run p rest
      simp only [hafter, Text.spanLength_append_iff.2 ⟨hrun, hbehind⟩] at hmeasured
      split_ifs at hmeasured with hn
      · omega
      · have hsplit : i ++ r = lit.toList ++ run ++ behind := by
          rw [Text.after?_eq_some.1 hafter, List.append_assoc]
        have hrunLength : i.length = (lit.toList ++ run).length := by
          rw [← hmeasured, List.length_append]
        obtain ⟨rfl, rfl⟩ := List.append_inj hsplit hrunLength
        exact ⟨run, rfl, List.length_eq_zero_iff.not.1 hn, hrun, hbehind⟩
  · rintro ⟨run, rfl, hne, hrun, hr⟩
    have hafter : Text.after? lit (lit.toList ++ run ++ r) = some (run ++ r) := by
      rw [Text.after?_eq_some, List.append_assoc]
    refine ⟨List.append_ne_nil_of_right_ne_nil _ hne, ?_⟩
    simp only [hafter, Text.spanLength_append_iff.2 ⟨hrun, hr⟩, List.length_eq_zero_iff, hne,
      if_false, List.length_append]

theorem takes_declarationMark_iff : (measured label declarationMarkLength).Takes i r ↔
    ∃ mark, i = "<!".toList ++ mark ∧ mark ≠ [] ∧ (∀ c ∈ mark, c.isUpper) ∧
      Text.startsIn Char.isUpper r = false :=
  takes_marked_iff "<!" Char.isUpper

/-- The loop over the inside of a declaration reads what the grammar admits there. -/
theorem declarationRest_of_takesMany (h : TakesMany declarationPart i (">".toList ++ r)) :
    Grammar.DeclarationRest (i ++ ">".toList) := by
  generalize hrest : ">".toList ++ r = rest at h
  induction h with
  | nil _ => exact .close
  | @cons a b _ ha _ ih =>
    subst hrest
    have hind := ih rfl
    rw [List.append_assoc]
    rcases exists_of_declarationPart ha with hliteral | hreference | ⟨c, rfl, hbare⟩
    · exact .literal hliteral hind
    · exact .reference hreference hind
    · obtain ⟨hclose, hquote, hpercent⟩ := isBare_cons_iff.1 hbare
      refine .character hclose hquote (fun hc ↦ ?_) hind
      have hstart := hpercent hc
      cases b with
      | nil => exact hstart
      | cons d b => exact hstart

/-- A declaration may lose the capitals that its inside begins with to its name. -/
theorem declarationRest_of_append {u s : List Char} (hu : ∀ c ∈ u, c.isUpper)
    (h : Grammar.DeclarationRest (u ++ s)) : Grammar.DeclarationRest s := by
  induction u with
  | nil => exact h
  | cons c u ih =>
    rw [List.forall_mem_cons] at hu
    refine ih hu.2 ?_
    generalize hsame : c :: u ++ s = t at h
    cases h with
    | close =>
      obtain ⟨rfl, -⟩ := List.cons.inj hsame
      exact absurd hu.1 (by decide)
    | literal hliteral _ =>
      obtain @⟨quote, s, hquote, -⟩ := hliteral
      obtain ⟨rfl, -⟩ := List.cons.inj hsame
      simp only [Text.isQuote, Bool.or_eq_true, beq_iff_eq] at hquote
      rcases hquote with rfl | rfl <;> exact absurd hu.1 (by decide)
    | reference hreference _ =>
      cases hreference
      obtain ⟨rfl, -⟩ := List.cons.inj hsame
      exact absurd hu.1 (by decide)
    | character _ _ _ ht =>
      obtain ⟨-, rfl⟩ := List.cons.inj hsame
      exact ht

theorem declarationPart_close (r : List Char) : declarationPart (">".toList ++ r) = none := by
  apply Construct.firstOf_eq_none_iff.2
  simp [measured, skipSome, parameterReference, systemLiteralLength, Text.quotedLength, isBare,
    Text.isQuote, parameterReferenceLength, Text.startsWith]

/-- What the grammar admits inside a declaration is read by the loop up to the end mark. -/
theorem takesMany_of_declarationRest {s : List Char} (h : Grammar.DeclarationRest s)
    (r : List Char) :
    ∃ i, s = i ++ ">".toList ∧ TakesMany declarationPart i (">".toList ++ r) := by
  induction h with
  | close => exact ⟨[], rfl, .nil (declarationPart_close r)⟩
  | @literal s t hliteral _ ih =>
    obtain ⟨i, rfl, htakes⟩ := ih
    refine ⟨s ++ i, (List.append_assoc _ _ _).symm, .cons ?_ htakes⟩
    rw [takes_declarationPart_iff, declarationPartFor_literal hliteral]
    exact takes_systemLiteral_iff.2 hliteral
  | @reference s t hreference _ ih =>
    obtain ⟨i, rfl, htakes⟩ := ih
    refine ⟨s ++ i, (List.append_assoc _ _ _).symm, .cons ?_ htakes⟩
    rw [takes_declarationPart_iff, declarationPartFor_reference hreference]
    exact takes_parameterReference_iff.2 hreference
  | @character c t hclose hquote hpercent _ ih =>
    obtain ⟨i, rfl, htakes⟩ := ih
    have hbare : isBare (c :: (i ++ (">".toList ++ r))) := by
      refine isBare_cons_iff.2 ⟨hclose, hquote, fun hc ↦ ?_⟩
      have hstart := hpercent hc
      cases i with
      | nil => exact hstart
      | cons d i => exact hstart
    refine ⟨[c] ++ i, rfl, .cons ?_ htakes⟩
    rw [takes_declarationPart_iff, List.singleton_append, declarationPartFor, if_pos hbare]
    exact takes_bare_iff.2 ⟨c, rfl, hbare⟩

theorem takes_markupDeclaration_iff : markupDeclaration.Takes i r ↔ Grammar.Declaration i := by
  simp only [markupDeclaration, Construct.takes_seq_cons_cons_iff,
    Construct.takes_seq_singleton_iff, Construct.takes_literal_iff, takes_declarationMark_iff,
    Construct.takes_many_iff advances_declarationPart fits_declarationPart]
  constructor
  · rintro ⟨_, _, rfl, ⟨mark, rfl, hne, hmark, -⟩, inside, _, rfl, hinside, rfl⟩
    exact .mk hne hmark (declarationRest_of_takesMany hinside)
  · rintro @⟨mark, rest, hne, hmark, hrest⟩
    -- The capitals next to the mark are read as part of it.
    obtain ⟨u, v, rfl, hu, hv⟩ := Text.exists_run Char.isUpper rest
    obtain ⟨inside, rfl, htakes⟩ :=
      takesMany_of_declarationRest (declarationRest_of_append hu hrest) r
    have hfollow : Text.startsIn Char.isUpper (inside ++ ">".toList ++ r) = false := by
      cases inside with
      | nil => rfl
      | cons c inside => exact hv
    refine ⟨"<!".toList ++ (mark ++ u), inside ++ ">".toList, ?_,
      ⟨mark ++ u, rfl, ?_, ?_, hfollow⟩, inside, ">".toList, rfl, htakes, rfl⟩
    · simp only [List.append_assoc]
    · exact List.append_ne_nil_of_left_ne_nil hne u
    · exact List.forall_mem_append.2 ⟨hmark, hu⟩

theorem Grammar.Space.startsIn_append (h : Grammar.Space i) (r : List Char) :
    Text.startsIn isSpace (i ++ r) := by
  obtain ⟨hne, hspace⟩ := h
  obtain ⟨c, s, rfl⟩ := List.exists_cons_of_ne_nil hne
  exact hspace c List.mem_cons_self

theorem subsetPart_of_takes (h : subsetPart.Takes i r) : Grammar.SubsetPart i := by
  obtain ⟨c, hc, htakes⟩ := Construct.exists_takes_of_firstOf h
  simp only [List.mem_cons, List.not_mem_nil, or_false] at hc
  rcases hc with rfl | rfl | rfl | rfl | rfl
  · exact .space (takes_someSpace_iff.1 htakes).1
  · exact .comment (takes_comment_iff.1 htakes)
  · exact .instruction (takes_instruction_iff.1 htakes)
  · exact .declaration (takes_markupDeclaration_iff.1 htakes)
  · exact .reference (takes_parameterReference_iff.1 htakes)

/-- What the next characters of an internal subset call for. -/
def subsetPartFor : List Char → Construct Kind
  | '%' :: _ => parameterReference
  | '<' :: '?' :: _ => instruction
  | '<' :: '!' :: '-' :: _ => comment
  | '<' :: _ => markupDeclaration
  | _ => skipSome spaceLength

theorem subsetPartFor_space {s : List Char} (h : Text.startsIn isSpace s) :
    subsetPartFor s = skipSome spaceLength := by
  cases s with
  | nil => rfl
  | cons c s =>
    simp only [Text.startsIn_cons, isSpace, Bool.or_eq_true, beq_iff_eq] at h
    rcases h with ((rfl | rfl) | rfl) | rfl <;> rfl

theorem subsetPartFor_declaration (h : Grammar.Declaration i) (r : List Char) :
    subsetPartFor (i ++ r) = markupDeclaration := by
  obtain @⟨mark, rest, hne, hmark, -⟩ := h
  obtain ⟨c, mark, rfl⟩ := List.exists_cons_of_ne_nil hne
  have hc : c ≠ '-' := by
    rintro rfl
    exact absurd (hmark '-' List.mem_cons_self) (by decide)
  change subsetPartFor ('<' :: '!' :: c :: (mark ++ rest ++ r)) = _
  simp [subsetPartFor, hc]

theorem subsetPartFor_of_takes :
    ∀ d ∈ [skipSome spaceLength, comment, instruction, markupDeclaration, parameterReference],
      ∀ a b, d.Takes a b → subsetPartFor (a ++ b) = d := by
  simp only [List.forall_mem_cons]
  refine ⟨fun a b h ↦ ?_, fun a b h ↦ ?_, fun a b h ↦ ?_, fun a b h ↦ ?_, fun a b h ↦ ?_,
    List.forall_mem_nil _⟩
  · exact subsetPartFor_space ((takes_someSpace_iff.1 h).1.startsIn_append b)
  · obtain ⟨-, -⟩ := takes_comment_iff.1 h
    rfl
  · obtain ⟨-, -⟩ := takes_instruction_iff.1 h
    rfl
  · exact subsetPartFor_declaration (takes_markupDeclaration_iff.1 h) b
  · obtain ⟨-⟩ := takes_parameterReference_iff.1 h
    rfl

theorem takes_subsetPart_iff : subsetPart.Takes i r ↔ (subsetPartFor (i ++ r)).Takes i r := by
  apply Construct.takes_firstOf_iff
  · simp
  · intro s
    unfold subsetPartFor
    split <;> simp
  · exact subsetPartFor_of_takes

/-- What an internal subset calls for is a part of it. -/
theorem takes_subsetPart_of_subsetPartFor {c : Construct Kind} (hcalled : subsetPartFor (i ++ r) = c)
    (h : c.Takes i r) : subsetPart.Takes i r := by
  apply takes_subsetPart_iff.2
  rw [hcalled]
  exact h

theorem takes_subsetPart_space (h : Grammar.Space i) (hr : Text.startsIn isSpace r = false) :
    subsetPart.Takes i r := by
  apply takes_subsetPart_of_subsetPartFor _ (takes_someSpace_iff.2 ⟨h, hr⟩)
  exact subsetPartFor_space (h.startsIn_append r)

/-- White space in front of a subset is read together with white space that follows it. -/
theorem takesMany_subset_append {s : List Char} (hs : Grammar.Space s)
    (h : TakesMany subsetPart i r) (hr : Text.startsIn isSpace r = false) :
    TakesMany subsetPart (s ++ i) r := by
  cases h with
  | nil hend => exact .cons (takes_subsetPart_space hs hr) (.nil hend)
  | @cons a b _ ha hb =>
    by_cases hspace : Text.startsIn isSpace (a ++ (b ++ r))
    · rw [takes_subsetPart_iff, subsetPartFor_space hspace, takes_someSpace_iff] at ha
      rw [← List.append_assoc]
      refine .cons (takes_subsetPart_space ⟨?_, ?_⟩ ha.2) hb
      · exact List.append_ne_nil_of_left_ne_nil hs.1 a
      · exact List.forall_mem_append.2 ⟨hs.2, ha.1.2⟩
    · refine .cons (takes_subsetPart_space hs ?_) (.cons ha hb)
      rw [List.append_assoc]
      exact Bool.eq_false_iff.2 hspace

theorem subsetPart_close (r : List Char) : subsetPart ("]".toList ++ r) = none := by
  rw [← Option.not_isSome_iff_eq_none]
  intro h
  obtain ⟨a, b, hsplit, htakes⟩ := fits_subsetPart.exists_takes h
  rw [takes_subsetPart_iff, ← hsplit] at htakes
  have hspace := (takes_someSpace_iff.1 htakes).1.startsIn_append b
  rw [← hsplit] at hspace
  exact absurd hspace (by simp [isSpace])

/-- The parts of an internal subset are those of the grammar, one behind the other. -/
theorem takesMany_subset_iff : TakesMany subsetPart i ("]".toList ++ r) ↔
    Grammar.Many Grammar.SubsetPart i := by
  constructor
  · intro h
    generalize hrest : "]".toList ++ r = rest at h
    induction h with
    | nil _ => exact .nil
    | cons ha _ ih => exact .cons (subsetPart_of_takes ha) (ih hrest)
  · intro h
    induction h with
    | nil => exact .nil (subsetPart_close r)
    | @cons s t hs _ ih =>
      cases hs with
      | space hspace => exact takesMany_subset_append hspace ih rfl
      | comment h =>
        refine .cons (takes_subsetPart_of_subsetPartFor ?_ (takes_comment_iff.2 h)) ih
        cases h
        rfl
      | instruction h =>
        refine .cons (takes_subsetPart_of_subsetPartFor ?_ (takes_instruction_iff.2 h)) ih
        cases h
        rfl
      | reference h =>
        refine .cons (takes_subsetPart_of_subsetPartFor ?_ (takes_parameterReference_iff.2 h)) ih
        cases h
        rfl
      | declaration h =>
        refine .cons (takes_subsetPart_of_subsetPartFor ?_ (takes_markupDeclaration_iff.2 h)) ih
        exact subsetPartFor_declaration h _

/-- An internal subset is in brackets with white space behind them, or it is missing. -/
theorem takes_internalSubset_iff :
    internalSubset.Takes i (">".toList ++ r) ↔ Grammar.InternalSubset i := by
  rw [internalSubset, Construct.ifNext, Construct.takes_choose_iff]
  by_cases hopen : Text.startsWith "[" (i ++ (">".toList ++ r))
  · rw [if_pos hopen]
    simp only [Construct.takes_seq_cons_cons_iff, Construct.takes_seq_singleton_iff,
      Construct.takes_literal_iff, takes_space_iff,
      Construct.takes_many_iff advances_subsetPart fits_subsetPart]
    constructor
    · rintro ⟨_, _, rfl, rfl, subset, _, rfl, hsubset, _, space, rfl, rfl, hspace, -⟩
      rw [← List.append_assoc, ← List.append_assoc]
      rw [List.append_assoc] at hsubset
      exact .bracketed (takesMany_subset_iff.1 hsubset) hspace
    · intro h
      cases h with
      | absent => exact absurd hopen (by simp [Text.startsWith])
      | @bracketed subset space hsubset hspace =>
        refine ⟨"[".toList, subset ++ ("]".toList ++ space), ?_, rfl, subset, _, rfl, ?_,
          "]".toList, space, rfl, rfl, hspace, rfl⟩
        · rw [List.append_assoc, List.append_assoc]
        · rw [List.append_assoc]
          exact takesMany_subset_iff.2 hsubset
  · rw [if_neg hopen, Construct.takes_seq_nil_iff]
    constructor
    · rintro rfl
      exact .absent
    · intro h
      cases h with
      | absent => rfl
      | bracketed _ _ => exact absurd (Text.startsWith_iff.2
          (by simp only [List.append_assoc, List.prefix_append])) hopen

/-! ## External identifiers -/

theorem spaceLength_append {space : List Char} (h : Grammar.OptionalSpace space)
    (hr : Text.startsIn isSpace r = false) : spaceLength (space ++ r) = space.length :=
  Text.spanLength_append_iff.2 ⟨h, hr⟩

theorem takes_spacedLiteral_iff {length : List Char → Nat} {form : List Char → Prop}
    (hform : ∀ {i r}, (measured Kind.string length).Takes i r ↔ form i)
    (hstart : ∀ {i r}, form i → Text.startsIn isSpace (i ++ r) = false) :
    (spacedLiteral length).Takes i r ↔
      ∃ space literal, i = space ++ literal ∧ Grammar.Space space ∧ form literal := by
  simp only [spacedLiteral, Construct.takes_seq_cons_cons_iff, Construct.takes_seq_singleton_iff,
    takes_someSpace_iff, hform]
  constructor
  · rintro ⟨space, literal, rfl, ⟨hspace, -⟩, hliteral⟩
    exact ⟨space, literal, rfl, hspace, hliteral⟩
  · rintro ⟨space, literal, rfl, hspace, hliteral⟩
    exact ⟨space, literal, rfl, ⟨hspace, hstart hliteral⟩, hliteral⟩

theorem takes_spacedSystemLiteral_iff : (spacedLiteral systemLiteralLength).Takes i r ↔
    ∃ space literal, i = space ++ literal ∧ Grammar.Space space ∧ Grammar.SystemLiteral literal :=
  takes_spacedLiteral_iff takes_systemLiteral_iff fun h ↦ by
    obtain ⟨hquote, -⟩ := h
    exact not_isSpace_quote hquote

theorem takes_spacedPubidLiteral_iff : (spacedLiteral pubidLiteralLength).Takes i r ↔
    ∃ space literal, i = space ++ literal ∧ Grammar.Space space ∧ Grammar.PubidLiteral literal :=
  takes_spacedLiteral_iff takes_pubidLiteral_iff fun h ↦ by
    obtain ⟨hquote, -, -⟩ := h
    exact not_isSpace_quote hquote

theorem externalId_of_takes (h : externalId.Takes i r) : Grammar.ExternalId i := by
  have hspace {before : List Char} {c : Char} {t : List Char} (hbefore : Grammar.OptionalSpace before)
      (hc : isSpace c = false) (hn : spaceLength (before ++ c :: t) ≠ 0) : Grammar.Space before := by
    rw [spaceLength_append hbefore (by exact hc)] at hn
    exact ⟨fun hnil ↦ hn (by rw [hnil, List.length_nil]), hbefore⟩
  rw [externalId, Construct.takes_choose_iff] at h
  simp only at h
  split_ifs at h with hsystem hpublic
  · simp only [Construct.takes_seq_cons_cons_iff, Construct.takes_seq_singleton_iff,
      takes_space_iff, Construct.takes_literal_iff, takes_spacedSystemLiteral_iff] at h
    obtain ⟨before, _, rfl, ⟨hbefore, -⟩, _, _, rfl, rfl, between, literal, rfl, hbetween,
      hliteral⟩ := h
    rw [← List.append_assoc, ← List.append_assoc]
    rw [List.append_assoc] at hsystem
    exact .system (hspace hbefore (by decide) hsystem.1) hbetween hliteral
  · simp only [Construct.takes_seq_cons_cons_iff, Construct.takes_seq_singleton_iff,
      takes_space_iff, Construct.takes_literal_iff, takes_spacedSystemLiteral_iff,
      takes_spacedPubidLiteral_iff] at h
    obtain ⟨before, _, rfl, ⟨hbefore, -⟩, _, _, rfl, rfl, _, _, rfl, ⟨between, pubid, rfl, hbetween,
      hpubid⟩, behind, literal, rfl, hbehind, hliteral⟩ := h
    rw [List.append_assoc] at hpublic
    have hform := Grammar.ExternalId.pubid (hspace hbefore (by decide) hpublic.1) hbetween hpubid
      hbehind hliteral
    simpa only [List.append_assoc] using hform
  · obtain rfl := Construct.takes_seq_nil_iff.1 h
    exact .absent

/-- An external identifier is read, and none is read where the grammar has none, in front of what
may follow it. -/
theorem takes_externalId {space : List Char} {c : Char} (h : Grammar.ExternalId i)
    (hspace : Grammar.OptionalSpace space) (hc : c = '[' ∨ c = '>') :
    externalId.Takes i (space ++ c :: r) := by
  have hstop : Text.startsIn isSpace (c :: r) = false := by
    rcases hc with rfl | rfl <;> rfl
  rw [externalId, Construct.takes_choose_iff]
  simp only
  cases h with
  | absent =>
    have hkeyword : Text.startsWith "SYSTEM" (c :: r) = false ∧
        Text.startsWith "PUBLIC" (c :: r) = false := by
      rcases hc with rfl | rfl <;> simp [Text.startsWith, List.isPrefixOf]
    rw [List.nil_append, spaceLength_append hspace hstop, List.drop_left, hkeyword.1, hkeyword.2,
      if_neg fun h ↦ Bool.false_ne_true h.2, if_neg fun h ↦ Bool.false_ne_true h.2]
    exact Construct.takes_seq_nil_iff.2 rfl
  | @system before between literal hbefore hbetween hliteral =>
    have hkeyword (t : List Char) : Text.startsWith "SYSTEM" ("SYSTEM".toList ++ t) :=
      Text.startsWith_iff.2 (List.prefix_append _ _)
    simp only [List.append_assoc]
    rw [spaceLength_append hbefore.2 rfl, List.drop_left,
      if_pos ⟨List.length_eq_zero_iff.not.2 hbefore.1, hkeyword _⟩]
    simp only [Construct.takes_seq_cons_cons_iff, Construct.takes_seq_singleton_iff,
      takes_space_iff, Construct.takes_literal_iff, takes_spacedSystemLiteral_iff]
    exact ⟨before, _, rfl, ⟨hbefore.2, rfl⟩, _, _, rfl, rfl, between, literal, rfl, hbetween,
      hliteral⟩
  | @pubid before between pubid behind literal hbefore hbetween hpubid hbehind hliteral =>
    have hsystem (t : List Char) : Text.startsWith "SYSTEM" ("PUBLIC".toList ++ t) = false := by
      simp [Text.startsWith, List.isPrefixOf]
    have hpublic (t : List Char) : Text.startsWith "PUBLIC" ("PUBLIC".toList ++ t) :=
      Text.startsWith_iff.2 (List.prefix_append _ _)
    simp only [List.append_assoc]
    rw [spaceLength_append hbefore.2 rfl, List.drop_left, hsystem,
      if_neg fun h ↦ Bool.false_ne_true h.2,
      if_pos ⟨List.length_eq_zero_iff.not.2 hbefore.1, hpublic _⟩]
    simp only [Construct.takes_seq_cons_cons_iff, Construct.takes_seq_singleton_iff,
      takes_space_iff, Construct.takes_literal_iff, takes_spacedSystemLiteral_iff,
      takes_spacedPubidLiteral_iff]
    exact ⟨before, _, rfl, ⟨hbefore.2, rfl⟩, _, _, rfl, rfl, between ++ pubid, behind ++ literal,
      (List.append_assoc _ _ _).symm, ⟨between, pubid, rfl, hbetween, hpubid⟩, behind, literal, rfl,
      hbehind, hliteral⟩

/-! ## The declaration -/

/-- What follows the name of the root element does not continue it. -/
theorem Grammar.ExternalId.startsIn_append (h : Grammar.ExternalId i)
    (hr : Text.startsIn isNameChar r = false) : Text.startsIn isNameChar (i ++ r) = false := by
  have hspace {before t : List Char} (hbefore : Grammar.Space before) :
      Text.startsIn isNameChar (before ++ t) = false := by
    obtain ⟨c, s, rfl⟩ := List.exists_cons_of_ne_nil hbefore.1
    exact isNameChar_of_isSpace (hbefore.2 c List.mem_cons_self)
  cases h with
  | absent => exact hr
  | system hbefore _ _ =>
    simp only [List.append_assoc]
    exact hspace hbefore
  | pubid hbefore _ _ _ _ =>
    simp only [List.append_assoc]
    exact hspace hbefore

/-- An internal subset and the end of the declaration begin with a bracket. -/
theorem Grammar.InternalSubset.exists_cons (h : Grammar.InternalSubset i) (r : List Char) :
    ∃ c t, i ++ (">".toList ++ r) = c :: t ∧ (c = '[' ∨ c = '>') := by
  cases h with
  | absent => exact ⟨'>', r, rfl, .inr rfl⟩
  | bracketed _ _ => exact ⟨'[', _, by simp only [List.append_assoc]; rfl, .inl rfl⟩

/-- A declaration is read exactly where the grammar has one. -/
theorem takes_doctype_iff : doctype.Takes i r ↔ Grammar.Doctype i := by
  simp only [doctype, Construct.takes_seq_cons_cons_iff, Construct.takes_seq_singleton_iff,
    Construct.takes_literal_iff, takes_someSpace_iff, takes_name_iff, takes_space_iff]
  constructor
  · rintro ⟨_, _, rfl, rfl, before, _, rfl, ⟨hbefore, -⟩, name, _, rfl, ⟨hname, -⟩, id, _, rfl, hid,
      space, _, rfl, ⟨hspace, -⟩, subset, _, rfl, hsubset, rfl⟩
    have hform := Grammar.Doctype.mk hbefore hname (externalId_of_takes hid) hspace
      (takes_internalSubset_iff.1 hsubset)
    simpa only [List.append_assoc] using hform
  · rintro @⟨before, name, id, space, subset, hbefore, hname, hid, hspace, hsubset⟩
    obtain ⟨c, t, hbehind, hc⟩ := hsubset.exists_cons r
    have hstart : isSpace c = false ∧ isNameChar c = false := by
      rcases hc with rfl | rfl <;> exact ⟨rfl, not_isNameChar_of_mem (by decide)⟩
    refine ⟨"<!DOCTYPE".toList, _, by simp only [List.append_assoc], rfl, before, _, rfl,
      ⟨hbefore, ?_⟩, name, _, rfl, ⟨hname, ?_⟩, id, _, rfl, ?_, space, _, rfl, ⟨hspace, ?_⟩, subset,
      _, rfl, takes_internalSubset_iff.2 hsubset, rfl⟩
    all_goals simp only [List.append_assoc, hbehind]
    · exact hname.startsIn_isSpace _
    · exact hid.startsIn_append (startsIn_isNameChar_append hspace hstart.2)
    · exact takes_externalId hid hspace hc
    · exact hstart.1

end Highlight.Xml
