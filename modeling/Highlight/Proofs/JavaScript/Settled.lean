import Highlight.Proofs.JavaScript.Steady
import Highlight.Proofs.Piece.Steady

/-!
# Tags that are cut off

A tag is the same on its own text. Its parts are settled: names because they are kept in front of a
cut, white space and comments because they are steady, and the attributes because what stands
behind the last one begins no other. Only one of its forms is there on any text, so no other form
comes first where what is behind the tag is cut off.
-/

namespace Highlight.JavaScript

open Construct (Apart measured)
open Piece (lasting textOf width)

variable {u r : List Char}

variable [Text.IdentifierClasses]

theorem greedy_markupIdentifierLength : Text.Greedy markupIdentifierLength :=
  Text.greedy_wordLength _ _

theorem greedy_identifierLength : Text.Greedy identifierLength := Text.greedy_wordLength _ _

theorem le_membersLengthFrom {n m : Nat} {s : List Char} (h : membersLengthFrom n s = some m) :
    n ≤ m := by
  fun_induction membersLengthFrom n s with
  | case1 n => exact Nat.le_of_eq (Option.some.inj h)
  | case2 => simp at h
  | case3 n c rest hpoint k hk ih =>
    have hle := ih h
    omega
  | case4 n c rest hpoint => exact Nat.le_of_eq (Option.some.inj h)

theorem membersLengthFrom_of_append {n m : Nat} (h : membersLengthFrom n (u ++ r) = some m)
    (hle : m ≤ n + u.length) : membersLengthFrom n u = some m := by
  induction hu : u.length using Nat.strongRecOn generalizing n u with
  | ind k ih =>
    cases u with
    | nil =>
      rw [membersLengthFrom, Nat.le_antisymm hle (le_membersLengthFrom h)]
      rfl
    | cons c s =>
      have hone : 1 ≤ (c :: s).length := Nat.le_add_left 1 _
      have hpoint := Text.startsWith_append "." hone r
      rw [List.cons_append, membersLengthFrom, ← List.cons_append, hpoint] at h
      rw [membersLengthFrom]
      split_ifs at h ⊢ with hmember
      · simp only at h ⊢
        split_ifs at h with hname
        have hbehind := le_membersLengthFrom h
        rw [List.length_cons] at hle hu
        have hfits : identifierLength (s ++ r) ≤ s.length := by omega
        have hsame : identifierLength s = identifierLength (s ++ r) :=
          greedy_identifierLength.steady s r hfits
        rw [← hsame] at h hname hfits
        rw [Text.drop_append hfits] at h
        rw [if_neg hname]
        refine ih _ ?_ h ?_ rfl
        · rw [List.length_drop]
          omega
        · rw [List.length_drop]
          omega
      · exact h

/-- The length of what follows the first part of a name, if that is right. -/
def afterName (tail : List Char → Option Nat) (rest : List Char) : Option Nat :=
  if Text.startsWith ":" rest then
    let m := markupIdentifierLength (rest.drop 1)
    if m = 0 then none else some (1 + m)
  else tail rest

theorem qualifiedLength_eq (tail : List Char → Option Nat) (s : List Char) :
    qualifiedLength tail s =
      if markupIdentifierLength s = 0 then 0
      else (afterName tail (s.drop (markupIdentifierLength s))).elim 0
        (markupIdentifierLength s + ·) := by
  unfold qualifiedLength afterName
  simp only
  split_ifs
  · rfl
  · rfl
  · exact Nat.add_assoc _ 1 _
  · cases tail (s.drop (markupIdentifierLength s)) <;> rfl

variable {tail : List Char → Option Nat}
  (htail : ∀ u r m, tail (u ++ r) = some m → m ≤ u.length → tail u = some m)

include htail

theorem afterName_of_append {m : Nat} (h : afterName tail (u ++ r) = some m)
    (hle : m ≤ u.length) : afterName tail u = some m := by
  unfold afterName at h ⊢
  by_cases hcolon : Text.startsWith ":" (u ++ r)
  · simp only [hcolon, if_true] at h
    split_ifs at h with hnone
    have hm := Option.some.inj h
    have hone : 1 ≤ u.length := by omega
    have hlocal := (greedy_markupIdentifierLength.steady (u.drop 1) r)
    rw [Text.drop_append hone] at hm hnone
    rw [Text.startsWith_append ":" hone] at hcolon
    rw [if_pos hcolon, hlocal, if_neg hnone, hm]
    rw [List.length_drop, id_eq]
    omega
  · rw [if_neg hcolon] at h
    rw [Bool.not_eq_true] at hcolon
    rw [Text.startsWith_eq_false_of_append hcolon, if_neg Bool.false_ne_true]
    exact htail u r m h hle

/-- A name with its local name or its members is measured alike where the text is cut off behind it.
-/
theorem kept_qualifiedLength : Text.Kept id (qualifiedLength tail) := by
  intro u r hne hle
  rw [id_eq, qualifiedLength_eq] at hne hle
  rw [qualifiedLength_eq, qualifiedLength_eq]
  split_ifs at hne hle with hname
  · exact absurd rfl hne
  cases hbehind : afterName tail ((u ++ r).drop (markupIdentifierLength (u ++ r))) with
  | none => rw [hbehind] at hne; exact absurd rfl hne
  | some m =>
    rw [hbehind, Option.elim_some] at hle
    have hfits : markupIdentifierLength (u ++ r) ≤ u.length := by omega
    have hsame : markupIdentifierLength u = markupIdentifierLength (u ++ r) :=
      greedy_markupIdentifierLength.steady u r hfits
    rw [Text.drop_append hfits] at hbehind
    have hcut := afterName_of_append htail hbehind (by rw [List.length_drop]; omega)
    rw [hsame, hcut]

omit htail

/-- The name of a tag may be shorter in front of a cut that parts it from a bad ending. -/
theorem kept_tagNameLength : Text.Kept id tagNameLength := by
  apply kept_qualifiedLength
  intro u r m h hle
  exact membersLengthFrom_of_append h (by rw [Nat.zero_add]; exact hle)

theorem kept_attributeNameLength : Text.Kept id attributeNameLength :=
  kept_qualifiedLength fun _ _ _ h _ ↦ h

omit [Text.IdentifierClasses] in
theorem steady_triviaPart : triviaPart.Steady := by
  apply Construct.steady_firstOf
  · simp only [List.forall_mem_cons]
    exact ⟨Construct.steady_skipSome (Text.greedy_spanLength _).steady (Text.spanLength_le _),
      Construct.steady_measured _ (steady_restOfLine "//") hasRoom_lineCommentLength.le_length,
      Construct.steady_measured _ steady_closedCommentLength hasRoom_closedCommentLength.le_length,
      List.forall_mem_nil _⟩
  · simp only [List.forall_mem_cons]
    exact ⟨fun _ ↦ rfl, fun _ ↦ rfl, fun _ ↦ rfl, List.forall_mem_nil _⟩

omit [Text.IdentifierClasses] in
@[simp]
theorem settled_trivia : trivia.Settled :=
  steady_triviaPart.settled_many advances_triviaPart fits_triviaPart

omit [Text.IdentifierClasses] in
@[simp]
theorem settled_attributeValue : attributeValue.Settled := by
  apply Construct.Steady.settled
  apply Construct.steady_firstOf
  · simp only [List.forall_mem_cons]
    exact ⟨Construct.steady_measured _ Text.steady_quotedLength Text.quotedLength_le,
      Construct.steady_measured _ steady_bracedLength hasRoom_bracedLength.le_length,
      List.forall_mem_nil _⟩
  · simp only [List.forall_mem_cons]
    exact ⟨fun _ ↦ rfl, fun _ ↦ rfl, List.forall_mem_nil _⟩

omit [Text.IdentifierClasses] in
theorem startsWith_of_bracedLength {s : List Char} (h : bracedLength s ≠ 0) :
    Text.startsWith "\x7b" s := by
  by_contra hopening
  exact h (if_neg hopening)

theorem startsIn_of_qualifiedLength {tail : List Char → Option Nat} {s : List Char}
    (h : qualifiedLength tail s ≠ 0) : Text.startsIn isIdentifierStart s := by
  by_contra hnone
  rw [Bool.not_eq_true] at hnone
  apply h
  rw [qualifiedLength_eq]
  exact if_pos (Text.wordLength_eq_zero_iff.2 hnone)

/-- A name is no mark. -/
theorem startsWith_eq_false_of_name {s : List Char} (hname : Text.startsIn isIdentifierStart s)
    {lit : String} {first : Char} (hlit : lit.toList.head? = some first)
    (hfirst : first ∈ ['>', '/', '\x7b']) : Text.startsWith lit s = false := by
  cases s with
  | nil => simp at hname
  | cons c s =>
    apply Text.startsWith_cons_eq_false hlit
    rintro rfl
    rw [Text.startsIn_cons, isIdentifierStart_mark c hfirst] at hname
    exact Bool.noConfusion hname

def namedAttribute : Construct TagPart :=
  .seq [measured .attributeName attributeNameLength, trivia,
    .ifNext "=" (.seq [.skipLiteral "=", trivia, attributeValue])]

theorem startsIn_of_namedAttribute {s : List Char} (h : (namedAttribute s).isSome) :
    Text.startsIn isIdentifierStart s :=
  startsIn_of_qualifiedLength (Construct.length_ne_zero_of_measured (Construct.isSome_of_seq_cons h))

theorem settled_namedAttribute : namedAttribute.Settled := by
  have hvalue : (Construct.ifNext "="
      (.seq [.skipLiteral "=", trivia, attributeValue])).Settled := by
    apply Construct.settled_ifNext
    · exact Construct.settled_seq (by simp)
    · intro s h
      obtain ⟨ps, hps⟩ := Option.isSome_iff_exists.1 (Construct.isSome_of_seq_cons h)
      exact Text.startsWith_iff.2 (Construct.skipLiteral_eq_some.1 hps).1
  apply Construct.settled_seq
  simp only [List.forall_mem_cons]
  exact ⟨Construct.settled_measured_of_kept _ kept_attributeNameLength attributeNameLength_le,
    settled_trivia, hvalue, List.forall_mem_nil _⟩

theorem tagAttribute_eq :
    tagAttribute = .firstOf [measured .code bracedLength, namedAttribute] := rfl

/-- An attribute begins with a curly bracket or with a name. -/
theorem startsIn_of_tagAttribute {s : List Char} (h : (tagAttribute s).isSome) :
    Text.startsWith "\x7b" s ∨ Text.startsIn isIdentifierStart s := by
  obtain ⟨ps, hps⟩ := Option.isSome_iff_exists.1 h
  obtain ⟨c, hc, qs, hread, -⟩ := Construct.exists_of_firstOf hps
  have hsome := Option.isSome_of_eq_some hread
  rcases List.mem_cons.1 hc with rfl | hc
  · exact .inl (startsWith_of_bracedLength (Construct.length_ne_zero_of_measured hsome))
  · rw [List.mem_singleton] at hc
    subst hc
    exact .inr (startsIn_of_namedAttribute hsome)

/-- The attribute that the text calls for. -/
def attributeFor (s : List Char) : Construct TagPart :=
  if Text.startsWith "\x7b" s then measured .code bracedLength else namedAttribute

/-- Which attribute it is depends on the first character alone. -/
@[simp]
theorem settled_tagAttribute : tagAttribute.Settled := by
  have honly : ∀ d ∈ [measured .code bracedLength, namedAttribute], ∀ a b, d.Takes a b →
      attributeFor (a ++ b) = d := by
    simp only [List.forall_mem_cons]
    refine ⟨?_, ?_, List.forall_mem_nil _⟩
    · intro a b h
      exact if_pos (startsWith_of_bracedLength (Construct.length_ne_zero_of_measured h.isSome))
    · intro a b h
      have hname := startsIn_of_namedAttribute h.isSome
      rw [attributeFor, startsWith_eq_false_of_name hname rfl (by decide),
        if_neg Bool.false_ne_true]
  rw [tagAttribute_eq]
  refine Construct.settled_firstOf ?_ honly ?_
  · simp only [List.forall_mem_cons]
    refine ⟨Construct.fits_measured _ _, Construct.fits_seq ?_, List.forall_mem_nil _⟩
    simp [Construct.fits_ifNext, Construct.fits_seq]
  · simp only [List.forall_mem_cons]
    exact ⟨(Construct.steady_measured _ steady_bracedLength
      hasRoom_bracedLength.le_length).settled, settled_namedAttribute, List.forall_mem_nil _⟩

theorem settled_spacedAttribute : spacedAttribute.Settled :=
  Construct.settled_seq (by simp)

omit [Text.IdentifierClasses] in
@[simp]
theorem settled_mark (lit : String) : (mark lit).Settled := Construct.settled_literal _ _

@[simp]
theorem settled_tagName : tagName.Settled :=
  Construct.settled_measured_of_kept _ kept_tagNameLength tagNameLength_le

omit [Text.IdentifierClasses] in
theorem startsWith_of_mark {lit : String} {s : List Char} (h : (mark lit s).isSome) :
    Text.startsWith lit s := by
  obtain ⟨ps, hps⟩ := Option.isSome_iff_exists.1 h
  exact Text.startsWith_iff.2 (Construct.literal_eq_some.1 hps).1

omit [Text.IdentifierClasses] in
/-- Two marks that begin differently do not stand in the same place. -/
theorem not_mark_of_mark {lit other : String} {first second : Char}
    (hlit : lit.toList.head? = some first) (hother : other.toList.head? = some second)
    (hne : first ≠ second) (s : List Char) (h : (mark lit s).isSome) : ¬ (mark other s).isSome := by
  intro hmark
  obtain ⟨tail, htail⟩ := List.head?_eq_some_iff.1 hlit
  obtain ⟨rest, rfl⟩ := Text.startsWith_iff.1 (startsWith_of_mark h)
  have hfalse := Text.startsWith_cons_eq_false hother hne (tail ++ rest)
  have htrue := startsWith_of_mark hmark
  rw [htail, List.cons_append, hfalse] at htrue
  exact Bool.noConfusion htrue

theorem not_mark_of_tagName {lit : String} {first : Char} (hlit : lit.toList.head? = some first)
    (hfirst : first ∈ ['>', '/', '\x7b']) (s : List Char) (h : (tagName s).isSome) :
    ¬ (mark lit s).isSome := by
  intro hmark
  have hname : Text.startsIn isIdentifierStart s :=
    startsIn_of_qualifiedLength (Construct.length_ne_zero_of_measured h)
  have hfalse := startsWith_eq_false_of_name hname hlit hfirst
  rw [startsWith_of_mark hmark] at hfalse
  exact Bool.noConfusion hfalse

/-- Where a mark stands that ends a tag, there is no attribute. -/
theorem not_tagAttribute_of_mark {lit : String} {first : Char}
    (hlit : lit.toList.head? = some first) (hfirst : first ∈ ['>', '/']) (s : List Char)
    (h : (mark lit s).isSome) : ¬ (tagAttribute s).isSome := by
  intro hattribute
  obtain ⟨tail, htail⟩ := List.head?_eq_some_iff.1 hlit
  obtain ⟨rest, rfl⟩ := Text.startsWith_iff.1 (startsWith_of_mark h)
  rw [htail, List.cons_append] at hattribute
  have hmark : isIdentifierStart first = false :=
    isIdentifierStart_mark first (List.mem_append_left ['\x7b'] hfirst)
  rcases startsIn_of_tagAttribute hattribute with hcode | hname
  · have hne : first ≠ '\x7b' := by
      rintro rfl
      exact absurd hfirst (by decide)
    rw [Text.startsWith_cons_eq_false rfl hne] at hcode
    exact Bool.noConfusion hcode
  · rw [Text.startsIn_cons, hmark] at hname
    exact Bool.noConfusion hname

theorem settled_tagEnd {lit : String} {first : Char} (hlit : lit.toList.head? = some first)
    (hfirst : first ∈ ['>', '/']) :
    (Construct.seq [tagAttributes, trivia, mark lit]).Settled := by
  refine Construct.settled_many_seq advances_spacedAttribute fits_spacedAttribute
    settled_spacedAttribute (Construct.settled_seq (by simp)) ?_
  intro s hends
  have hapart : Apart [trivia, mark lit] [trivia, tagAttribute] :=
    (Construct.apart_of_first (not_tagAttribute_of_mark hlit hfirst) _ _).cons trivia
  exact Option.not_isSome_iff_eq_none.1 (hapart s hends)

/-- Each form of a tag is settled, since all of its parts are. -/
theorem settled_forms (s : List Char) : ∀ form ∈ tagForms s, (Construct.seq form.2).Settled := by
  have hattributes {lit : String} {first : Char} (hlit : lit.toList.head? = some first)
      (hfirst : first ∈ ['>', '/']) :
      (Construct.seq [mark "<", trivia, tagName, tagAttributes, trivia, mark lit]).Settled :=
    Construct.settled_seq_cons (settled_mark _) <| Construct.settled_seq_cons settled_trivia <|
      Construct.settled_seq_cons settled_tagName <| settled_tagEnd hlit hfirst
  unfold tagForms
  split_ifs
  · simp only [closingForms, List.cons_append, List.nil_append, List.forall_mem_cons]
    exact ⟨Construct.settled_seq (by simp), Construct.settled_seq (by simp),
      List.forall_mem_nil _⟩
  · simp only [openingForms, closingForms, List.cons_append, List.nil_append,
      List.forall_mem_cons]
    exact ⟨Construct.settled_seq (by simp), hattributes rfl (by decide), hattributes rfl (by decide),
      Construct.settled_seq (by simp), Construct.settled_seq (by simp), List.forall_mem_nil _⟩

/-- No text is a tag in two ways. -/
theorem apart_forms (s : List Char) :
    (tagForms s).Pairwise fun form other ↦ Apart form.2 other.2 := by
  have hname {lit : String} {first : Char} (hlit : lit.toList.head? = some first)
      (hfirst : first ∈ ['>', '/', '\x7b']) (cs ds : List (Construct TagPart)) :
      Apart (tagName :: ds) (mark lit :: cs) :=
    Construct.apart_of_first (not_mark_of_tagName hlit hfirst) _ _
  have hmark {lit other : String} {first second : Char} (hlit : lit.toList.head? = some first)
      (hother : other.toList.head? = some second) (hne : first ≠ second)
      (cs ds : List (Construct TagPart)) : Apart (mark lit :: cs) (mark other :: ds) :=
    Construct.apart_of_first (not_mark_of_mark hlit hother hne) _ _
  have behind {cs ds : List (Construct TagPart)} (h : Apart cs ds) (opening : String) :
      Apart (mark opening :: trivia :: cs) (mark opening :: trivia :: ds) :=
    (h.cons trivia).cons (mark opening)
  have hslash : Apart [trivia, mark ">"] [trivia, mark "/>"] :=
    (hmark rfl rfl (by decide) _ _).cons trivia
  unfold tagForms
  split_ifs
  · simp only [closingForms, List.cons_append, List.nil_append, List.pairwise_cons,
      List.forall_mem_cons]
    exact ⟨⟨behind (hname rfl (by decide) _ _).symm _, List.forall_mem_nil _⟩,
      List.forall_mem_nil _, .nil⟩
  · simp only [openingForms, closingForms, List.cons_append, List.nil_append, List.pairwise_cons,
      List.forall_mem_cons]
    refine ⟨⟨?_, ?_, ?_, ?_, List.forall_mem_nil _⟩, ⟨?_, ?_, ?_, List.forall_mem_nil _⟩,
      ⟨?_, ?_, List.forall_mem_nil _⟩, ⟨?_, List.forall_mem_nil _⟩, List.forall_mem_nil _, .nil⟩
    · exact behind (hname rfl (by decide) _ _).symm _
    · exact behind (hname rfl (by decide) _ _).symm _
    · exact behind (hmark rfl rfl (by decide) _ _) _
    · exact behind (hmark rfl rfl (by decide) _ _) _
    · exact behind ((hslash.cons tagAttributes).cons tagName) _
    · exact behind (hname rfl (by decide) _ _) _
    · exact behind (hname rfl (by decide) _ _) _
    · exact behind (hname rfl (by decide) _ _) _
    · exact behind (hname rfl (by decide) _ _) _
    · exact behind (behind (hname rfl (by decide) _ _).symm "/") _

/-! ## Tags -/

theorem form_unique {s t : List Char} {form other : TagKind × List (Construct TagPart)}
    (hform : form ∈ tagForms s) (hother : other ∈ tagForms s)
    (hthere : (Construct.seq form.2 t).isSome) (hothere : (Construct.seq other.2 t).isSome) :
    form = other := by
  have hunique : ∀ f ∈ tagForms s, ∀ g ∈ tagForms s,
      (Construct.seq f.2 t).isSome → (Construct.seq g.2 t).isSome → f = g := by
    apply List.Pairwise.forall_of_forall_of_flip
    · exact fun f _ _ _ ↦ rfl
    · exact (apart_forms s).imp fun hapart hf hg ↦ absurd hg (hapart t hf)
    · exact (apart_forms s).imp fun hapart hg hf ↦ absurd hg (hapart t hf)
  exact hunique form hform other hother hthere hothere

/-- A tag begins like the text that it stands in front of. -/
theorem tagForms_front {i : List Char} {form : TagKind × List (Construct TagPart)}
    (hform : form ∈ tagForms (i ++ r)) (h : (Construct.seq form.2 i).isSome) :
    tagForms i = tagForms (i ++ r) := by
  unfold tagForms at hform ⊢
  by_cases hwhole : Text.startsWith "</" (i ++ r)
  · rw [if_pos hwhole, closingForms, List.mem_cons, List.mem_singleton] at hform
    have hmark : (mark "</" i).isSome := by
      rcases hform with rfl | rfl <;> exact Construct.isSome_of_seq_cons h
    rw [if_pos hwhole, if_pos (startsWith_of_mark hmark)]
  · rw [if_neg hwhole, if_neg fun hfront ↦ hwhole (Text.startsWith_of_append hfront r)]

/-- On its own text a tag is the same, part by part. -/
theorem tag?_textOf {s : List Char} {kind : TagKind} {parts : List (Piece TagPart)}
    (h : tag? s = some (kind, parts)) :
    ∃ again, tag? (textOf parts) = some (kind, again) ∧ lasting again = lasting parts := by
  obtain ⟨form, hform, rfl, hparts⟩ := tag?_eq_some h
  have hfits := Construct.fits_seq (tagForms_mem hform).1
  have hleaves := hfits.leaves hparts
  rw [← List.nil_append (s.drop _)] at hleaves
  obtain ⟨again, hagain, hlasting⟩ := settled_forms s form hform _ _ _ hleaves
  rw [Piece.textOf_lasting, List.append_nil] at hagain
  refine ⟨again, ?_, hlasting⟩
  have hsame : tagForms (textOf parts) = tagForms s := by
    have hsplit := (hfits.read s parts hparts).textOf_append_drop
    rw [← hsplit] at hform ⊢
    exact tagForms_front hform (Option.isSome_of_eq_some hagain)
  obtain ⟨⟨kind, found⟩, hfound⟩ : ∃ found, tag? (textOf parts) = some found := by
    rw [← Option.isSome_iff_exists, tag?, hsame, List.findSome?_isSome_iff]
    refine ⟨form, hform, ?_⟩
    rw [Option.isSome_map]
    exact Option.isSome_of_eq_some hagain
  obtain ⟨other, hother, rfl, hparts⟩ := tag?_eq_some hfound
  rw [hsame] at hother
  obtain rfl := form_unique hform hother (Option.isSome_of_eq_some hagain)
    (Option.isSome_of_eq_some hparts)
  rw [hfound, Option.some.inj (hagain.symm.trans hparts)]

/-- What is known of a tag: its form and its parts, but for those that are withdrawn. -/
def lastingTag? (s : List Char) : Option (TagKind × List (Piece TagPart)) :=
  (tag? s).map fun (kind, parts) ↦ (kind, lasting parts)

def tagWidth (found : Option (TagKind × List (Piece TagPart))) : Nat :=
  found.elim 0 fun (_, parts) ↦ width parts

theorem selfDelimiting_lastingTag? : Text.SelfDelimiting tagWidth lastingTag? := by
  have hread (s : List Char) : tagWidth (lastingTag? s) ≤ s.length ∧
      lastingTag? (s.take (tagWidth (lastingTag? s))) = lastingTag? s := by
    cases htag : tag? s with
    | none => simp [lastingTag?, tagWidth, htag, show tag? [] = none from rfl]
    | some found =>
      obtain ⟨kind, parts⟩ := found
      have hfits := fits_tag? htag
      have hwidth : tagWidth (lastingTag? s) = width parts := by
        simp [lastingTag?, tagWidth, htag, ← Piece.length_textOf]
      obtain ⟨again, hagain, hlasting⟩ := tag?_textOf htag
      rw [hwidth, ← hfits.textOf_eq_take]
      refine ⟨hfits.width_le, ?_⟩
      simp only [lastingTag?, htag, hagain, Option.map_some, hlasting]
  exact ⟨fun s ↦ (hread s).1, fun s ↦ Text.isBoundary_take s _, fun s ↦ (hread s).2⟩

end Highlight.JavaScript
