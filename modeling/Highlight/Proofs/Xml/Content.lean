import Highlight.Proofs.Piece.Taking
import Highlight.Proofs.Search
import Highlight.Proofs.Xml.Grammar
import Highlight.Proofs.Xml.Length

/-!
# What the content of XML takes

Names, white space, literals and references, and what a document is made of besides tags and its
document type declaration, take exactly the texts of the grammar. A construct that ends with a mark
of its own does so whatever follows; a name or white space does so where nothing continues it.
-/

namespace Highlight.Xml

open Construct (Takes measured skip skipSome)

variable {label : Kind} {i r : List Char}

/-- Before the first range of names there are the letters, the digits and four marks. -/
theorem isNameChar_of_lt {c : Char} (h : c.toNat < 0xB7) : isNameChar c =
    (c.isAlpha || c == ':' || c == '_' || c.isDigit || c == '-' || c == '.') := by
  have hstart : Text.inRanges nameStartRanges c = false :=
    Text.inRanges_eq_false (by simp [nameStartRanges]) h
  have hextra : Text.inRanges nameExtraRanges c = false :=
    Text.inRanges_eq_false (by simp [nameExtraRanges]) h
  rw [isNameChar, isNameStart, hstart, hextra, Bool.or_false, Bool.or_false]

/-- Marks that end a name. -/
theorem not_isNameChar_of_mem {c : Char} (h : c ∈ " \t\r\n<>&/=[]!?;#%\"'".toList) :
    isNameChar c = false := by
  have hmarks : " \t\r\n<>&/=[]!?;#%\"'".toList.all fun c ↦ decide (c.toNat < 0xB7) &&
      !(c.isAlpha || c == ':' || c == '_' || c.isDigit || c == '-' || c == '.') := by
    decide
  have hc := List.all_eq_true.1 hmarks c h
  rw [Bool.and_eq_true, decide_eq_true_eq, Bool.not_eq_true'] at hc
  rw [isNameChar_of_lt hc.1]
  exact hc.2

theorem isNameChar_of_isNameStart {c : Char} (h : isNameStart c) : isNameChar c := by
  simp [isNameChar, h]

theorem isNameChar_of_isSpace {c : Char} (h : isSpace c) : isNameChar c = false := by
  apply not_isNameChar_of_mem
  simp only [isSpace, Bool.or_eq_true, beq_iff_eq] at h
  rcases h with ((rfl | rfl) | rfl) | rfl <;> decide

/-- White space does not continue a name, nor does what stands behind it. -/
theorem startsIn_isNameChar_append {s t : List Char} (hs : Grammar.OptionalSpace s)
    (ht : Text.startsIn isNameChar t = false) : Text.startsIn isNameChar (s ++ t) = false := by
  cases s with
  | nil => exact ht
  | cons c s => exact isNameChar_of_isSpace (hs c List.mem_cons_self)

theorem Grammar.Name.startsIn_isSpace (h : Grammar.Name i) (r : List Char) :
    Text.startsIn isSpace (i ++ r) = false := by
  obtain @⟨c, s, hc, -⟩ := h
  rw [List.cons_append, Text.startsIn_cons]
  by_contra hspace
  have hnot := isNameChar_of_isSpace (Bool.not_eq_false _ ▸ hspace)
  rw [isNameChar_of_isNameStart hc] at hnot
  exact absurd hnot (by decide)

theorem takes_name_iff : (measured label nameLength).Takes i r ↔
    Grammar.Name i ∧ Text.startsIn isNameChar r = false := by
  rw [(Construct.measures_measured _ nameLength).takes_iff Text.wordLength_le]
  constructor
  · rintro ⟨hi, hlength⟩
    obtain ⟨⟨c, s, rfl, hc, hs⟩, hr⟩ := (Text.wordLength_append_iff hi).1 hlength
    exact ⟨.mk hc hs, hr⟩
  · rintro ⟨@⟨c, s, hc, hs⟩, hr⟩
    have hi := List.cons_ne_nil c s
    exact ⟨hi, (Text.wordLength_append_iff hi).2 ⟨⟨c, s, rfl, hc, hs⟩, hr⟩⟩

/-- What a name length measures is a name. -/
theorem name_take {s : List Char} (h : nameLength s ≠ 0) :
    Grammar.Name (s.take (nameLength s)) := by
  obtain ⟨ps, hps, htext⟩ := (Construct.measures_measured Kind.markupTag nameLength s).2 h
  have htakes := (Construct.fits_measured _ _).takes hps
  rw [htext] at htakes
  exact (takes_name_iff.1 htakes).1

theorem nameLength_append {name : List Char} (h : Grammar.Name name)
    (hr : Text.startsIn isNameChar r = false) : nameLength (name ++ r) = name.length := by
  have htakes : (measured Kind.markupTag nameLength).Takes name r := takes_name_iff.2 ⟨h, hr⟩
  exact (((Construct.measures_measured _ _).takes_iff Text.wordLength_le).1 htakes).2

theorem spaceLength_le (s : List Char) : spaceLength s ≤ s.length := Text.spanLength_le _ s

theorem takes_space_iff : (skip spaceLength : Construct Kind).Takes i r ↔
    Grammar.OptionalSpace i ∧ Text.startsIn isSpace r = false := by
  rw [Construct.takes_skip_iff spaceLength_le]
  exact Text.spanLength_append_iff

theorem takes_someSpace_iff : (skipSome spaceLength : Construct Kind).Takes i r ↔
    Grammar.Space i ∧ Text.startsIn isSpace r = false := by
  rw [(Construct.measures_skipSome spaceLength).takes_iff spaceLength_le, Grammar.Space, and_assoc]
  exact and_congr_right fun _ ↦ Text.spanLength_append_iff

theorem not_isSpace_quote {quote : Char} (h : Text.isQuote quote) : isSpace quote = false := by
  simp only [Text.isQuote, Bool.or_eq_true, beq_iff_eq] at h
  rcases h with rfl | rfl <;> decide

theorem takes_systemLiteral_iff :
    (measured label systemLiteralLength).Takes i r ↔ Grammar.SystemLiteral i := by
  rw [(Construct.measures_measured _ systemLiteralLength).takes_iff Text.quotedLength_le]
  constructor
  · rintro ⟨hi, hlength⟩
    obtain ⟨quote, s, rfl, hquote, hs⟩ := Text.exists_of_quotedLength hi hlength
    exact .mk hquote hs
  · rintro @⟨quote, s, hquote, hs⟩
    exact ⟨by simp, Text.quotedLength_append hquote hs r⟩

theorem pubidLiteral_of_length (hi : i ≠ []) (h : pubidLiteralLength (i ++ r) = i.length) :
    Grammar.PubidLiteral i := by
  obtain ⟨quote, s, rfl⟩ := List.exists_cons_of_ne_nil hi
  rw [List.cons_append, pubidLiteralLength, List.length_cons] at h
  obtain ⟨body, behind, hsplit, hbody, hbehind⟩ :=
    Text.exists_run (fun c ↦ c != quote && isPubidChar c) (s ++ r)
  rw [hsplit, Text.spanLength_append_iff.2 ⟨hbody, hbehind⟩] at h
  simp only [List.drop_left] at h
  split_ifs at h with hquote hclosed
  obtain ⟨c, rest, rfl⟩ : ∃ c rest, behind = c :: rest := by
    apply List.exists_cons_of_ne_nil
    rintro rfl
    simp at hclosed
  obtain rfl := beq_iff_eq.1 hclosed
  rw [List.append_cons] at hsplit
  have hlength : s.length = (body ++ [c]).length := by
    rw [List.length_append, List.length_singleton]
    omega
  obtain ⟨rfl, -⟩ := List.append_inj hsplit hlength
  refine .mk hquote (fun hmem ↦ ?_) fun d hd ↦ ?_
  · simpa using hbody c hmem
  · exact (Bool.and_eq_true_iff.1 (hbody d hd)).2

theorem pubidLiteralLength_append {quote : Char} {s : List Char} (hquote : Text.isQuote quote)
    (hs : quote ∉ s) (hpubid : ∀ c ∈ s, isPubidChar c) (r : List Char) :
    pubidLiteralLength ([quote] ++ s ++ [quote] ++ r) = ([quote] ++ s ++ [quote]).length := by
  have hspan : Text.spanLength (fun c ↦ c != quote && isPubidChar c) (s ++ quote :: r) =
      s.length := by
    refine Text.spanLength_append_iff.2 ⟨?_, by simp⟩
    intro c hc
    simp [hpubid c hc, ne_of_mem_of_not_mem hc hs]
  simp [pubidLiteralLength, hquote, hspan]

theorem takes_pubidLiteral_iff :
    (measured label pubidLiteralLength).Takes i r ↔ Grammar.PubidLiteral i := by
  rw [(Construct.measures_measured _ pubidLiteralLength).takes_iff pubidLiteralLength_le]
  constructor
  · rintro ⟨hi, hlength⟩
    exact pubidLiteral_of_length hi hlength
  · rintro @⟨quote, s, hquote, hs, hpubid⟩
    exact ⟨by simp, pubidLiteralLength_append hquote hs hpubid r⟩

theorem reference_of_length (hi : i ≠ []) (h : referenceLength (i ++ r) = i.length) :
    Grammar.Reference i := by
  unfold referenceLength Reference.length at h
  split_ifs at h with hhex hcode hentity
  · rw [List.any_cons, List.any_nil, Bool.or_false] at hhex
    obtain ⟨t, hn, rfl⟩ := Reference.eq_of_closedLength hi hhex h
    exact .hexadecimal (Text.take_spanLength_ne_nil hn) Text.forall_mem_take_spanLength
  · obtain ⟨t, hn, rfl⟩ := Reference.eq_of_closedLength hi hcode h
    exact .decimal (Text.take_spanLength_ne_nil hn) Text.forall_mem_take_spanLength
  · obtain ⟨t, hn, rfl⟩ := Reference.eq_of_closedLength hi hentity h
    exact .entity (name_take hn)
  · exact absurd h.symm (Nat.ne_of_gt (List.length_pos_iff.2 hi))

theorem referenceLength_hexadecimal {digits : List Char} (hne : digits ≠ [])
    (hdigits : ∀ c ∈ digits, Text.isHexDigit c) (r : List Char) :
    referenceLength ("&#x".toList ++ digits ++ ";".toList ++ r) =
      ("&#x".toList ++ digits ++ ";".toList).length := by
  have hhex : ["&#x"].any (Text.startsWith · ("&#x".toList ++ digits ++ ";".toList ++ r)) := by
    simp [Text.startsWith]
  rw [referenceLength, Reference.length, if_pos hhex]
  exact Reference.closedLength_append "&#x" hne (Text.spanLength_append_iff.2 ⟨hdigits, rfl⟩)

theorem referenceLength_decimal {digits : List Char} (hne : digits ≠ [])
    (hdigits : ∀ c ∈ digits, c.isDigit) (r : List Char) :
    referenceLength ("&#".toList ++ digits ++ ";".toList ++ r) =
      ("&#".toList ++ digits ++ ";".toList).length := by
  have hhex : ["&#x"].any (Text.startsWith · ("&#".toList ++ digits ++ ";".toList ++ r)) =
      false := by
    obtain ⟨d, digits, rfl⟩ := List.exists_cons_of_ne_nil hne
    have hd : d ≠ 'x' := by
      rintro rfl
      exact absurd (hdigits 'x' List.mem_cons_self) (by decide)
    simp [Text.startsWith, List.isPrefixOf, hd.symm]
  have hcode : Text.startsWith "&#" ("&#".toList ++ digits ++ ";".toList ++ r) := by
    simp only [Text.startsWith_iff, List.append_assoc, List.prefix_append]
  rw [referenceLength, Reference.length, hhex, if_neg Bool.false_ne_true, if_pos hcode]
  exact Reference.closedLength_append "&#" hne (Text.spanLength_append_iff.2 ⟨hdigits, rfl⟩)

theorem referenceLength_entity {name : List Char} (hname : Grammar.Name name) (r : List Char) :
    referenceLength ("&".toList ++ name ++ ";".toList ++ r) =
      ("&".toList ++ name ++ ";".toList).length := by
  have hform := hname
  obtain @⟨c, s, hc, -⟩ := hname
  have hmark : c ≠ '#' := by
    rintro rfl
    have hnot : isNameChar '#' = false := not_isNameChar_of_mem (by decide)
    rw [isNameChar_of_isNameStart hc] at hnot
    exact absurd hnot (by decide)
  have hhex : ["&#x"].any (Text.startsWith · ("&".toList ++ (c :: s) ++ ";".toList ++ r)) =
      false := by
    simp [Text.startsWith, List.isPrefixOf, hmark.symm]
  have hcode : Text.startsWith "&#" ("&".toList ++ (c :: s) ++ ";".toList ++ r) = false := by
    simp [Text.startsWith, List.isPrefixOf, hmark.symm]
  have hentity : Text.startsWith "&" ("&".toList ++ (c :: s) ++ ";".toList ++ r) := by
    simp only [Text.startsWith_iff, List.append_assoc, List.prefix_append]
  rw [referenceLength, Reference.length, hhex, if_neg Bool.false_ne_true, hcode,
    if_neg Bool.false_ne_true, if_pos hentity]
  exact Reference.closedLength_append "&" (List.cons_ne_nil c s)
    (nameLength_append hform (not_isNameChar_of_mem (by decide)))

theorem takes_reference_iff : reference.Takes i r ↔ Grammar.Reference i := by
  rw [reference, (Construct.measures_measured _ referenceLength).takes_iff referenceLength_le]
  constructor
  · rintro ⟨hi, hlength⟩
    exact reference_of_length hi hlength
  · intro h
    cases h with
    | decimal hne hdigits => exact ⟨by simp, referenceLength_decimal hne hdigits r⟩
    | hexadecimal hne hdigits => exact ⟨by simp, referenceLength_hexadecimal hne hdigits r⟩
    | entity hname => exact ⟨by simp, referenceLength_entity hname r⟩

theorem measures_comment : comment.Measures commentLength := by
  intro s
  constructor
  · intro hn
    simp [comment, hn]
  · intro hn
    exact ⟨_, if_neg hn, Piece.textOf_framed _ _ _ _ _⟩

theorem not_infix_hyphens_iff {s : List Char} :
    ¬ "--".toList <:+: s ++ "--".toList.dropLast ↔
      ¬ "--".toList <:+: s ∧ s.getLast? ≠ some '-' := by
  change ¬ "--".toList <:+: s ++ ['-'] ↔ _
  rw [List.infix_concat_iff, List.suffix_concat_iff, not_or, and_comm]
  refine and_congr_right fun _ ↦ not_congr ?_
  constructor
  · rintro (hnil | ⟨t, ht, hsuffix⟩)
    · exact absurd hnil (by decide)
    · obtain rfl : t = ['-'] := (List.append_left_inj ['-']).1 ht.symm
      exact List.singleton_suffix_iff_getLast?_eq_some.1 hsuffix
  · intro hlast
    exact .inr ⟨['-'], rfl, List.singleton_suffix_iff_getLast?_eq_some.2 hlast⟩

/-- What is measured is a comment in the sense of the grammar. -/
theorem comment_of_length (hi : i ≠ []) (h : commentLength (i ++ r) = i.length) :
    Grammar.Comment i := by
  have hpos := List.length_pos_iff.2 hi
  unfold commentLength at h
  cases hafter : Text.after? "<!--" (i ++ r) with
  | none =>
    simp only [hafter] at h
    omega
  | some rest =>
    cases hfind : Text.findLiteral? "--" rest with
    | none =>
      simp only [hafter, hfind] at h
      omega
    | some n =>
      simp only [hafter, hfind] at h
      obtain ⟨body, behind, hsplit, rfl, rfl, hbody⟩ :=
        Text.exists_between (by decide) hafter hfind
      rw [List.drop_left] at h
      split_ifs at h with hclose
      · obtain ⟨rest, hrest⟩ := Text.startsWith_iff.1 hclose
        have hwhole : i ++ r = "<!--".toList ++ body ++ "-->".toList ++ rest :=
          calc
            _ = "<!--".toList ++ body ++ ("--".toList ++ behind) := by
              rw [hsplit, List.append_assoc]
            _ = "<!--".toList ++ body ++ ("-->".toList ++ rest) := by rw [hrest]
            _ = _ := (List.append_assoc _ _ _).symm
        have hlength : i.length = ("<!--".toList ++ body ++ "-->".toList).length := by
          rw [← h, List.length_append, List.length_append]
          rfl
        obtain ⟨rfl, -⟩ := List.append_inj hwhole hlength
        obtain ⟨hhyphens, hlast⟩ := not_infix_hyphens_iff.1 hbody
        exact .mk hhyphens hlast
      · omega

theorem commentLength_append {body : List Char} (hhyphens : ¬ "--".toList <:+: body)
    (hlast : body.getLast? ≠ some '-') (r : List Char) :
    commentLength ("<!--".toList ++ body ++ "-->".toList ++ r) =
      ("<!--".toList ++ body ++ "-->".toList).length := by
  have hafter : Text.after? "<!--" ("<!--".toList ++ body ++ "-->".toList ++ r) =
      some (body ++ ("--".toList ++ (">".toList ++ r))) := by
    rw [Text.after?_eq_some, List.append_assoc, List.append_assoc]
    rfl
  have hfind : Text.findLiteral? "--" (body ++ ("--".toList ++ (">".toList ++ r))) =
      some body.length :=
    (Text.findLiteral?_append_iff (by decide)).2 (not_infix_hyphens_iff.2 ⟨hhyphens, hlast⟩)
  have hclose : Text.startsWith "-->" ("--".toList ++ (">".toList ++ r)) :=
    Text.startsWith_iff.2 ⟨r, rfl⟩
  simp only [commentLength, hafter, hfind, List.drop_left]
  rw [if_pos hclose, List.length_append, List.length_append]
  rfl

theorem takes_comment_iff : comment.Takes i r ↔ Grammar.Comment i := by
  rw [measures_comment.takes_iff hasRoom_commentLength.le_length]
  constructor
  · rintro ⟨hi, hlength⟩
    exact comment_of_length hi hlength
  · rintro @⟨body, hhyphens, hlast⟩
    exact ⟨by simp, commentLength_append hhyphens hlast r⟩

theorem measures_cdata : cdata.Measures cdataLength := by
  intro s
  constructor
  · intro hn
    simp [cdata, hn]
  · intro hn
    have hsome : cdata s = some _ := if_neg hn
    exact ⟨_, hsome, (covers_cdata hsome).2.textOf_eq⟩

/-- No part of the mark that ends a section ends it. -/
theorem infix_sectionEnd_iff {s : List Char} :
    "]]>".toList <:+: s ++ "]]>".toList.dropLast ↔ "]]>".toList <:+: s := by
  change "]]>".toList <:+: s ++ ([']'] ++ [']']) ↔ _
  rw [← List.append_assoc, Text.infix_concat_iff_of_ne (by decide),
    Text.infix_concat_iff_of_ne (by decide)]

theorem cdata_of_length (hi : i ≠ []) (h : cdataLength (i ++ r) = i.length) : Grammar.CData i := by
  have hpos := List.length_pos_iff.2 hi
  unfold cdataLength at h
  cases hafter : Text.after? "<![CDATA[" (i ++ r) with
  | none =>
    simp only [hafter] at h
    omega
  | some rest =>
    cases hfind : Text.findLiteral? "]]>" rest with
    | none =>
      simp only [hafter, hfind] at h
      omega
    | some n =>
      simp only [hafter, hfind] at h
      obtain ⟨body, behind, hsplit, -, rfl, hbody⟩ :=
        Text.exists_between (by decide) hafter hfind
      have hlength : i.length = ("<![CDATA[".toList ++ body ++ "]]>".toList).length := by
        rw [← h, List.length_append, List.length_append]
        rfl
      obtain ⟨rfl, -⟩ := List.append_inj hsplit hlength
      exact .mk (infix_sectionEnd_iff.not.1 hbody)

theorem cdataLength_append {body : List Char} (hbody : ¬ "]]>".toList <:+: body) (r : List Char) :
    cdataLength ("<![CDATA[".toList ++ body ++ "]]>".toList ++ r) =
      ("<![CDATA[".toList ++ body ++ "]]>".toList).length := by
  have hafter : Text.after? "<![CDATA[" ("<![CDATA[".toList ++ body ++ "]]>".toList ++ r) =
      some (body ++ ("]]>".toList ++ r)) := by
    rw [Text.after?_eq_some, List.append_assoc, List.append_assoc]
  have hfind : Text.findLiteral? "]]>" (body ++ ("]]>".toList ++ r)) = some body.length :=
    (Text.findLiteral?_append_iff (by decide)).2 (infix_sectionEnd_iff.not.2 hbody)
  simp only [cdataLength, hafter, hfind, List.length_append]
  rfl

theorem takes_cdata_iff : cdata.Takes i r ↔ Grammar.CData i := by
  rw [measures_cdata.takes_iff hasRoom_cdataLength.le_length]
  constructor
  · rintro ⟨hi, hlength⟩
    exact cdata_of_length hi hlength
  · rintro @⟨body, hbody⟩
    exact ⟨by simp, cdataLength_append hbody r⟩

/-! ## Processing instructions -/

/-- The body ends at the first mark that closes an instruction. -/
theorem takes_instructionBody_iff : instructionBody.Takes i ("?>".toList ++ r) ↔
    ¬ "?>".toList <:+: i ∧ (i = [] ∨ Text.startsIn isSpace i) := by
  have hoverlap : "?>".toList <:+: i ++ "?>".toList.dropLast ↔ "?>".toList <:+: i :=
    Text.infix_concat_iff_of_ne (by decide)
  have hspace : i.length ≠ 0 ∧ spaceLength (i ++ ("?>".toList ++ r)) = 0 ↔
      ¬ (i = [] ∨ Text.startsIn isSpace i) := by
    rw [spaceLength, Text.spanLength_eq_zero_iff]
    cases i <;> simp
  rw [← hoverlap, ← Text.findLiteral?_append_iff (by decide)]
  constructor
  · rintro ⟨ps, hps, htext⟩
    unfold instructionBody at hps
    cases hfind : Text.findLiteral? "?>" (i ++ ("?>".toList ++ r)) with
    | none => simp only [hfind, reduceCtorEq] at hps
    | some n =>
      simp only [hfind] at hps
      split_ifs at hps with hbody
      obtain rfl := Option.some.inj hps
      rw [Piece.textOf_hidden] at htext
      have hn : n = i.length := by
        rw [← htext, List.length_take, Nat.min_eq_left (Text.le_length_of_find? hfind)]
      subst hn
      exact ⟨rfl, by_contra fun h ↦ hbody (hspace.2 h)⟩
  · rintro ⟨hfind, hstart⟩
    refine ⟨Piece.hidden i, ?_, Piece.textOf_hidden i⟩
    simp only [instructionBody, hfind]
    rw [if_neg fun h ↦ hspace.1 h hstart, List.take_left]

theorem takes_instruction_iff : instruction.Takes i r ↔ Grammar.Instruction i := by
  simp only [instruction, Construct.takes_seq_cons_cons_iff, Construct.takes_seq_singleton_iff,
    Construct.takes_literal_iff, takes_name_iff]
  constructor
  · rintro ⟨_, _, rfl, rfl, name, _, rfl, ⟨hname, -⟩, body, _, rfl, hbody, rfl⟩
    obtain ⟨hend, hspace⟩ := takes_instructionBody_iff.1 hbody
    rw [← List.append_assoc, ← List.append_assoc]
    exact .mk hname hend hspace
  · rintro @⟨name, body, hname, hend, hspace⟩
    have hfollow : Text.startsIn isNameChar (body ++ "?>".toList ++ r) = false := by
      cases body with
      | nil => exact not_isNameChar_of_mem (by decide)
      | cons c s =>
        have hc := hspace.resolve_left (List.cons_ne_nil c s)
        exact isNameChar_of_isSpace hc
    refine ⟨"<?".toList, _, ?_, rfl, name, body ++ "?>".toList, rfl, ⟨hname, hfollow⟩, body, _, rfl,
      takes_instructionBody_iff.2 ⟨hend, hspace⟩, rfl⟩
    rw [List.append_assoc, List.append_assoc]

/-! ## Character data -/

/-- Character data goes up to the first place where something else begins. -/
theorem dataLength_append_iff : dataLength (i ++ r) = i.length ↔
    (r = [] ∨ endsData r) ∧ ∀ m < i.length, endsData ((i ++ r).drop m) = false := by
  unfold dataLength
  cases hfind : Text.find? endsData (i ++ r) with
  | none =>
    rw [Text.find?_eq_none_iff] at hfind
    rw [Option.getD_none, List.length_append]
    constructor
    · intro hlength
      refine ⟨.inl (List.length_eq_zero_iff.1 (by omega)), fun m hm ↦ hfind m ?_⟩
      rw [List.length_append]
      omega
    · rintro ⟨rfl | hends, -⟩
      · rfl
      · have hr := hfind i.length (by rw [List.length_append]; omega)
        rw [List.drop_left, hends] at hr
        exact absurd hr (by decide)
  | some n =>
    obtain ⟨hle, hhere, hfirst⟩ := Text.find?_eq_some_iff.1 hfind
    rw [Option.getD_some]
    constructor
    · rintro rfl
      rw [List.drop_left] at hhere
      exact ⟨.inr hhere, hfirst⟩
    · rintro ⟨hr, hbefore⟩
      apply Nat.le_antisymm
      · by_contra hlt
        have hnot := hfirst i.length (by omega)
        rw [List.drop_left] at hnot
        rcases hr with rfl | hends
        · rw [List.append_nil] at hle
          omega
        · rw [hends] at hnot
          exact absurd hnot (by decide)
      · by_contra hlt
        rw [hbefore n (by omega)] at hhere
        exact absurd hhere (by decide)

theorem measures_characterData : characterData.Measures dataLength :=
  Construct.measures_skipSome dataLength

/-- What is read as character data is some, and something ends it. -/
theorem characterData_of_takes (h : characterData.Takes i r) :
    i ≠ [] ∧ Grammar.CharacterData i ∧ (r = [] ∨ endsData r) := by
  obtain ⟨hi, hlength⟩ := (measures_characterData.takes_iff dataLength_le).1 h
  obtain ⟨hr, hinside⟩ := dataLength_append_iff.1 hlength
  -- A mark inside would have ended the character data.
  have hmark {front rest : List Char} (hsplit : i = front ++ rest) (hrest : rest ≠ []) :
      endsData (rest ++ r) = false := by
    have hpos := List.length_pos_iff.2 hrest
    have hat := hinside front.length (by rw [hsplit, List.length_append]; omega)
    rwa [hsplit, List.append_assoc, List.drop_left] at hat
  refine ⟨hi, ⟨?_, ?_, ?_⟩, hr⟩
  · intro hmem
    obtain ⟨front, rest, hsplit⟩ := List.append_of_mem hmem
    exact absurd (hmark hsplit (List.cons_ne_nil _ _)) (by simp [endsData])
  · intro hmem
    obtain ⟨front, rest, hsplit⟩ := List.append_of_mem hmem
    exact absurd (hmark hsplit (List.cons_ne_nil _ _)) (by simp [endsData])
  · rintro ⟨front, rest, hsplit⟩
    rw [List.append_assoc] at hsplit
    exact absurd (hmark hsplit.symm (by simp)) (by simp [endsData, Text.startsWith])

/-- Character data is read up to the end of the text or the next mark of an item. -/
theorem takes_characterData (hi : i ≠ []) (h : Grammar.CharacterData i)
    (hr : r = [] ∨ Text.startsIn (fun c ↦ c == '<' || c == '&') r) : characterData.Takes i r := by
  apply (measures_characterData.takes_iff dataLength_le).2
  refine ⟨hi, dataLength_append_iff.2 ⟨?_, ?_⟩⟩
  · exact hr.imp id fun hstarts ↦ by rw [endsData, hstarts, Bool.true_or]
  · intro m hm
    have hsplit := (List.take_append_drop m i).symm
    obtain ⟨c, s, hdrop⟩ := List.exists_cons_of_ne_nil (List.ne_nil_of_length_pos
      (by rw [List.length_drop]; omega : 0 < (i.drop m).length))
    have hmem : c ∈ i := List.mem_of_mem_drop (hdrop ▸ List.mem_cons_self)
    have hlt : c ≠ '<' := ne_of_mem_of_not_mem hmem h.noMarkup
    have hamp : c ≠ '&' := ne_of_mem_of_not_mem hmem h.noReference
    rw [List.drop_append_of_le_length (Nat.le_of_lt hm), endsData, hdrop, Bool.or_eq_false_iff]
    refine ⟨by simp [hlt, hamp], ?_⟩
    rw [← Bool.not_eq_true, Text.startsWith_iff]
    intro hend
    apply h.noSectionEnd
    have hinside : "]]>".toList <+: c :: s := by
      cases r with
      | nil => rwa [List.append_nil] at hend
      | cons d r =>
        have hd := hr.resolve_left (List.cons_ne_nil d r)
        refine Text.prefix_of_prefix_append_cons hend fun hmem ↦ ?_
        rw [Text.startsIn_cons, Bool.or_eq_true, beq_iff_eq, beq_iff_eq] at hd
        rcases hd with rfl | rfl <;> exact absurd hmem (by decide)
    rw [← hdrop] at hinside
    exact hinside.isInfix.trans (List.drop_suffix m i).isInfix

end Highlight.Xml
