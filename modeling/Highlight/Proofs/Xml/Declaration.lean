import Highlight.Proofs.Piece.Leaving
import Highlight.Proofs.Xml.Doctype

/-!
# What the XML declaration leaves

The XML declaration is decided by its own text. A pseudo-attribute stands where its text does,
whatever follows that, and where one may be missing, what stands there instead tells that it is. So
the declaration leaves what its grammar derives, and nothing else.
-/

namespace Highlight.Xml

open Construct (Takes Leaves measured skip)
open Piece (lasting textOf)

variable {label : Kind} {ps : List (Piece Kind)} {i r : List Char}

/-- Between quotes a length measures the values of a form. -/
structure MeasuresValue (length : List Char → Nat) (value : List Char → Prop) : Prop where
  le_length : ∀ s, length s ≤ s.length
  length_eq_iff : ∀ {s r : List Char} {quote : Char}, Text.isQuote quote →
    (s ≠ [] ∧ length (s ++ quote :: r) = s.length ↔ value s)

theorem Grammar.VersionNumber.isEncodingChar (h : Grammar.VersionNumber i) :
    ∀ c ∈ i, isEncodingChar c := by
  obtain ⟨-, hdigits⟩ := h
  refine List.forall_mem_append.2 ⟨?_, fun c hc ↦ ?_⟩
  · exact List.forall_mem_cons.2 ⟨rfl, List.forall_mem_singleton.2 rfl⟩
  · simp [Xml.isEncodingChar, Char.isAlphanum, hdigits c hc]

theorem Grammar.EncodingName.isEncodingChar (h : Grammar.EncodingName i) :
    ∀ c ∈ i, isEncodingChar c := by
  obtain ⟨hfirst, hnext⟩ := h
  refine List.forall_mem_cons.2 ⟨?_, hnext⟩
  simp [Xml.isEncodingChar, Char.isAlphanum, hfirst]

theorem Grammar.Standalone.isEncodingChar (h : Grammar.Standalone i) :
    ∀ c ∈ i, isEncodingChar c := by
  cases h with
  | yes =>
    exact List.forall_mem_cons.2
      ⟨rfl, List.forall_mem_cons.2 ⟨rfl, List.forall_mem_singleton.2 rfl⟩⟩
  | no => exact List.forall_mem_cons.2 ⟨rfl, List.forall_mem_singleton.2 rfl⟩

theorem not_isDigit_quote {quote : Char} (h : Text.isQuote quote) : quote.isDigit = false := by
  rw [Text.isQuote, Bool.or_eq_true, beq_iff_eq, beq_iff_eq] at h
  rcases h with rfl | rfl <;> rfl

theorem not_isEncodingChar_quote {quote : Char} (h : Text.isQuote quote) :
    isEncodingChar quote = false := by
  rw [Text.isQuote, Bool.or_eq_true, beq_iff_eq, beq_iff_eq] at h
  rcases h with rfl | rfl <;> rfl

theorem takes_version_iff : (measured label versionLength).Takes i r ↔
    ∃ digits, i = "1.".toList ++ digits ∧ digits ≠ [] ∧ (∀ c ∈ digits, c.isDigit) ∧
      Text.startsIn Char.isDigit r = false :=
  takes_marked_iff "1." Char.isDigit

theorem measuresValue_versionLength : MeasuresValue versionLength Grammar.VersionNumber where
  le_length := versionLength_le
  length_eq_iff := by
    intro s r quote hquote
    have htakes := (Construct.measures_measured Kind.string versionLength).takes_iff
      (i := s) (r := quote :: r) versionLength_le
    rw [← htakes, takes_version_iff]
    constructor
    · rintro ⟨digits, rfl, hne, hdigits, -⟩
      exact .mk hne hdigits
    · rintro ⟨hne, hdigits⟩
      exact ⟨_, rfl, hne, hdigits, not_isDigit_quote hquote⟩

theorem measuresValue_encodingLength : MeasuresValue encodingLength Grammar.EncodingName where
  le_length := Text.wordLength_le
  length_eq_iff := by
    intro s r quote hquote
    constructor
    · rintro ⟨hne, hlength⟩
      obtain ⟨⟨c, rest, rfl, hc, hrest⟩, -⟩ := (Text.wordLength_append_iff hne).1 hlength
      exact .mk hc hrest
    · rintro @⟨c, rest, hc, hrest⟩
      have hne := List.cons_ne_nil c rest
      exact ⟨hne, (Text.wordLength_append_iff hne).2
        ⟨⟨c, rest, rfl, hc, hrest⟩, not_isEncodingChar_quote hquote⟩⟩

theorem measuresValue_standaloneLength : MeasuresValue standaloneLength Grammar.Standalone where
  le_length := standaloneLength_le
  length_eq_iff := by
    intro s r quote hquote
    have hvalue {lit : String} (hstart : Text.startsWith lit (s ++ quote :: r))
        (hlit : lit.toList.length = s.length) : s = lit.toList := by
      obtain ⟨rest, hrest⟩ := Text.startsWith_iff.1 hstart
      exact (List.append_inj hrest hlit).1.symm
    constructor
    · rintro ⟨hne, hlength⟩
      unfold standaloneLength at hlength
      split_ifs at hlength with hyes hno
      · rw [hvalue hyes hlength]
        exact .yes
      · rw [hvalue hno hlength]
        exact .no
      · exact absurd (List.length_eq_zero_iff.1 hlength.symm) hne
    · rintro (_ | _)
      · simp [standaloneLength, Text.startsWith]
      · simp [standaloneLength, Text.startsWith]

theorem takeWhile_space {space : List Char} (h : Grammar.OptionalSpace space)
    (hr : Text.startsIn isSpace r = false) : (space ++ r).takeWhile isSpace = space := by
  rw [← Text.take_spanLength, Text.spanLength_append_iff.2 ⟨h, hr⟩, List.take_left]

namespace PseudoAttribute

/-- The pseudo-attribute has the keyword and, closed by its quote, a value of the form. -/
structure WellFormed (keyword : String) (value : List Char → Prop) (info : PseudoAttribute) :
    Prop where
  space : Grammar.Space info.space
  keyword_eq : info.keyword = keyword.toList
  before : Grammar.OptionalSpace info.spaceBeforeEquals
  behind : Grammar.OptionalSpace info.spaceAfterEquals
  quote : Text.isQuote info.quote
  value : value info.value
  terminated : info.terminated

section

variable {keyword : String} {valueLength : List Char → Nat} {value : List Char → Prop}
  {info : PseudoAttribute} {s : List Char}

/-- Where something else than the keyword stands behind the white space, there is no
pseudo-attribute. -/
theorem read?_eq_none {space : List Char} {c first : Char} (hspace : Grammar.OptionalSpace space)
    (hc : isSpace c = false) (hfirst : keyword.toList.head? = some first) (hne : c ≠ first)
    (rest : List Char) : read? keyword valueLength (space ++ c :: rest) = none := by
  have htake : (space ++ c :: rest).takeWhile isSpace = space := takeWhile_space hspace hc
  have hnone : Text.after? keyword (c :: rest) = none := Text.after?_cons_eq_none _ hfirst hne rest
  simp only [read?, htake, List.drop_left, hnone, bind, Option.bind_none, ite_self]

variable (hkeyword : ∀ rest, Text.startsIn isSpace (keyword.toList ++ rest) = false)
  (hvalue : MeasuresValue valueLength value)

include hkeyword

theorem keyword_ne_nil : keyword.toList ≠ [] := by
  intro hnil
  have hspace := hkeyword [' ']
  rw [hnil] at hspace
  exact absurd hspace (by decide)

include hvalue

omit hkeyword in
/-- What is read with its closing quote has a value of the form. -/
theorem wellFormed_of_read? (hread : read? keyword valueLength s = some info)
    (hterminated : info.terminated) : info.WellFormed keyword value := by
  obtain ⟨behind, hbehind⟩ := text_prefix_of_read? hread hterminated
  obtain ⟨hspace, hspaces, hname, hbefore, hafter, hquote, rest, rfl, hmeasured, hend⟩ :=
    read?_eq_some hread
  have hrest : rest = info.value ++ info.quote :: behind := by
    simp only [text, List.append_assoc, List.append_cancel_left_eq, List.cons_append,
      List.nil_append, List.cons.injEq, true_and] at hbehind
    exact hbehind.symm
  have hne : info.value ≠ [] := by
    intro hnil
    rw [hterminated, hnil] at hend
    exact absurd hend (by simp)
  have hlength : valueLength (info.value ++ info.quote :: behind) = info.value.length := by
    rw [← hrest, hmeasured, List.length_take, Nat.min_eq_left (hvalue.le_length rest)]
  exact ⟨⟨hspace, hspaces⟩, hname, hbefore, hafter, hquote,
    (hvalue.length_eq_iff hquote).1 ⟨hne, hlength⟩, hterminated⟩

/-- A pseudo-attribute is read where its text stands. -/
theorem WellFormed.read?_eq (h : info.WellFormed keyword value) (behind : List Char) :
    read? keyword valueLength (info.text ++ behind) = some info := by
  obtain ⟨space, name, before, after, quote, inside, terminated⟩ := info
  obtain ⟨hspace, hname, hbefore, hafter, hquote, hinside, hterminated⟩ := h
  simp only at *
  subst hname hterminated
  obtain ⟨hne, hlength⟩ := (hvalue.length_eq_iff (r := behind) hquote).2 hinside
  have hafterKeyword (rest : List Char) :
      Text.after? keyword (keyword.toList ++ rest) = some rest := Text.after?_eq_some.2 rfl
  have hafterEquals (rest : List Char) : Text.after? "=" ('=' :: rest) = some rest :=
    Text.after?_eq_some.2 rfl
  have hequals (rest : List Char) : Text.startsIn isSpace ('=' :: rest) = false := rfl
  have hstop (rest : List Char) : Text.startsIn isSpace (quote :: rest) = false :=
    not_isSpace_quote hquote
  have hnotEmpty : space.isEmpty = false := by simpa using hspace.1
  have htake : (inside ++ quote :: behind).take (valueLength (inside ++ quote :: behind)) =
      inside := by
    rw [hlength, List.take_left]
  simp only [text, List.append_assoc, List.cons_append, List.nil_append, read?,
    takeWhile_space hspace.2 (hkeyword _), List.drop_left, hafterKeyword,
    takeWhile_space hbefore (hequals _), hafterEquals, takeWhile_space hafter (hstop _),
    hnotEmpty, hquote, bind, pure, Option.bind_some, List.head?_cons, Bool.not_true,
    Bool.false_eq_true, if_false, List.drop_one, List.tail_cons, htake]
  simp [hne]

/-- A terminated pseudo-attribute is read whatever follows it. -/
theorem read?_text (h : read? keyword valueLength s = some info) (hterminated : info.terminated)
    (t : List Char) : read? keyword valueLength (info.text ++ t) = some info :=
  (wellFormed_of_read? hvalue h hterminated).read?_eq hkeyword hvalue t

omit hvalue in
/-- The pieces of well-formed pseudo-attributes are those of the grammar. -/
theorem exists_wellFormed_iff :
    (∃ info : PseudoAttribute, info.WellFormed keyword value ∧ info.pieces = ps) ↔
      Grammar.PseudoAttribute keyword value ps := by
  have hshown : Piece.shown Kind.markupAttr keyword.toList =
      [.token .markupAttr keyword.toList] := by
    rw [Piece.shown, if_neg (List.isEmpty_iff.not.2 (keyword_ne_nil hkeyword))]
  constructor
  · rintro ⟨info, hformed, rfl⟩
    rw [pieces, hformed.keyword_eq, hshown]
    exact .mk hformed.space hformed.before hformed.behind hformed.quote hformed.value
  · rintro @⟨space, before, behind, inside, quote, hspace, hbefore, hbehind, hquote, hinside⟩
    refine ⟨⟨space, keyword.toList, before, behind, quote, inside, true⟩,
      ⟨hspace, rfl, hbefore, hbehind, hquote, hinside, rfl⟩, ?_⟩
    simp only [pieces, hshown]
    rfl

/-- What is read where the text of pieces stands are these pieces. -/
theorem exists_read?_iff : (∃ info, read? keyword valueLength (textOf ps ++ r) = some info ∧
      info.terminated ∧ info.pieces = ps) ↔ Grammar.PseudoAttribute keyword value ps := by
  rw [← exists_wellFormed_iff hkeyword]
  constructor
  · rintro ⟨info, hread, hterminated, hpieces⟩
    exact ⟨info, wellFormed_of_read? hvalue hread hterminated, hpieces⟩
  · rintro ⟨info, hformed, rfl⟩
    rw [(covers_pieces info).textOf_eq]
    exact ⟨info, hformed.read?_eq hkeyword hvalue r, hformed.terminated, rfl⟩

omit hkeyword hvalue in
theorem lasting_pieces (info : PseudoAttribute) : lasting info.pieces = info.pieces := by
  simp [pieces]

theorem leaves_required_iff :
    (required keyword valueLength).Leaves ps r ↔ Grammar.PseudoAttribute keyword value ps := by
  rw [← exists_read?_iff (r := r) hkeyword hvalue]
  constructor
  · rintro ⟨qs, hqs, rfl⟩
    obtain ⟨info, hread, hinfo⟩ := Option.bind_eq_some_iff.1 hqs
    split_ifs at hinfo with hterminated
    obtain rfl := Option.some.inj hinfo
    exact ⟨info, hread, hterminated, (lasting_pieces info).symm⟩
  · rintro ⟨info, hread, hterminated, rfl⟩
    refine ⟨info.pieces, ?_, lasting_pieces info⟩
    simp only [required, hread, bind, Option.bind_some, hterminated, if_true]

/-- A pseudo-attribute that may be missing is there and well formed, or nothing like it is there. -/
theorem leaves_allowed_iff : (allowed keyword valueLength).Leaves ps r ↔
    Grammar.PseudoAttribute keyword value ps ∨ ps = [] ∧ read? keyword valueLength r = none := by
  rw [← exists_read?_iff (r := r) hkeyword hvalue]
  constructor
  · rintro ⟨qs, hqs, rfl⟩
    simp only [allowed] at hqs
    cases hread : read? keyword valueLength (textOf (lasting qs) ++ r) with
    | none =>
      rw [hread] at hqs
      obtain rfl := Option.some.inj hqs
      exact .inr ⟨rfl, hread⟩
    | some info =>
      simp only [hread] at hqs
      split_ifs at hqs with hterminated
      obtain rfl := Option.some.inj hqs
      exact .inl ⟨info, rfl, hterminated, (lasting_pieces info).symm⟩
  · rintro (⟨info, hread, hterminated, rfl⟩ | ⟨rfl, hread⟩)
    · refine ⟨info.pieces, ?_, lasting_pieces info⟩
      simp only [allowed, hread, hterminated, if_true]
    · refine ⟨[], ?_, rfl⟩
      simp only [allowed, Piece.textOf_nil, List.nil_append, hread]

end

end PseudoAttribute

/-! ## The declaration -/

/-- Behind a pseudo-attribute of another keyword, or in front of what closes the declaration, there
is no pseudo-attribute of the keyword. -/
theorem read?_of_optional {keyword other : String} {value : List Char → Prop}
    {valueLength : List Char → Nat} {first second : Char} {rest : List Char}
    (h : Grammar.Optional (Grammar.PseudoAttribute other value) ps)
    (hi : Grammar.OptionalSpace i) (hkeyword : keyword.toList.head? = some first)
    (hother : other.toList.head? = some second) (hne : second ≠ first) (hmark : '?' ≠ first)
    (hspace : isSpace second = false) :
    PseudoAttribute.read? keyword valueLength (textOf ps ++ (i ++ '?' :: rest)) = none := by
  cases h with
  | absent =>
    rw [Piece.textOf_nil, List.nil_append]
    exact PseudoAttribute.read?_eq_none hi rfl hkeyword hmark rest
  | present h =>
    obtain ⟨hspaces, -, -, -, -⟩ := h
    obtain ⟨behind, hbehind⟩ := List.head?_eq_some_iff.1 hother
    simp only [Piece.textOf_append, Piece.textOf_hidden, hbehind, List.append_assoc,
      Piece.textOf_cons, Piece.text, List.cons_append]
    exact PseudoAttribute.read?_eq_none hspaces.2 hspace hkeyword hne _

theorem leaves_version_iff : (PseudoAttribute.required "version" versionLength).Leaves ps r ↔
    Grammar.PseudoAttribute "version" Grammar.VersionNumber ps :=
  PseudoAttribute.leaves_required_iff (fun _ ↦ rfl) measuresValue_versionLength

theorem leaves_encoding_iff : (PseudoAttribute.allowed "encoding" encodingLength).Leaves ps r ↔
    Grammar.PseudoAttribute "encoding" Grammar.EncodingName ps ∨
      ps = [] ∧ PseudoAttribute.read? "encoding" encodingLength r = none :=
  PseudoAttribute.leaves_allowed_iff (fun _ ↦ rfl) measuresValue_encodingLength

theorem leaves_standalone_iff :
    (PseudoAttribute.allowed "standalone" standaloneLength).Leaves ps r ↔
      Grammar.PseudoAttribute "standalone" Grammar.Standalone ps ∨
        ps = [] ∧ PseudoAttribute.read? "standalone" standaloneLength r = none :=
  PseudoAttribute.leaves_allowed_iff (fun _ ↦ rfl) measuresValue_standaloneLength

/-- The XML declaration leaves what its grammar derives, whatever follows. -/
theorem leaves_declaration_iff : declaration.Leaves ps r ↔ Grammar.XmlDeclaration ps := by
  have hskip {qs : List (Piece Kind)} {t : List Char} :
      (skip spaceLength : Construct Kind).Leaves qs t ↔ ∃ space, qs = Piece.hidden space ∧
        Grammar.OptionalSpace space ∧ Text.startsIn isSpace t = false := by
    simp only [(Construct.renders_skip spaceLength).leaves_iff Piece.textOf_hidden,
      takes_space_iff]
  simp only [declaration, Construct.leaves_seq_cons_iff, Construct.leaves_seq_nil_iff,
    Construct.leaves_literal_iff, hskip, leaves_version_iff, leaves_encoding_iff,
    leaves_standalone_iff]
  constructor
  · rintro ⟨_, _, rfl, rfl, version, _, rfl, hversion, encoding, _, rfl, hencoding, standalone, _,
      rfl, hstandalone, _, _, rfl, ⟨space, rfl, hspace, -⟩, _, _, rfl, rfl, rfl⟩
    have hmay {form : List (Piece Kind) → Prop} {qs : List (Piece Kind)} {p : Prop}
        (h : form qs ∨ qs = [] ∧ p) : Grammar.Optional form qs := by
      rcases h with hform | ⟨rfl, -⟩
      · exact .present hform
      · exact .absent
    have hform := Grammar.XmlDeclaration.mk hversion (hmay hencoding) (hmay hstandalone) hspace
    simpa only [List.append_assoc, List.append_nil] using hform
  · rintro @⟨version, encoding, standalone, space, hversion, hencoding, hstandalone, hspace⟩
    have hmay {form : List (Piece Kind) → Prop} {qs : List (Piece Kind)} {p : Prop}
        (h : Grammar.Optional form qs) (hp : qs = [] → p) : form qs ∨ qs = [] ∧ p := by
      cases h with
      | absent => exact .inr ⟨rfl, hp rfl⟩
      | present h => exact .inl h
    refine ⟨_, _, by simp only [List.append_assoc], rfl, version, _, rfl, hversion, encoding, _,
      rfl, hmay hencoding fun _ ↦ ?_, standalone, _, rfl, hmay hstandalone fun _ ↦ ?_, _, _, rfl,
      ⟨space, rfl, hspace, rfl⟩, _, [], (List.append_nil _).symm, rfl, rfl⟩
    · simp only [Piece.textOf_append, Piece.textOf_hidden, List.append_assoc]
      exact read?_of_optional hstandalone hspace rfl rfl (by decide) (by decide) rfl
    · simp only [Piece.textOf_append, Piece.textOf_hidden, List.append_assoc]
      exact PseudoAttribute.read?_eq_none hspace rfl rfl (by decide) _

/-- The XML declaration leaves the same pieces whatever follows it. -/
theorem leaves_declaration (h : declaration.Leaves ps r) (t : List Char) :
    declaration.Leaves ps t :=
  leaves_declaration_iff.2 (leaves_declaration_iff.1 h)

end Highlight.Xml
