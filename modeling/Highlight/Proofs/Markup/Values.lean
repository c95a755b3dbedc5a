import Highlight.Proofs.Markup.References
import Highlight.Proofs.Markup.StartTag
import Highlight.Proofs.Xml.Tag
import Highlight.Text.Unicode

/-!
# Attribute values around their references

Behind the name of an attribute stands its value, which only HTML may leave out. The value is shown
whole, quotes included, as strings and as escapes, and the escapes are the references in it. Both
languages read it in one loop, which differs in what ends a value and in what is refused in it.
-/

namespace Highlight

open Piece (GapsIn labelled textOf tokens width)

namespace Markup

variable {language : Language} {s : List Char} {ps : List (Piece Kind)}

def isSpaceOf : Language → Char → Bool
  | .xml => Xml.isSpace
  | _ => Html.isSpace

def referenceLengthOf : Language → List Char → Nat
  | .xml => Xml.referenceLength
  | _ => Html.referenceLength

/-- An equals sign, which white space may surround. -/
def EqualsSign (language : Language) (sign : List Char) : Prop :=
  ∃ before behind, sign = before ++ '=' :: behind ∧ (∀ c ∈ before, isSpaceOf language c) ∧
    ∀ c ∈ behind, isSpaceOf language c

/-- The text is an attribute value in front of the rest. Without quotes, which HTML allows, it is as
long as it can be. -/
inductive Value (language : Language) : (value rest : List Char) → Prop
  | quoted {quote : Char} {inside rest : List Char} :
      Text.isQuote quote → quote ∉ inside → Value language ([quote] ++ inside ++ [quote]) rest
  | unquoted {value rest : List Char} :
      language = .html → value ≠ [] → (∀ c ∈ value, Html.isUnquotedChar c) →
      Text.startsIn Html.isUnquotedChar rest = false → Value language value rest

/-- The attribute whose name ends in front of the text has no value. -/
def NoValue (language : Language) (s : List Char) : Prop :=
  language = .html ∧
    ∀ space rest, s = space ++ '=' :: rest → ∃ c ∈ space, isSpaceOf language c = false

/-- The tokens of a value that begins at byte `begin`: they are strings and escapes, stand end to
end over the whole value, and the escapes are the references in it. In XML there is one at every
ampersand. -/
structure SplitAtReferences (language : Language) (value : List Char) (begin : Nat)
    (parts : List Token) : Prop where
  tiles : Tiles (begin + Text.byteLength value) begin parts
  kinds : ∀ part ∈ parts, part.kind = .string ∨ part.kind = .escape
  nonempty : ∀ part ∈ parts, 0 < part.length
  escapes_eq : escapes parts = referencesFrom (referenceLengthOf language) begin value
  ampersands : language = .xml → ∀ front behind, value = front ++ '&' :: behind →
    referenceLengthOf language ('&' :: behind) ≠ 0

/-- The pieces show a value split at its references, wherever they stand. -/
structure ShowsValue (language : Language) (parts : List (Piece Kind)) : Prop where
  gaps : GapsIn (fun _ ↦ False) parts
  kinds : ValueParts (labelled parts)
  escapes_eq : ∀ begin, escapes (tokens begin parts) =
    referencesFrom (referenceLengthOf language) begin (textOf parts)
  ampersands : language = .xml → ∀ front behind, textOf parts = front ++ '&' :: behind →
    referenceLengthOf language ('&' :: behind) ≠ 0

/-- Where nothing but references is set in, nothing is passed over. -/
theorem gapsIn_turn {length : List Char → Nat} {turn : List Char → Turn Kind}
    (h : ∀ s ps, turn s = .aside ps → Construct.measured .escape length s = some ps) :
    Turn.GapsIn (fun _ ↦ False) turn :=
  fun s ps hturn ↦ Construct.gapsIn_measured _ _ s ps (h s ps hturn)

theorem ShowsValue.split {parts : List (Piece Kind)} (h : ShowsValue language parts)
    (begin : Nat) : SplitAtReferences language (textOf parts) begin (tokens begin parts) where
  tiles := Piece.tiles_tokens begin h.gaps
  kinds part hpart := by
    obtain ⟨text, hentry⟩ := Piece.exists_entry_of_mem hpart
    exact h.kinds _ hentry
  nonempty part hpart := Piece.length_pos_of_mem_tokens hpart
  escapes_eq := h.escapes_eq begin
  ampersands := h.ampersands

/-- What is behind the name of an attribute: nothing, or an equals sign and a value. -/
def HasValue (language : Language) (after : List (Piece Kind)) (rest : List Char) : Prop :=
  NoValue language (textOf after ++ rest) ∨
    ∃ sign parts others, after = sign ++ (parts ++ others) ∧ labelled sign = [] ∧
      EqualsSign language (textOf sign) ∧ Value language (textOf parts) (textOf others ++ rest) ∧
      ShowsValue language parts

/-- An equals sign with the value behind it. -/
theorem hasValue_of_seq {spaceLength : List Char → Nat} {attributeValue : Construct Kind}
    (hspace : ∀ s, spaceLength s = Text.spanLength (isSpaceOf language) s)
    (hvalue : ∀ s ps, attributeValue s = some ps →
      Value language (textOf ps) (s.drop (width ps)) ∧ ShowsValue language ps)
    (h : Construct.seq [.skip spaceLength, .skipLiteral "=", .skip spaceLength, attributeValue] s =
      some ps) : HasValue language ps (s.drop (width ps)) := by
  have hskip {t : List Char} {qs : List (Piece Kind)}
      (hqs : Construct.skip spaceLength t = some qs) :
      ∃ blank, qs = Piece.hidden blank ∧ ∀ c ∈ blank, isSpaceOf language c := by
    obtain rfl := Option.some.inj hqs
    refine ⟨_, rfl, ?_⟩
    rw [hspace]
    exact Text.forall_mem_take_spanLength
  obtain ⟨_, qs, hfront, hqs, rfl⟩ := Construct.seq_cons_eq_some.1 h
  obtain ⟨before, rfl, hbefore⟩ := hskip hfront
  obtain ⟨_, rs, hsign, hrs, rfl⟩ := Construct.seq_cons_eq_some.1 hqs
  obtain ⟨-, rfl⟩ := Construct.skipLiteral_eq_some.1 hsign
  obtain ⟨_, us, hback, hus, rfl⟩ := Construct.seq_cons_eq_some.1 hrs
  obtain ⟨behind, rfl, hbehind⟩ := hskip hback
  obtain ⟨parts, nothing, hparts, hnothing, rfl⟩ := Construct.seq_cons_eq_some.1 hus
  obtain rfl := Construct.seq_nil_eq_some.1 hnothing
  obtain ⟨hread, hshows⟩ := hvalue _ _ hparts
  refine .inr ⟨Piece.hidden before ++ ([.gap "=".toList] ++ Piece.hidden behind), parts, [], ?_, ?_,
    ⟨before, behind, ?_, hbefore, hbehind⟩, ?_, hshows⟩
  · simp only [List.append_assoc]
  · simp
  · simp [Piece.text]
  · simpa only [Piece.width_append, ← List.drop_drop, Piece.textOf_nil, List.nil_append,
      List.append_nil] using hread

/-- What stands behind the names of attributes. -/
def valued (language : Language) : View Kind :=
  fun kind _ after rest ↦ kind = .markupAttr → HasValue language after rest

theorem atStartTags_valued (language : Language) : AtStartTags (valued language) :=
  fun _ hquiet _ _ hkind ↦ absurd hkind hquiet.1

theorem extends_valued (language : Language) : (valued language).Extends := by
  intro kind text after more rest h hkind
  rcases h hkind with hnone | ⟨sign, parts, others, rfl, hsign, hequals, hvalue, hparts⟩
  · left
    rwa [Piece.textOf_append, List.append_assoc]
  · refine .inr ⟨sign, parts, others ++ more, by simp, hsign, hequals, ?_, hparts⟩
    rwa [Piece.textOf_append, List.append_assoc]

theorem inView_attribute {nameLength : List Char → Nat} {cs : List (Construct Kind)}
    (hkinds : (Construct.seq cs).Shows ValueParts)
    (hvalue : ∀ s ps, Construct.seq cs s = some ps → HasValue language ps (s.drop (width ps))) :
    (Construct.seq (.measured .markupAttr nameLength :: cs)).InView (valued language) := by
  intro s ps hps
  obtain ⟨label, qs, hlabel, hqs, rfl⟩ := Construct.seq_cons_eq_some.1 hps
  obtain ⟨-, rfl⟩ := Construct.measured_eq_some.1 hlabel
  rw [Piece.width_append, ← List.drop_drop, List.singleton_append]
  refine Piece.inView_cons (fun _ _ _ _ _ ↦ hvalue _ _ hqs) ?_
  rintro before kind text after rfl htext rfl
  have hpart := hkinds _ _ hqs (.markupAttr, text) (Piece.mem_labelled.2 ⟨by simp, htext⟩)
  exact absurd hpart (by simp)

theorem inView_mark (lit : String) :
    (Construct.literal Kind.symPunc lit).InView (valued language) := by
  intro s ps hps
  obtain ⟨-, rfl⟩ := Construct.literal_eq_some.1 hps
  exact Piece.inView_token fun _ ↦ (absurd · (by decide))

/-- The attributes of a start tag have values if each of them has, whatever ends the tag. -/
theorem inView_tag {nameLength : List Char → Nat} {c : Construct Kind} {cs : List (Construct Kind)}
    (hc : c.Fits) (hcs : ∀ c ∈ cs, c.Fits) (hattributes : c.InView (valued language))
    (hend : (Construct.seq cs).InView (valued language)) :
    (Construct.seq (.literal .symPunc "<" :: .measured .markupTag nameLength ::
      c.many :: cs)).InView (valued language) := by
  have hextends := extends_valued language
  have hbehind : ∀ d ∈ c.many :: cs, d.Fits :=
    List.forall_mem_cons.2 ⟨Construct.fits_many hc, hcs⟩
  have hname : (Construct.measured Kind.markupTag nameLength).InView (valued language) :=
    (atStartTags_valued language).inView (apart_measured (by decide) (by decide))
  exact Construct.inView_seq_cons hextends
    (Construct.fits_seq (List.forall_mem_cons.2 ⟨Construct.fits_measured _ _, hbehind⟩))
    (inView_mark "<") <| Construct.inView_seq_cons hextends (Construct.fits_seq hbehind) hname <|
      Construct.inView_seq_cons hextends (Construct.fits_seq hcs)
        (Construct.inView_many hextends hc hattributes) hend

end Markup

open Markup

namespace Html

theorem referenceLength_of_plain {c : Char} (h : valueTurn (c :: s) = .plain) :
    referenceLength (c :: s) = 0 := by
  by_contra hne
  have hsome : (reference (c :: s)).isSome := Construct.isSome_measured hne
  unfold valueTurn at h
  rw [if_neg (by simp)] at h
  cases hreference : reference (c :: s) with
  | none => exact absurd hsome (by simp [hreference])
  | some pieces => simp [hreference] at h

theorem eq_nil_of_close {n : Nat} (h : valueTurn s = .close n) : s = [] := by
  unfold valueTurn at h
  split_ifs at h with hempty
  · exact List.isEmpty_iff.1 hempty
  · split at h <;> simp at h

/-- The parts of a value are a value whole. -/
theorem showsValue_of_valueParts (h : valueParts s = some ps) :
    textOf ps = s ∧ ShowsValue .html ps := by
  have hfits := (Construct.fits_parts fits_valueTurn).read s ps h
  have hwidth := width_partsFrom fits_valueTurn (fun _ _ ↦ eq_nil_of_close) h
  have htext : textOf ps = s := by
    rw [hfits.textOf_eq_take, hwidth]
    simp
  obtain ⟨body, rest, -, hbody, hescapes⟩ := measuresReferences.showsBody_of_partsFrom
    (fun t n hclose ↦ by rw [eq_nil_of_close hclose]; simp) (fun _ _ ↦ referenceLength_of_plain)
    (fun _ _ ↦ reference_of_valueTurn) h
  refine ⟨htext, gapsIn_partsFrom (gapsIn_turn fun _ _ ↦ reference_of_valueTurn) h,
    shows_valueParts s ps h, fun begin ↦ ?_, fun hxml ↦ absurd hxml (by decide)⟩
  rw [hescapes, hbody]
  rfl

theorem exists_value (h : attributeValue s = some ps) :
    Value .html (textOf ps) (s.drop (width ps)) ∧ ShowsValue .html ps := by
  unfold attributeValue at h
  simp only at h
  have hvalue (n : Nat) (hread : valueParts (s.take n) = some ps) (hle : n ≤ s.length)
      (hform : Value .html (s.take n) (s.drop n)) :
      Value .html (textOf ps) (s.drop (width ps)) ∧ ShowsValue .html ps := by
    obtain ⟨htext, hshows⟩ := showsValue_of_valueParts hread
    refine ⟨?_, hshows⟩
    rwa [← Piece.length_textOf, htext, List.length_take, Nat.min_eq_left hle]
  split_ifs at h with hquoted hzero hzero
  · have hle := Text.quotedLength_le s
    refine hvalue _ h hle ?_
    have htake := List.length_take_of_le hle
    have hne : s.take (Text.quotedLength s) ≠ [] := by
      rw [← List.length_pos_iff, htake]
      exact Nat.pos_of_ne_zero hzero
    obtain ⟨quote, inside, heq, hquote, hinside⟩ :=
      Text.exists_of_quotedLength (r := s.drop (Text.quotedLength s)) hne
        (by rw [List.take_append_drop, htake])
    rw [heq]
    exact .quoted hquote hinside
  · have hle : unquotedLength s ≤ s.length := Text.spanLength_le _ _
    have htake := List.length_take_of_le hle
    have hrun : Text.spanLength isUnquotedChar
        (s.take (unquotedLength s) ++ s.drop (unquotedLength s)) =
          (s.take (unquotedLength s)).length := by
      rw [List.take_append_drop, htake]
      rfl
    obtain ⟨hall, hend⟩ := Text.spanLength_append_iff.1 hrun
    exact hvalue _ h hle (.unquoted rfl (Text.take_spanLength_ne_nil hzero) hall hend)

/-- What stands behind the name of an attribute. -/
theorem hasValue_of_assignedValue (h : assignedValue s = some ps) :
    HasValue .html ps (s.drop (width ps)) := by
  change (if Text.startsWith "=" (s.drop (spaceLength s)) then
    Construct.seq [.skip spaceLength, .skipLiteral "=", .skip spaceLength, attributeValue]
    else .seq []) s = some ps at h
  split_ifs at h with hequals
  · exact hasValue_of_seq (fun _ ↦ rfl) (fun _ _ ↦ exists_value) h
  · obtain rfl := Construct.seq_nil_eq_some.1 h
    refine .inl ⟨rfl, fun space rest hsplit ↦ ?_⟩
    rw [Piece.textOf_nil, Piece.width_nil, List.drop_zero, List.nil_append] at hsplit
    by_contra hspace
    simp only [not_exists, not_and, Bool.not_eq_false] at hspace
    have hlength : spaceLength s = space.length := by
      rw [hsplit]
      exact Text.spanLength_append_iff.2 ⟨hspace, rfl⟩
    rw [hlength, hsplit, List.drop_left] at hequals
    exact hequals rfl

theorem inView_tagPart : tagPart.InView (valued .html) := by
  have hslash : straySlash.Shows Apart := by
    refine shows_straySlash.mono ?_
    rintro _ rfl
    exact composes_apart.nil
  apply Construct.inView_firstOf
  simp only [List.forall_mem_cons]
  refine ⟨(atStartTags_valued _).inView apart_skipSome, (atStartTags_valued _).inView hslash,
    inView_attribute (Construct.shows_seq_singleton shows_assignedValue) ?_, List.forall_mem_nil _⟩
  intro s ps h
  obtain ⟨qs, nothing, hqs, hnothing, rfl⟩ := Construct.seq_cons_eq_some.1 h
  obtain rfl := Construct.seq_nil_eq_some.1 hnothing
  rw [List.append_nil]
  exact hasValue_of_assignedValue hqs

theorem inView_startTag_valued : startTag.InView (valued .html) := by
  refine Construct.inView_choose fun s ↦ ?_
  have hend (name : List Char) := (atStartTags_valued .html).inView (apart_tagEnd name)
  exact inView_tag fits_tagPart (by simp) inView_tagPart (Construct.inView_seq_singleton (hend _))

theorem inView_scan (source : List Char) :
    Piece.InView (valued .html) (scan source) (source.drop (width (scan source))) :=
  Construct.inView_repeated (extends_valued .html) fits_item
    (inView_item (atStartTags_valued .html) inView_startTag_valued) source

end Html

/-! ## Values of XML -/

namespace Xml

variable {quote c : Char} {n : Nat}

theorem mem_take_of_close (hquote : Text.isQuote quote) (h : valueTurn quote s = .close n) :
    '&' ∉ s.take n := by
  cases s with
  | nil => simp
  | cons c s =>
    simp only [valueTurn] at h
    split_ifs at h with hclose
    · obtain rfl := (Turn.close.inj h).symm
      rw [List.take_one, List.head?_cons, hclose]
      simpa using ne_of_isQuote hquote
    · split at h <;> simp at h

theorem ne_of_plain (h : valueTurn quote (c :: s) = .plain) : c ≠ '&' := by
  rintro rfl
  simp only [valueTurn] at h
  split_ifs at h
  split at h <;> simp at h

/-- Every ampersand in a value begins a reference. -/
theorem referenceLength_ne_zero {inside front behind : List Char} (h : ValueInside quote inside)
    (hsplit : inside = front ++ '&' :: behind) (rest : List Char) :
    referenceLength ('&' :: (behind ++ rest)) ≠ 0 := by
  obtain ⟨text, htext, more, hmore⟩ := h.references front behind hsplit
  have hread := reference_append htext (more ++ rest)
  rw [← List.append_assoc, hmore, List.cons_append] at hread
  exact (Construct.measured_eq_some.1 hread).1

theorem exists_value (h : attributeValue s = some ps) :
    Value .xml (textOf ps) (s.drop (width ps)) ∧ ShowsValue .xml ps := by
  obtain ⟨hquote, hparts⟩ := Construct.onlyIf_eq_some.1 h
  cases s with
  | nil => simp at hquote
  | cons quote s =>
    rw [Text.startsIn_cons] at hquote
    change partsFrom .string (valueTurn quote) [] [quote] s = some ps at hparts
    obtain ⟨inside, rest, rfl, hinside, htext⟩ := valueText_of_partsFrom hparts
    have hvalue := (valueText_iff hquote).1 hinside
    obtain ⟨body, -, -, hbody, hescapes⟩ := measuresReferences.showsBody_of_partsFrom
      (fun _ _ ↦ mem_take_of_close hquote)
      (fun c s hplain ↦ measuresReferences.eq_zero (ne_of_plain hplain) s)
      (fun _ _ ↦ reference_of_valueTurn) hparts
    refine ⟨?_, gapsIn_partsFrom (gapsIn_turn fun _ _ ↦ reference_of_valueTurn) hparts,
      (@shows_attributeValue .xml _ _ h).1, fun begin ↦ ?_, fun _ front behind hsplit ↦ ?_⟩
    · rw [htext]
      exact .quoted hquote hvalue.noQuote
    · have hfirst : '&' ∉ [quote] := by simpa using ne_of_isQuote hquote
      rw [hescapes, hbody]
      exact (measuresReferences.referencesFrom_append hfirst begin body).symm
    · -- The quotes are no ampersands, so this one stands between them.
      rw [htext, List.reverse_singleton, List.append_assoc, List.singleton_append] at hsplit
      have hmark : '&' ≠ quote := ne_of_isQuote hquote
      cases front with
      | nil => exact absurd (List.cons.inj hsplit).1.symm hmark
      | cons first front =>
        rcases append_eq_append_cons (List.cons.inj hsplit).2 with
          ⟨back, hback, rfl⟩ | ⟨front, -, hfront⟩
        · exact referenceLength_ne_zero hvalue hback [quote]
        · have hmem : '&' ∈ [quote] := by
            rw [hfront]
            simp
          exact absurd (List.mem_singleton.1 hmem) hmark

theorem inView_spacedAttribute : spacedAttribute.InView (valued .xml) := by
  refine Construct.inView_seq_cons (extends_valued .xml) (Construct.fits_seq (by simp))
    ((atStartTags_valued .xml).inView apart_skipSome) (Construct.inView_seq_singleton ?_)
  refine inView_attribute ?_ fun _ _ ↦ hasValue_of_seq (fun _ ↦ rfl) fun _ _ ↦ exists_value
  have hspace := Construct.shows_skip composes_nil spaceLength
  refine Construct.shows_seq_silent hspace (Construct.shows_seq_silent
    (Construct.shows_skipLiteral composes_nil "=") (Construct.shows_seq_silent hspace ?_))
  exact Construct.shows_seq_singleton
    ((@shows_attributeValue .xml).mono fun _ hvalue ↦ hvalue.1)

theorem inView_startTag_valued : startTag.InView (valued .xml) := by
  have hfits : (Construct.firstOf [.literal Kind.symPunc ">", .literal .symPunc "/>"]).Fits :=
    Construct.fits_firstOf (by simp)
  refine inView_tag fits_spacedAttribute (by simp [hfits]) inView_spacedAttribute ?_
  refine Construct.inView_seq_cons (extends_valued .xml) (Construct.fits_seq (by simp [hfits]))
    ((atStartTags_valued .xml).inView apart_skip)
    (Construct.inView_seq_singleton (Construct.inView_firstOf ?_))
  simp only [List.forall_mem_cons]
  exact ⟨inView_mark ">", inView_mark "/>", List.forall_mem_nil _⟩

/-- A declaration has pseudo-attributes, but opens no start tag. Behind a bracket that does, every
attribute has its value. -/
theorem hasValue_of_scan {source text : List Char} {before between after : List (Piece Kind)}
    (h : scan source = before ++ .token .symPunc "<".toList ::
      (between ++ .token .markupAttr text :: after)) (htext : text ≠ []) :
    HasValue .xml after (source.drop (width (scan source))) := by
  obtain ⟨prolog, hprolog, hscan⟩ := scan_eq source
  have hdeclaration : (Construct.optional declaration).Shows fun es ↦
      ∀ entry ∈ es, entry ≠ startMark := by
    refine Construct.shows_optional (composes_forall _)
      (shows_declaration (composes_forall _) ?_ ?_)
    · intro kind text hkind
      exact List.forall_mem_singleton.2 fun heq ↦ hkind (Prod.mk.inj heq).1
    · exact List.forall_mem_singleton.2 (by decide)
  have hitem := inView_item (atStartTags_valued .xml) inView_startTag_valued
  have hitems := Construct.inView_many (extends_valued .xml) fits_item hitem
    (source.drop (width prolog)) _ rfl
  rw [hscan] at h
  rcases append_eq_append_cons h with ⟨back, rfl, -⟩ | ⟨front, -, hfront⟩
  · have hmem : startMark ∈ labelled (before ++ .token .symPunc "<".toList :: back) :=
      Piece.mem_labelled.2 ⟨by simp, by simp⟩
    exact absurd rfl (hdeclaration _ _ hprolog _ hmem)
  · rw [hscan, Piece.width_append, ← List.drop_drop]
    refine hitems (front ++ .token .symPunc "<".toList :: between) .markupAttr text after ?_ htext
      rfl
    rw [hfront, List.append_assoc, List.cons_append]

end Xml

/-! ## Values among the tokens -/

namespace Markup

/-- Behind the byte at which the name of an attribute ends there is no value, or the tokens behind
it begin with those of the value. -/
def SplitsValue (language : Language) (source : List Char) (stop : Nat) (after : List Token) :
    Prop :=
  ∃ front behind, source = front ++ behind ∧ Text.byteLength front = stop ∧
    (NoValue language behind ∨
      ∃ sign value rest parts others, behind = sign ++ (value ++ rest) ∧
        EqualsSign language sign ∧ Value language value rest ∧ after = parts ++ others ∧
        SplitAtReferences language value (stop + Text.byteLength sign) parts ∧
        ∀ token ∈ others, stop + Text.byteLength (sign ++ value) ≤ token.begin)

/-- A value is split at its references wherever the tag stands. -/
theorem HasValue.splits {after : List (Piece Kind)} {rest : List Char}
    (h : HasValue language after rest) (front : List Char) :
    SplitsValue language (front ++ (textOf after ++ rest)) (Text.byteLength front)
      (tokens (Text.byteLength front) after) := by
  refine ⟨front, textOf after ++ rest, rfl, rfl, ?_⟩
  rcases h with hnone | ⟨sign, parts, others, rfl, hsign, hequals, hvalue, hparts⟩
  · exact .inl hnone
  · let stop := Text.byteLength front + Text.byteLength (textOf sign)
    refine .inr ⟨textOf sign, textOf parts, textOf others ++ rest, tokens stop parts,
      tokens (stop + Text.byteLength (textOf parts)) others, by simp, hequals, hvalue, ?_,
      hparts.split stop, ?_⟩
    · calc
        _ = tokens (Text.byteLength front) sign ++ tokens stop (parts ++ others) :=
          Piece.tokens_append _ _ _
        _ = tokens stop (parts ++ others) := by rw [Piece.tokens_eq_nil hsign, List.nil_append]
        _ = _ := Piece.tokens_append _ _ _
    · intro token htoken
      rw [Text.byteLength_append, ← Nat.add_assoc]
      exact (Piece.bounds_of_mem_tokens htoken).1

end Markup

theorem hasValue_of_scan [Text.IdentifierClasses]
    {language : Language} (hlanguage : language ∈ [.xml, .html])
    {strict : Bool} {source text : List Char} {before between after : List (Piece Kind)}
    (h : language.scan strict source = before ++ .token .symPunc "<".toList ::
      (between ++ .token .markupAttr text :: after)) (htext : text ≠ []) :
    HasValue language after (source.drop (width (language.scan strict source))) := by
  simp only [List.mem_cons, List.not_mem_nil, or_false] at hlanguage
  rcases hlanguage with rfl | rfl
  · exact Xml.hasValue_of_scan h htext
  · refine Html.inView_scan source (before ++ .token .symPunc "<".toList :: between) .markupAttr
      text after ?_ htext rfl
    rw [List.append_assoc, List.cons_append]
    exact h

/-- Where an attribute of a start tag has a value, strings and escapes show it without a gap, none
of them is empty, and the escapes are the references in it. -/
theorem highlight_attributeValues [Text.IdentifierClasses]
    {language : Language} (hlanguage : language ∈ [.xml, .html])
    (strict : Bool) (source : List Char) (sink : Sink) :
    let tokens := (highlight language ⟨false, strict⟩ source sink).1.currentScan.toList
    ∀ before attr after name, tokens = before ++ attr :: after →
      InStartTag source name before → attr.kind = .markupAttr →
        SplitsValue language source attr.stop after := by
  intro tokens before attr after name htokens htag hkind
  have hplain : tokens = Piece.tokens 0 (language.scan strict source) :=
    currentScan_highlight_plain language strict source sink
  rw [hplain] at htokens
  have hsource := (language.fits_scan strict source).textOf_append_drop.symm
  obtain ⟨left, between, text, right, _, hscan, -, -, htext, -, hbegin, hlength, rfl⟩ :=
    exists_of_inStartTag hsource htokens htag
  rw [hkind] at hscan
  let front := textOf (left ++ .token .symPunc "<".toList :: (between ++ [.token .markupAttr text]))
  have hstop : Text.byteLength front = attr.stop := by
    rw [Token.stop, hbegin, hlength]
    simp [front, Piece.text, Nat.add_assoc]
  have hfront : front ++ textOf right = textOf (language.scan strict source) := by
    rw [hscan]
    simp [front]
  have hsplits := (hasValue_of_scan hlanguage hscan htext).splits front
  rwa [hstop, ← List.append_assoc, hfront, ← hsource] at hsplits

/-- Of two references side by side each is an escape, and no empty string stands between them. -/
theorem highlight_attributeValues_adjacent :
    let source := "<a b='&lt;&#38;'/>".toList
    let after : List Token := [⟨5, 1, .string⟩, ⟨6, 4, .escape⟩, ⟨10, 5, .escape⟩, ⟨15, 1, .string⟩,
      ⟨16, 2, .symPunc⟩]
    (highlight .xml ⟨false, true⟩ source .empty).1.currentScan.toList =
        [⟨0, 1, .symPunc⟩, ⟨1, 1, .markupTag⟩, ⟨3, 1, .markupAttr⟩] ++ after ∧
      SplitsValue .xml source 4 after := by
  intro source after
  have htokens : (highlight .xml ⟨false, true⟩ source .empty).1.currentScan.toList =
      [⟨0, 1, .symPunc⟩, ⟨1, 1, .markupTag⟩, ⟨3, 1, .markupAttr⟩] ++ after := by
    decide +kernel
  exact ⟨htokens, highlight_attributeValues (by decide) true source .empty
    [⟨0, 1, .symPunc⟩, ⟨1, 1, .markupTag⟩] ⟨3, 1, .markupAttr⟩ after ⟨1, 1, .markupTag⟩ htokens
    ⟨[], ⟨0, 1, .symPunc⟩, [], rfl, rfl, by decide +kernel, rfl, List.forall_mem_nil _⟩ rfl⟩

end Highlight
