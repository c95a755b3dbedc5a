import Highlight.Proofs.JavaScript.Placed
import Highlight.Proofs.Markup.References
import Highlight.Text.Unicode

/-!
# Elements up to their ends

An element is a tag that is complete in itself, or a tag that opens it, its children and a tag that
closes it, where children may be elements again. The loop over the children does not know of this
nesting and only counts how many elements are open. It passes over the children of an element
without coming below the count at which it met them, so it ends with the tag that closes the
outermost element, whatever stands behind that. Between tags and code it shows the character
references and nothing else.
-/

namespace Highlight.JavaScript

open Piece (textOf tokens lasting width)

/-- What an element is made of, from left to right. -/
inductive Span where
  | tag (parts : List (Piece TagPart))
  /-- Code in curly brackets, brackets included. -/
  | code (s : List Char)
  | text (s : List Char)
  | ampersand

def Span.source : Span → List Char
  | .tag parts => textOf parts
  | .code s => s
  | .text s => s
  | .ampersand => ['&']

def source (spans : List Span) : List Char := spans.flatMap Span.source

theorem source_cons (span : Span) (spans : List Span) :
    source (span :: spans) = span.source ++ source spans := rfl

theorem source_append (front back : List Span) :
    source (front ++ back) = source front ++ source back :=
  List.flatMap_append

section

variable [Text.IdentifierClasses]

/-- The parts of a tag that is all of its text. -/
def Whole (kind : TagKind) (parts : List (Piece TagPart)) : Prop :=
  tag? (textOf parts) = some (kind, parts)

mutual

inductive Element : List Span → Prop
  | single {parts : List (Piece TagPart)} : Whole .selfClosing parts → Element [.tag parts]
  | pair {kind other : TagKind} {first last : List (Piece TagPart)} {children : List Span} :
      kind.opens → Whole kind first → Children children → other.closes → Whole other last →
      Element (.tag first :: (children ++ [.tag last]))

inductive Children : List Span → Prop
  | nil : Children []
  | text {s : List Char} {spans : List Span} : s ≠ [] → (∀ c ∈ s, endsText c = false) →
      Children spans → Children (.text s :: spans)
  | ampersand {spans : List Span} : Children spans → Children (.ampersand :: spans)
  | code {s : List Char} {spans : List Span} : s ≠ [] → bracedLength s = s.length →
      Children spans → Children (.code s :: spans)
  | element {e spans : List Span} : Element e → Children spans → Children (e ++ spans)

end

end

section

variable (embed : List Char → List (Piece Kind))

/-- What is shown of a span in front of `behind`. No reference begins in text, because an ampersand
is a span of its own. -/
def Span.shown (behind : List Char) (begin : Nat) : Span → List Token
  | .tag parts => tokens begin (showTag embed parts)
  | .code s => tokens begin (container embed s)
  | .text _ => []
  | .ampersand => Markup.referenceAt Html.referenceLength begin ('&' :: behind)

/-- What is shown of spans in front of `behind`. -/
def shownSpans (behind : List Char) (begin : Nat) : List Span → List Token
  | [] => []
  | span :: spans =>
    span.shown embed (source spans ++ behind) begin ++
      shownSpans behind (begin + Text.byteLength span.source) spans

theorem shownSpans_append (behind : List Char) (begin : Nat) (front back : List Span) :
    shownSpans embed behind begin (front ++ back) =
      shownSpans embed (source back ++ behind) begin front ++
        shownSpans embed behind (begin + Text.byteLength (source front)) back := by
  induction front generalizing begin with
  | nil => rfl
  | cons span front ih =>
    rw [List.cons_append, shownSpans, shownSpans, ih, source_append, source_cons,
      Text.byteLength_append, List.append_assoc, List.append_assoc, Nat.add_assoc]

end

theorem endsText_eq_false {p : Char → Bool} (hp : ['\x7b', '<', '&'].any p = false) {c : Char}
    (hc : p c) : endsText c = false := by
  rw [Bool.eq_false_iff]
  intro hends
  have hmem : c ∈ ['\x7b', '<', '&'] := by simpa [endsText, or_assoc] using hends
  exact List.any_eq_false.1 hp c hmem hc

/-- A reference is an ampersand and text behind it. -/
theorem exists_reference {s : List Char} (h : Html.referenceLength s ≠ 0) :
    ∃ inner v, s = '&' :: (inner ++ v) ∧ Html.referenceLength s = inner.length + 1 ∧
      ∀ c ∈ inner, endsText c = false := by
  have hmarks : ∀ mark ∈ ["&#x", "&#X"], mark.toList.length = 3 ∧
      ∃ front, mark.toList = '&' :: front ∧ ∀ c ∈ front, !endsText c := by
    refine List.forall_mem_cons.2 ⟨⟨rfl, ['#', 'x'], rfl, by simp [endsText]⟩, ?_⟩
    exact List.forall_mem_singleton.2 ⟨rfl, ['#', 'X'], rfl, by simp [endsText]⟩
  have hclass {p : Char → Bool} (hp : ['\x7b', '<', '&'].any p = false) (c : Char) (hc : p c) :
      !endsText c := by
    rw [endsText_eq_false hp hc]
    rfl
  obtain ⟨inner, v, hs, hlength, hinner⟩ :=
    Reference.exists_cons_of_length hmarks (by decide) (hclass rfl)
      (fun _ c hc ↦ hclass rfl c (Text.forall_mem_take_spanLength c hc))
      (fun _ ↦ Text.spanLength_le _ _) h
  exact ⟨inner, v, hs, hlength, by simpa using hinner⟩

theorem showTag_lasting {embed : List Char → List (Piece Kind)} (ps : List (Piece TagPart)) :
    showTag embed (lasting ps) = showTag embed ps := by
  induction ps with
  | nil => rfl
  | cons piece ps ih =>
    have hcons (qs : List (Piece TagPart)) :
        showTag embed (piece :: qs) = showPart embed piece ++ showTag embed qs := rfl
    cases piece with
    | gap text => rw [Piece.lasting_gap, hcons, hcons, ih]
    | token label text => rw [Piece.lasting_token, hcons, hcons, ih]
    | withdrawn reported => rw [Piece.lasting_withdrawn, ih, hcons, showPart, List.nil_append]

section

variable [Text.IdentifierClasses]

theorem exists_cons_of_tag? {s : List Char} {kind : TagKind} {parts : List (Piece TagPart)}
    (h : tag? s = some (kind, parts)) : ∃ v, textOf parts = '<' :: v := by
  have hform := isTag_of_tag? h
  rw [← Piece.textOf_lasting]
  generalize lasting parts = ps at hform
  cases hform with
  | opened | closing => exact ⟨_, rfl⟩

/-- A tag is shown the same way in front of any text. -/
theorem Whole.tag?_append {kind : TagKind} {parts : List (Piece TagPart)} (h : Whole kind parts)
    (r : List Char) : ∃ again, tag? (textOf parts ++ r) = some (kind, again) ∧
      width again = (textOf parts).length ∧
      ∀ embed : List Char → List (Piece Kind), showTag embed again = showTag embed parts := by
  obtain ⟨again, hagain, hlasting⟩ := tag?_cut_append h r
  refine ⟨again, hagain, ?_, fun embed ↦ ?_⟩
  · rw [← Piece.length_textOf, ← Piece.textOf_lasting, hlasting, Piece.textOf_lasting]
  · rw [← showTag_lasting again, hlasting, showTag_lasting]

section

variable {embed : List Char → List (Piece Kind)} {d d' d'' : Nat} {s s' r : List Char}
  {shown shown' : Nat → List Token}

/-- With `d` elements open the loop passes over `s` in front of `r` and shows `shown`, which is told
where `s` begins. Then `d'` elements are open. -/
structure Passes (embed : List Char → List (Piece Kind)) (d : Nat) (s : List Char) (d' : Nat)
    (r : List Char) (shown : Nat → List Token) : Prop where
  textOf_eq : textOf (run (child embed) d (s ++ r)) = s ++ textOf (run (child embed) d' r)
  tokens_eq : ∀ begin, tokens begin (run (child embed) d (s ++ r)) =
    shown begin ++ tokens (begin + Text.byteLength s) (run (child embed) d' r)

theorem Passes.nil (embed : List Char → List (Piece Kind)) (d : Nat) (r : List Char) :
    Passes embed d [] d r fun _ ↦ [] :=
  ⟨rfl, fun _ ↦ rfl⟩

theorem Passes.append (h : Passes embed d s d' (s' ++ r) shown)
    (h' : Passes embed d' s' d'' r shown') :
    Passes embed d (s ++ s') d'' r
      fun begin ↦ shown begin ++ shown' (begin + Text.byteLength s) where
  textOf_eq := by rw [List.append_assoc, h.textOf_eq, h'.textOf_eq, List.append_assoc]
  tokens_eq begin := by
    rw [List.append_assoc, h.tokens_eq, h'.tokens_eq, Text.byteLength_append, List.append_assoc,
      Nat.add_assoc]

/-- Where text that shows nothing is passed over behind something, that may be passed over alone. -/
theorem Passes.cut (h : Passes embed d (s ++ s') d' r shown)
    (h' : Passes embed d' s' d' r fun _ ↦ []) : Passes embed d s d' (s' ++ r) shown where
  textOf_eq := by rw [← List.append_assoc, h.textOf_eq, h'.textOf_eq, List.append_assoc]
  tokens_eq begin := by
    rw [← List.append_assoc, h.tokens_eq, h'.tokens_eq, Text.byteLength_append, List.nil_append,
      Nat.add_assoc]

/-- What a child takes is passed over. -/
theorem passes_of_child {ps : List (Piece Kind)} (h : child embed d (s ++ r) = some (ps, d'))
    (hs : s ≠ []) (hps : textOf ps = s) : Passes embed d s d' r (tokens · ps) := by
  have hwidth : width ps = s.length := by rw [← Piece.length_textOf, hps]
  have hne : width ps ≠ 0 := by
    rw [hwidth]
    exact Nat.ne_of_gt (List.length_pos_iff.2 hs)
  have hrun : run (child embed) d (s ++ r) = ps ++ run (child embed) d' r := by
    rw [run_of_some h (List.append_ne_nil_of_left_ne_nil hs r) hne, hwidth, List.drop_left]
  constructor
  · rw [hrun, Piece.textOf_append, hps]
  · intro begin
    rw [hrun, Piece.tokens_append, hps]

variable (hd : d ≠ 0)

include hd

theorem child_text {c : Char} (hc : endsText c = false) (t : List Char) :
    child embed d (c :: t) = some (Piece.hidden ((c :: t).takeWhile (!endsText ·)), d) := by
  have hends : c ≠ '\x7b' ∧ c ≠ '<' ∧ c ≠ '&' := by simpa [endsText, and_assoc] using hc
  obtain ⟨hbrace, hangle, hand⟩ := hends
  rw [child, if_neg hd, Text.startsWith_cons_eq_false rfl hbrace,
    Text.startsWith_cons_eq_false rfl hangle, Text.startsWith_cons_eq_false rfl hand]
  rfl

/-- Text is passed over at once up to where something else may begin. -/
theorem passes_stretch {v : List Char} (hs : ∀ c ∈ s, endsText c = false)
    (hv : Text.startsIn (!endsText ·) v = false) : Passes embed d s d v fun _ ↦ [] := by
  cases s with
  | nil => exact Passes.nil embed d v
  | cons c s =>
    have hlength : Text.spanLength (!endsText ·) (c :: s ++ v) = (c :: s).length :=
      Text.spanLength_append_iff.2 ⟨fun e he ↦ by rw [hs e he]; rfl, hv⟩
    have htake : (c :: s ++ v).takeWhile (!endsText ·) = c :: s := by
      rw [← Text.take_spanLength, hlength, List.take_left]
    have hstep : child embed d (c :: s ++ v) = some (Piece.hidden (c :: s), d) := by
      rw [List.cons_append, child_text hd (hs c List.mem_cons_self), ← List.cons_append, htake]
    exact passes_of_child hstep (List.cons_ne_nil _ _) (Piece.textOf_hidden _)

/-- Text may as well be passed over character by character. -/
theorem passes_plain {c : Char} (hc : endsText c = false) (r : List Char) :
    Passes embed d [c] d r fun _ ↦ [] := by
  obtain ⟨u, v, rfl, hu, hv⟩ := Text.exists_run (!endsText ·) r
  have hplain : ∀ e ∈ u, endsText e = false := fun e he ↦ by simpa using hu e he
  have hwhole : Passes embed d ([c] ++ u) d v fun _ ↦ [] :=
    passes_stretch hd (List.forall_mem_cons.2 ⟨hc, hplain⟩) hv
  exact hwhole.cut (passes_stretch hd hplain hv)

theorem passes_text (hs : ∀ c ∈ s, endsText c = false) (r : List Char) :
    Passes embed d s d r fun _ ↦ [] := by
  induction s with
  | nil => exact Passes.nil embed d r
  | cons c s ih =>
    obtain ⟨hc, hs⟩ := List.forall_mem_cons.1 hs
    exact (passes_plain hd hc (s ++ r)).append (ih hs)

/-- An ampersand is passed over by itself. Where a reference begins with it, that is shown, and the
rest of the reference is text, so it makes no difference that it is passed over at once. -/
theorem passes_ampersand (r : List Char) :
    Passes embed d ['&'] d r fun begin ↦
      Markup.referenceAt Html.referenceLength begin ('&' :: r) := by
  have hchild : child embed d ('&' :: r) =
      if Html.referenceLength ('&' :: r) = 0 then some ([.gap ['&']], d)
      else some ([.token .escape (('&' :: r).take (Html.referenceLength ('&' :: r)))], d) := by
    rw [child, if_neg hd, Text.startsWith_cons_eq_false rfl (by decide),
      Text.startsWith_cons_eq_false rfl (by decide)]
    rfl
  by_cases hn : Html.referenceLength ('&' :: r) = 0
  · rw [if_pos hn] at hchild
    have hstep : child embed d (['&'] ++ r) = some ([.gap ['&']], d) := hchild
    have hpasses := passes_of_child hstep (List.cons_ne_nil _ _) rfl
    simpa [Markup.referenceAt, hn] using hpasses
  · rw [if_neg hn] at hchild
    obtain ⟨inner, v, hsplit, hlength, hinner⟩ := exists_reference hn
    obtain rfl : r = inner ++ v := (List.cons.inj hsplit).2
    have htake : ('&' :: (inner ++ v)).take (Html.referenceLength ('&' :: (inner ++ v))) =
        '&' :: inner := by
      rw [hlength, ← List.cons_append, ← List.length_cons, List.take_left]
    have hshown (begin : Nat) : tokens begin [.token .escape ('&' :: inner)] =
        Markup.referenceAt Html.referenceLength begin ('&' :: (inner ++ v)) := by
      rw [Markup.referenceAt, htake, if_neg hn]
      exact Markup.tokens_reference begin inner []
    rw [htake] at hchild
    have hstep : child embed d (['&'] ++ inner ++ v) = _ := hchild
    have hpasses := passes_of_child hstep (List.cons_ne_nil _ _) (textOf_single _)
    simp only [hshown] at hpasses
    exact hpasses.cut (passes_text hd hinner v)

/-! ## Code and tags -/

variable (hembed : ∀ s, Piece.Covers (embed s) s)

include hembed

theorem passes_code (hs : s ≠ []) (hlength : bracedLength s = s.length) (r : List Char) :
    Passes embed d s d r (tokens · (container embed s)) := by
  have hcode : Grammar.Code s := (bracedLength_append_iff (r := []) hs).1 (by simpa using hlength)
  have happend := hcode.bracedLength_append r
  have hchild : child embed d (s ++ r) = some (container embed s, d) := by
    obtain ⟨v, rfl⟩ := hcode.exists_cons
    have hbrace : Text.startsWith "\x7b" ('\x7b' :: v ++ r) = true := rfl
    rw [child, if_neg hd, if_pos hbrace]
    simp only
    rw [happend, if_neg (List.length_eq_zero_iff.not.2 hs), List.take_left]
  exact passes_of_child hchild hs (covers_container hembed s).textOf_eq

/-- A tag opens an element or closes one, or does neither. -/
theorem passes_tag {kind : TagKind} {parts : List (Piece TagPart)} (h : Whole kind parts)
    (r : List Char) :
    Passes embed d (textOf parts) (depthAfter kind d) r (tokens · (showTag embed parts)) := by
  obtain ⟨again, hagain, -, hshow⟩ := h.tag?_append r
  obtain ⟨v, hv⟩ := exists_cons_of_tag? h
  have hchild : child embed d (textOf parts ++ r) =
      some (showTag embed parts, depthAfter kind d) := by
    have hbrace : Text.startsWith "\x7b" (textOf parts ++ r) = false := by rw [hv]; rfl
    have hangle : Text.startsWith "<" (textOf parts ++ r) = true := by rw [hv]; rfl
    rw [child, if_neg hd, hbrace, if_neg Bool.false_ne_true, if_pos hangle, hagain, ← hshow]
  refine passes_of_child hchild ?_ (textOf_showTag hembed parts)
  rw [hv]
  exact List.cons_ne_nil _ _

end

end

theorem depthAfter_opens {kind : TagKind} (h : kind.opens) (d : Nat) :
    depthAfter kind d = d + 1 := by
  rw [depthAfter, if_pos h]

theorem depthAfter_closes {kind : TagKind} (h : kind.closes) (d : Nat) :
    depthAfter kind (d + 1) = d := by
  cases kind <;> first | rfl | exact absurd h (by decide)

section

variable {embed : List Char → List (Piece Kind)} (hembed : ∀ s, Piece.Covers (embed s) s)

include hembed

variable [Text.IdentifierClasses]

theorem passes_children_closing {kind : TagKind} {parts : List (Piece TagPart)}
    {spans : List Span} {d : Nat} (hcloses : kind.closes) (h : Whole kind parts)
    (hspans : ∀ r, Passes embed (d + 1) (source spans) (d + 1) r fun begin ↦
      shownSpans embed r begin spans) (r : List Char) :
    Passes embed (d + 1) (source (spans ++ [.tag parts])) d r fun begin ↦
      shownSpans embed r begin (spans ++ [.tag parts]) := by
  have hclosing := passes_tag (Nat.succ_ne_zero d) hembed h r
  rw [depthAfter_closes hcloses] at hclosing
  rw [source_append]
  simp only [shownSpans_append]
  exact (hspans _).append (hclosing.append (Passes.nil embed d r))

mutual

/-- The loop passes over an element inside another one. -/
theorem Element.passes : ∀ {spans : List Span}, Element spans → ∀ {d : Nat}, d ≠ 0 →
    ∀ r, Passes embed d (source spans) d r fun begin ↦ shownSpans embed r begin spans
  | _, .single hwhole, d, hd, r =>
    (passes_tag hd hembed hwhole r).append (Passes.nil embed d r)
  | _, .pair hopens hfirst hchildren hcloses hlast, d, hd, r => by
    have hopening := passes_tag hd hembed hfirst
    rw [depthAfter_opens hopens] at hopening
    have hbehind := passes_children_closing hembed hcloses hlast
      (hchildren.passes (Nat.succ_ne_zero d)) r
    exact (hopening _).append hbehind

/-- The loop passes over children and leaves as many elements open as it met. -/
theorem Children.passes : ∀ {spans : List Span}, Children spans → ∀ {d : Nat}, d ≠ 0 →
    ∀ r, Passes embed d (source spans) d r fun begin ↦ shownSpans embed r begin spans
  | _, .nil, d, _, r => Passes.nil embed d r
  | _, .text _ hs hrest, d, hd, r =>
    (passes_text hd hs _).append (hrest.passes hd r)
  | _, .ampersand hrest, d, hd, r =>
    (passes_ampersand hd _).append (hrest.passes hd r)
  | _, .code hs hlength hrest, d, hd, r =>
    (passes_code hd hembed hs hlength _).append (hrest.passes hd r)
  | _, @Children.element _ e spans helement hrest, d, hd, r => by
    rw [source_append]
    simp only [shownSpans_append]
    exact (helement.passes hd _).append (hrest.passes hd r)

end

/-- An element is read up to its end whatever follows. -/
theorem exists_element {spans : List Span} (h : Element spans) (t : List Char) :
    ∃ pieces, element embed (source spans ++ t) = some pieces ∧ textOf pieces = source spans ∧
      ∀ begin, tokens begin pieces = shownSpans embed t begin spans := by
  cases h with
  | @single parts hwhole =>
    obtain ⟨again, hagain, -, hshow⟩ := hwhole.tag?_append t
    have hsource : source [.tag parts] = textOf parts := List.append_nil _
    refine ⟨showTag embed parts, ?_, ?_, fun begin ↦ (List.append_nil _).symm⟩
    · rw [hsource]
      simp only [element, hagain, hshow]
      rfl
    · rw [hsource, textOf_showTag hembed]
  | @pair kind other first last children hopens hfirst hchildren hcloses hlast =>
    obtain ⟨again, hagain, hwidth, hshow⟩ :=
      hfirst.tag?_append (source (children ++ [.tag last]) ++ t)
    have hpasses := passes_children_closing hembed hcloses hlast (hchildren.passes hembed
      Nat.one_ne_zero) t
    have hend : run (child embed) 0 t = [] := by
      cases t with
      | nil => exact run_nil _ _
      | cons c t => rw [run_cons]; rfl
    refine ⟨showTag embed first ++ run (child embed) 1 (source (children ++ [.tag last]) ++ t),
      ?_, ?_, fun begin ↦ ?_⟩
    · have hcloses' : kind.closes = false := by
        cases kind <;> first | rfl | exact absurd hopens (by decide)
      have hsource : source (.tag first :: (children ++ [.tag last])) ++ t =
          textOf first ++ (source (children ++ [.tag last]) ++ t) := by
        rw [source_cons, List.append_assoc]
        rfl
      simp only [hsource, element, hagain, hwidth, hshow, hcloses', hopens, List.drop_left, if_true]
      rfl
    · rw [Piece.textOf_append, textOf_showTag hembed, hpasses.textOf_eq, hend, source_cons,
        Piece.textOf_nil, List.append_nil]
      rfl
    · rw [Piece.tokens_append, textOf_showTag hembed, hpasses.tokens_eq, hend, Piece.tokens_nil,
        List.append_nil]
      rfl

end

/-- Where an expression may stand in a script that is not strict, an element is read exactly up to
its end, whatever follows. What is shown is its tags, its code, and between these the character
references that begin there. -/
theorem element_exact [Text.IdentifierClasses]
    {spans : List Span} (h : Element spans) (t : List Char) (levels : Nat) :
    ∃ pieces,
      Construct.onlyIf (true && !false) (element (scanLevels false levels)) (source spans ++ t) =
        some pieces ∧
      textOf pieces = source spans ∧
      (∀ cursor : Cursor,
        (cursor.read pieces).index = cursor.index + Text.byteLength (source spans)) ∧
      ∀ begin, tokens begin pieces = shownSpans (scanLevels false levels) t begin spans := by
  obtain ⟨pieces, hread, htext, hshown⟩ :=
    exists_element (covers_scanLevels false levels) h t
  refine ⟨pieces, Construct.onlyIf_eq_some.2 ⟨rfl, hread⟩, htext, fun cursor ↦ ?_, hshown⟩
  rw [Cursor.index_read, htext]

/-- The element `<a>&amp;<a></a></a>` ends with its second closing tag, also where the beginning of
a reference stands behind it. -/
theorem element_exact_nested :
    ∃ pieces, Construct.onlyIf (true && !false) (element (scanLevels false 0))
        ("<a>&amp;<a></a></a>".toList ++ "&amp".toList) = some pieces ∧
      textOf pieces = "<a>&amp;<a></a></a>".toList ∧
      tokens 0 pieces = [⟨0, 1, .symPunc⟩, ⟨1, 1, .markupTag⟩, ⟨2, 1, .symPunc⟩, ⟨3, 5, .escape⟩,
        ⟨8, 1, .symPunc⟩, ⟨9, 1, .markupTag⟩, ⟨10, 1, .symPunc⟩, ⟨11, 2, .symPunc⟩,
        ⟨13, 1, .markupTag⟩, ⟨14, 1, .symPunc⟩, ⟨15, 2, .symPunc⟩, ⟨17, 1, .markupTag⟩,
        ⟨18, 1, .symPunc⟩] := by
  have hfirst : Whole .opening
      [punctuation "<", .token .tagName "a".toList, punctuation ">"] := tag?_opening []
  have hlast : Whole .closing
      [punctuation "</", .token .tagName "a".toList, punctuation ">"] := tag?_closing []
  have hinner : Element _ := .pair rfl hfirst .nil rfl hlast
  have hchildren : Children _ :=
    .ampersand (.text (List.cons_ne_nil 'a' "mp;".toList) (by simp [endsText])
      (.element hinner .nil))
  have helement : Element _ := .pair rfl hfirst hchildren rfl hlast
  obtain ⟨pieces, hread, htext, -, hshown⟩ := element_exact helement "&amp".toList 0
  have htokens := hshown 0
  generalize hs : source _ = s at hread htext
  obtain rfl : s = "<a>&amp;<a></a></a>".toList := hs.symm
  exact ⟨pieces, hread, htext, htokens⟩

end Highlight.JavaScript
