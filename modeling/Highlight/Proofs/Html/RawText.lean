import Highlight.Proofs.Markup.References
import Highlight.Proofs.Markup.StartTag
import Mathlib.Order.Bounds.Defs
import Highlight.Text.Unicode

/-!
# Raw text in its element

The content of some elements is not markup. It goes on to the first place where the end tag of its
element begins, and from there on the document is read as if it began there. Up to there nothing is
shown but the character references of those elements that have them.
-/

namespace Highlight

open Markup
open Piece (labelled textOf tokens width)

namespace Html

variable {source s : List Char} {ps before between after : List (Piece Kind)}

/-- An end tag for the name begins here, in capitals or not. -/
def BeginsEndTag (tag s : List Char) : Prop :=
  ∃ name behind, s = "</".toList ++ (name ++ behind) ∧
    name.map Char.toLower = tag.map Char.toLower ∧
    (behind = [] ∨ Text.startsIn (fun c ↦ isSpace c || c == '/' || c == '>') behind)

/-- The bytes from `begin` on at which raw text may end: those where an end tag begins, and the end
of the source. -/
def rawTextEnds (tag source : List Char) (begin : Nat) : Set Nat :=
  {n | begin ≤ n ∧ (n = Text.byteLength source ∨
    ∃ front rest, source = front ++ rest ∧ n = Text.byteLength front ∧ BeginsEndTag tag rest)}

/-- An end tag of the element is one whose name ends where that of the element does. -/
theorem closesElement_iff {tag : List Char} : closesElement tag s ↔ BeginsEndTag tag s := by
  unfold closesElement
  constructor
  · intro h
    cases hafter : Text.after? "</" s with
    | none => simp [hafter] at h
    | some rest =>
      simp only [hafter, Bool.and_eq_true, Bool.or_eq_true, List.isEmpty_iff] at h
      refine ⟨rest.take tag.length, rest.drop tag.length, ?_, beq_iff_eq.1 h.1, h.2⟩
      rw [List.take_append_drop]
      exact Text.after?_eq_some.1 hafter
  · rintro ⟨name, behind, rfl, hname, hbehind⟩
    have hlength : tag.length = name.length := by
      simpa using (congrArg List.length hname).symm
    have hafter : Text.after? "</" ("</".toList ++ (name ++ behind)) = some (name ++ behind) :=
      Text.after?_eq_some.2 rfl
    simp only [hafter, hlength, List.take_left, List.drop_left, Bool.and_eq_true, Bool.or_eq_true,
      List.isEmpty_iff]
    exact ⟨beq_iff_eq.2 hname, hbehind⟩

/-- What is measured of raw text reaches to the first place where its element ends. -/
theorem rawTextLength_spec (tag s : List Char) :
    (rawTextLength tag s = s.length ∨ BeginsEndTag tag (s.drop (rawTextLength tag s))) ∧
      ∀ u v, s = u ++ v → BeginsEndTag tag v → rawTextLength tag s ≤ u.length := by
  unfold rawTextLength
  cases hfind : Text.find? (closesElement tag) s with
  | none =>
    refine ⟨.inl rfl, ?_⟩
    rintro u v rfl hv
    have hnone := Text.find?_eq_none_iff.1 hfind u.length (by simp)
    rw [List.drop_left, closesElement_iff.2 hv] at hnone
    exact absurd hnone (by decide)
  | some n =>
    obtain ⟨-, hhere, hbefore⟩ := Text.find?_eq_some_iff.1 hfind
    refine ⟨.inr (closesElement_iff.1 hhere), ?_⟩
    rintro u v rfl hv
    by_contra hlt
    have hnot := hbefore u.length (Nat.lt_of_not_le hlt)
    rw [List.drop_left, closesElement_iff.2 hv] at hnot
    exact absurd hnot (by decide)

/-- Raw text ends at the first byte at which it may. -/
theorem isLeast_rawTextEnds (front : List Char) {text rest tag : List Char}
    (hlength : text.length = rawTextLength tag (text ++ rest)) :
    IsLeast (rawTextEnds tag (front ++ (text ++ rest)) (Text.byteLength front))
      (Text.byteLength front + Text.byteLength text) := by
  obtain ⟨hends, hfirst⟩ := rawTextLength_spec tag (text ++ rest)
  rw [← hlength] at hends hfirst
  refine ⟨⟨Nat.le_add_right _ _, ?_⟩, ?_⟩
  · rcases hends with hall | htag
    · obtain rfl : rest = [] := by simpa using hall
      exact .inl (by simp)
    · rw [List.drop_left] at htag
      exact .inr ⟨front ++ text, rest, by simp, by simp, htag⟩
  · rintro n ⟨hn, rfl | ⟨before, behind, hsplit, rfl, htag⟩⟩
    · simp only [Text.byteLength_append]
      omega
    · -- The other place stands behind the front, so what is between them is a part of the rest.
      obtain ⟨u, rfl, hu⟩ : ∃ u, before = front ++ u ∧ text ++ rest = u ++ behind := by
        rcases List.append_eq_append_iff.1 hsplit with hbehind | ⟨u, rfl, hu⟩
        · exact hbehind
        · have hempty : Text.byteLength u = 0 := by
            rw [Text.byteLength_append] at hn
            omega
          obtain rfl := Text.byteLength_eq_zero.1 hempty
          exact ⟨[], by simp, hu.symm⟩
      have hle := hfirst u behind hu htag
      have hprefix : text <+: u := List.prefix_of_prefix_length_le (List.prefix_append text rest)
        (hu ▸ List.prefix_append u behind) hle
      obtain ⟨more, rfl⟩ := hprefix
      simp only [Text.byteLength_append]
      omega

theorem kind_ne_of_tagPart : tagPart.many.Shows fun es ↦ ∀ entry ∈ es, entry.1 ≠ .symPunc := by
  refine (Construct.shows_many (composes_madeOf _) shows_tagPart).mono ?_
  rintro _ ⟨attributes, hattributes, rfl⟩ entry hentry
  obtain ⟨es, hes, hmem⟩ := List.mem_flatten.1 hentry
  exact (hattributes es hes).kind_ne entry hmem

/-- The parts of a start tag: its bracket, its name, what is inside and its end, with which it takes
its raw text. -/
theorem exists_of_startTag (h : startTag s = some ps) :
    ∃ name inside ends, ps = .token .symPunc "<".toList :: .token .markupTag name ::
        (inside ++ ends) ∧ name ≠ [] ∧ (∀ entry ∈ labelled inside, entry.1 ≠ .symPunc) ∧
      tagEnd name (textOf ends ++ s.drop (width ps)) = some ends := by
  obtain ⟨bracket, qs, hbracket, hqs, rfl⟩ := Construct.seq_cons_eq_some.1 h
  obtain ⟨⟨t, rfl⟩, rfl⟩ := Construct.literal_eq_some.1 hbracket
  obtain ⟨label, rs, hlabel, hrs, rfl⟩ := Construct.seq_cons_eq_some.1 hqs
  obtain ⟨hlength, rfl⟩ := Construct.measured_eq_some.1 hlabel
  obtain ⟨inside, us, hinside, hus, rfl⟩ := Construct.seq_cons_eq_some.1 hrs
  obtain ⟨ends, nothing, hends, hnothing, rfl⟩ := Construct.seq_cons_eq_some.1 hus
  obtain rfl := Construct.seq_nil_eq_some.1 hnothing
  rw [List.append_nil]
  refine ⟨_, inside, ends, rfl, ?_, kind_ne_of_tagPart _ _ hinside, ?_⟩
  · intro hnil
    rcases List.take_eq_nil_iff.1 hnil with hzero | hzero
    · exact hlength hzero
    · rw [hzero] at hlength
      exact hlength rfl
  · have hrest := ((fits_tagEnd _).read _ ends hends).textOf_append_drop
    simp only [Piece.width_append, ← List.drop_drop]
    rw [hrest]
    exact hends

def openedTag : View Kind := fun kind text after rest ↦ (kind, text) = startMark →
  ∃ name inside ends, after = .token .markupTag name :: (inside ++ ends) ∧ name ≠ [] ∧
    (∀ entry ∈ labelled inside, entry.1 ≠ .symPunc) ∧ tagEnd name (textOf ends ++ rest) = some ends

theorem atStartTags_openedTag : AtStartTags openedTag :=
  fun _ hquiet _ _ hmark ↦ absurd hmark hquiet.2

/-- Behind the bracket of a start tag are its name, what stands inside it, and the end for that
name. -/
theorem inView_startTag : startTag.InView openedTag := by
  intro s ps h before label text after hsplit htext hmark
  obtain ⟨name, inside, ends, rfl, hname, hinside, hends⟩ := exists_of_startTag h
  cases before with
  | nil =>
    obtain ⟨-, rfl⟩ := List.cons.inj hsplit
    exact ⟨name, inside, ends, rfl, hname, hinside, hends⟩
  | cons first before =>
    -- Behind its own bracket a start tag shows no other one.
    have hmem : startMark ∈ labelled (.token .markupTag name :: (inside ++ ends)) := by
      rw [(List.cons.inj hsplit).2, ← hmark]
      exact Piece.mem_labelled.2 ⟨by simp, htext⟩
    rw [Piece.labelled_token, if_neg hname, Piece.labelled_append, List.singleton_append,
      List.mem_cons, List.mem_append] at hmem
    rcases hmem with hlabel | hmem | hmem
    · simp [startMark] at hlabel
    · exact absurd rfl (hinside _ hmem)
    · exact absurd rfl (apart_tagEnd name _ _ hends _ hmem).2

/-- Behind the bracket that ends a start tag stands the raw text of the element. -/
theorem exists_of_tagEnd {name : List Char} (h : tagEnd name s = some ps) :
    ∃ mark others, ps = .token .symPunc mark :: others ∧ mark ≠ [] ∧
      (mark = ">".toList → ∀ content, textContent? name = some content →
        others = rawText content ((s.drop 1).take (rawTextLength name (s.drop 1)))) := by
  unfold tagEnd at h
  simp only at h
  split_ifs at h
  · split at h
    · next content hcontent =>
      obtain rfl := Option.some.inj h
      refine ⟨['>'], _, rfl, by decide, fun _ other hother ↦ ?_⟩
      rw [hcontent, Option.some.injEq] at hother
      rw [hother]
    · next hnone =>
      obtain rfl := Option.some.inj h
      refine ⟨['>'], [], rfl, by decide, fun _ other hother ↦ ?_⟩
      rw [hnone] at hother
      exact absurd hother (Option.some_ne_none other).symm
  · obtain ⟨-, rfl⟩ := Construct.literal_eq_some.1 h
    exact ⟨_, [], rfl, by decide, (absurd · (by decide))⟩

/-- Behind the bracket of a start tag stand the rest of the tag, its raw text if it has any, and
then what is read from there on. -/
theorem exists_of_scan (h : scan source = before ++ .token .symPunc "<".toList :: after) :
    ∃ name inside mark others rest, name ≠ [] ∧ mark ≠ [] ∧
      after = (.token .markupTag name :: inside) ++ .token .symPunc mark :: (others ++ scan rest) ∧
      (∀ entry ∈ labelled inside, entry.1 ≠ .symPunc) ∧
      (mark = ">".toList → ∀ content, textContent? name = some content →
        ∃ text, others = rawText content text ∧
          text.length = rawTextLength name (text ++ rest)) := by
  obtain ⟨items, _, start, ps, _, front, back, -, -, hturn, rfl, -, hafter⟩ :=
    exists_turn (fun _ t ps _ _ hturn ↦ advances_item t ps (Construct.read_of_turn hturn)) h
  obtain ⟨name, inside, ends, rfl, hname, hinside, hends⟩ :=
    inView_item atStartTags_openedTag inView_startTag _ _ (Construct.read_of_turn hturn) front _ _
      back rfl (by decide) rfl
  generalize start.drop (width _) = rest at hafter hends
  obtain ⟨mark, others, rfl, hmark, hothers⟩ := exists_of_tagEnd hends
  refine ⟨name, inside, mark, others, rest, hname, hmark, ?_, hinside, ?_⟩
  · rw [hafter]
    simp only [List.cons_append, List.append_assoc]
    rfl
  · rintro rfl content hcontent
    have hread := hothers rfl content hcontent
    have hdrop : (textOf (.token .symPunc ">".toList :: others) ++ rest).drop 1 =
        textOf others ++ rest := rfl
    rw [hdrop] at hread
    generalize htext : (textOf others ++ rest).take _ = text at hread
    rw [hread, (covers_rawText content text).textOf_eq] at htext
    refine ⟨text, hread, ?_⟩
    have hlength := congrArg List.length htext
    rw [List.length_take, Nat.min_eq_left (rawTextLength_le _ _)] at hlength
    exact hlength.symm

/-- A start tag for which raw text is looked for takes that, and the document is read on behind
it. -/
theorem exists_rawText (hscan : scan source = before ++ .token .symPunc "<".toList ::
      (between ++ .token .symPunc ">".toList :: after))
    (hbetween : ∀ entry ∈ labelled between, entry.1 ≠ .symPunc) :
    ∃ name inside, between = .token .markupTag name :: inside ∧ name ≠ [] ∧
      ∀ content, textContent? name = some content →
        ∃ text rest, after = rawText content text ++ scan rest ∧
          text.length = rawTextLength name (text ++ rest) := by
  obtain ⟨name, inside, mark, others, rest, hname, hmark, hafter, hinside, hothers⟩ :=
    exists_of_scan hscan
  have hmem (text : List Char) (front back : List (Piece Kind)) (htext : text ≠ []) :
      (.symPunc, text) ∈ labelled (front ++ .token .symPunc text :: back) :=
    Piece.mem_labelled.2 ⟨by simp, htext⟩
  -- Both brackets are the first punctuation behind the one that opens the tag.
  rcases append_eq_append_cons hafter.symm with ⟨back, hback, -⟩ | ⟨front, rfl, hfront⟩
  · have hentry := hmem ">".toList between back (by decide)
    rw [← hback, Piece.labelled_token, if_neg hname, List.singleton_append, List.mem_cons] at hentry
    rcases hentry with hlabel | hentry
    · simp at hlabel
    · exact absurd rfl (hinside _ hentry)
  · cases front with
    | nil =>
      obtain ⟨hlabel, rfl⟩ := List.cons.inj hfront
      obtain ⟨-, rfl⟩ := Piece.token.inj hlabel
      rw [List.append_nil]
      refine ⟨name, inside, rfl, hname, fun content hcontent ↦ ?_⟩
      obtain ⟨text, rfl, hlength⟩ := hothers rfl content hcontent
      exact ⟨text, rest, rfl, hlength⟩
    | cons first front =>
      obtain ⟨rfl, -⟩ := List.cons.inj hfront
      exact absurd rfl (hbetween _ (hmem mark _ front hmark))

def elementsWith : TextContent → List (List Char)
  | .raw => ["script", "style"].map String.toList
  | .escapable => ["textarea", "title"].map String.toList

theorem textContent?_eq_some {name : List Char} {content : TextContent}
    (h : name.map Char.toLower ∈ elementsWith content) : textContent? name = some content := by
  have hany (names : List String)
      (hlower : ∀ raw ∈ names, raw.toList.map Char.toLower = raw.toList) :
      (names.any fun raw ↦ Text.sameIgnoringCase raw.toList name) ↔
        name.map Char.toLower ∈ names.map String.toList := by
    rw [List.any_eq_true, List.mem_map]
    refine exists_congr fun raw ↦ and_congr_right fun hraw ↦ ?_
    rw [Text.sameIgnoringCase, hlower raw hraw, beq_iff_eq]
  have hraw := hany ["script", "style"] (by decide)
  have hescapable := hany ["textarea", "title"] (by decide)
  have hapart : ∀ element ∈ elementsWith .escapable, element ∉ elementsWith .raw := by decide
  unfold textContent?
  cases content with
  | raw => rw [if_pos (hraw.2 h)]
  | escapable => rw [if_neg (hraw.not.2 (hapart _ h)), if_pos (hescapable.2 h)]

/-- The references in a raw text that begins at byte `begin`, where they count. -/
def referencesIn (content : TextContent) (begin : Nat) (text : List Char) : List Token :=
  match content with
  | .raw => []
  | .escapable => referencesFrom referenceLength begin text

section

variable {rest : List (Piece Kind)}

theorem tokens_reference_append (h : reference s = some ps)
    (hrest : ∀ begin, tokens begin rest = referencesFrom referenceLength begin (s.drop (width ps)))
    (begin : Nat) : tokens begin (ps ++ rest) = referencesFrom referenceLength begin s := by
  obtain ⟨inner, behind, rfl, rfl, hwidth, hinner, hbehind⟩ :=
    measuresReferences.exists_of_measured h
  rw [hbehind] at hrest
  let reference : Token := ⟨begin, Text.byteLength ('&' :: inner), .escape⟩
  calc
    _ = reference :: tokens reference.stop rest := tokens_reference begin inner rest
    _ = reference :: referencesFrom referenceLength reference.stop behind := by rw [hrest]
    _ = referencesFrom referenceLength begin ('&' :: (inner ++ behind)) :=
      (measuresReferences.referencesFrom_reference hinner hwidth begin).symm

/-- Text is passed over up to the next ampersand behind its first character, so that no reference is
missed. -/
theorem tokens_plain_append (hnone : reference s = none)
    (h : (Construct.skipSome plainLength : Construct Kind) s = some ps)
    (hrest : ∀ begin, tokens begin rest = referencesFrom referenceLength begin (s.drop (width ps)))
    (begin : Nat) : tokens begin (ps ++ rest) = referencesFrom referenceLength begin s := by
  obtain ⟨hlength, rfl⟩ := Construct.skipSome_eq_some.1 h
  cases s with
  | nil => exact absurd rfl hlength
  | cons c s =>
    have hzero : referenceLength (c :: s) = 0 := by
      by_contra hne
      have hsome : (reference (c :: s)).isSome := Construct.isSome_measured hne
      rw [hnone] at hsome
      exact Bool.noConfusion hsome
    have hplain : '&' ∉ s.take (Text.spanLength (· != '&') s) := fun hmem ↦
      absurd (Text.forall_mem_take_spanLength '&' hmem) (by decide)
    have htake : (c :: s).take (plainLength (c :: s)) =
        c :: s.take (Text.spanLength (· != '&') s) := by
      rw [plainLength, Nat.add_comm, List.take_succ_cons]
    have hdrop : (c :: s).drop
        (width [(.gap (c :: s.take (Text.spanLength (· != '&') s)) : Piece Kind)]) =
        s.drop (Text.spanLength (· != '&') s) := by
      simp [Piece.text]
    have hsplit := List.take_append_drop (Text.spanLength (· != '&') s) s
    rw [htake, hdrop] at hrest
    rw [htake]
    generalize s.take _ = passed at hplain hrest hsplit ⊢
    generalize s.drop _ = behind at hrest hsplit
    calc
      _ = tokens (begin + Text.byteLength (c :: passed)) rest := Piece.tokens_gap _ _ _
      _ = referencesFrom referenceLength (begin + c.utf8Size + Text.byteLength passed) behind := by
        rw [hrest, Text.byteLength_cons, Nat.add_assoc]
      _ = referencesFrom referenceLength (begin + c.utf8Size) s := by
        rw [← measuresReferences.referencesFrom_append hplain, hsplit]
      _ = referencesFrom referenceLength begin (c :: s) := (referencesFrom_plain hzero begin).symm

end

theorem rawTextPart_eq (s : List Char) :
    rawTextPart s = (reference s).or (Construct.skipSome plainLength s) := by
  rw [rawTextPart, Construct.firstOf_cons_of_trail rfl, Construct.firstOf_cons_of_trail rfl]
  simp [Construct.firstOf, Construct.readFirst]

/-- Raw text shows its references and nothing else. -/
theorem tokens_rawText (content : TextContent) (begin : Nat) (text : List Char) :
    tokens begin (rawText content text) = referencesIn content begin text := by
  cases content with
  | raw => cases text <;> rfl
  | escapable =>
    refine Construct.repeated_induction (motive := fun s ps ↦ ∀ begin,
      tokens begin ps = referencesFrom referenceLength begin s) advances_rawTextPart
      fits_rawTextPart ?_ ?_ text begin
    · intro s hnone begin
      cases s with
      | nil => rfl
      | cons c s => exact absurd (isSome_rawTextPart c s) (by simp [hnone])
    · intro s ps hread hrest
      rw [rawTextPart_eq, Option.or_eq_some_iff] at hread
      rcases hread with hreference | ⟨hnone, hplain⟩
      · exact tokens_reference_append hreference hrest
      · exact tokens_plain_append hnone hplain hrest

/-! ## Tokens that begin in a stretch -/

/-- The tokens that begin in a stretch of the source. -/
def beginningIn (begin stop : Nat) (tokens : List Token) : List Token :=
  tokens.filter fun token ↦ begin ≤ token.begin ∧ token.begin < stop

section

variable (ps qs rs : List (Piece Kind))

theorem begin_lt_of_mem_tokens {begin : Nat} {token : Token} (h : token ∈ tokens begin ps) :
    token.begin < begin + Text.byteLength (textOf ps) := by
  have hpos := Piece.length_pos_of_mem_tokens h
  have hstop := (Piece.bounds_of_mem_tokens h).2
  rw [Token.stop] at hstop
  omega

/-- The tokens that begin in the stretch of some pieces are the tokens of these. -/
theorem beginningIn_tokens :
    let begin := Text.byteLength (textOf ps)
    beginningIn begin (begin + Text.byteLength (textOf qs)) (tokens 0 (ps ++ (qs ++ rs))) =
      tokens begin qs := by
  intro begin
  have hbefore : ∀ token ∈ tokens 0 ps, token.begin < begin := by
    intro token htoken
    have hlt := begin_lt_of_mem_tokens ps htoken
    rwa [Nat.zero_add] at hlt
  have hinside : ∀ token ∈ tokens begin qs,
      begin ≤ token.begin ∧ token.begin < begin + Text.byteLength (textOf qs) :=
    fun token htoken ↦
      ⟨(Piece.bounds_of_mem_tokens htoken).1, begin_lt_of_mem_tokens qs htoken⟩
  have hbehind : ∀ token ∈ tokens (begin + Text.byteLength (textOf qs)) rs,
      begin + Text.byteLength (textOf qs) ≤ token.begin :=
    fun token htoken ↦ (Piece.bounds_of_mem_tokens htoken).1
  rw [Piece.tokens_append, Piece.tokens_append, Nat.zero_add, beginningIn, List.filter_append,
    List.filter_append, List.filter_eq_nil_iff.2, List.filter_eq_self.2, List.filter_eq_nil_iff.2,
    List.nil_append, List.append_nil]
  · intro token htoken
    have hle := hbehind token htoken
    simp only [decide_eq_true_eq]
    omega
  · intro token htoken
    simpa using hinside token htoken
  · intro token htoken
    have hlt := hbefore token htoken
    simp only [decide_eq_true_eq]
    omega

theorem filter_tokens_behind :
    let begin := Text.byteLength (textOf ps)
    (tokens 0 (ps ++ rs)).filter (fun token ↦ begin ≤ token.begin) = tokens begin rs := by
  intro begin
  rw [Piece.tokens_append, Nat.zero_add, List.filter_append, List.filter_eq_nil_iff.2,
    List.filter_eq_self.2, List.nil_append]
  · intro token htoken
    simpa using (Piece.bounds_of_mem_tokens htoken).1
  · intro token htoken
    have hlt := begin_lt_of_mem_tokens ps htoken
    simp only [decide_eq_true_eq]
    omega

/-- Where no piece is shown, no token begins after merging either. -/
theorem beginningIn_merged [Text.IdentifierClasses] (strict : Bool) {text : List Char}
    (hscan : scan source = ps ++ (Piece.hidden text ++ rs)) :
    let begin := Text.byteLength (textOf ps)
    beginningIn begin (begin + Text.byteLength text)
      (Language.html.tokens { coalescing := true, strict } source) = [] := by
  intro begin
  have hplain : tokens 0 (scan source) =
      tokens 0 ps ++ tokens (begin + Text.byteLength text) rs := by
    rw [hscan, Piece.tokens_append, Piece.tokens_append, Piece.textOf_hidden, Nat.zero_add]
    cases text <;> rfl
  rw [beginningIn, List.filter_eq_nil_iff]
  intro token htoken hwithin
  rw [decide_eq_true_eq] at hwithin
  have hpos := ((Language.html.wellPlaced_tokens _ source).placed token htoken).length_pos
  have hcovers : token.covers token.begin := by
    rw [Token.covers_iff, Token.stop]
    omega
  -- The byte at which it begins is covered, so a token covers it that was not merged.
  have hany := List.any_eq_true.2 ⟨token, htoken, hcovers⟩
  rw [Language.any_tokens, List.any_eq_true] at hany
  obtain ⟨other, hother, hotherCovers⟩ := hany
  rw [Token.covers_iff] at hotherCovers
  change other ∈ tokens 0 (scan source) at hother
  rw [hplain, List.mem_append] at hother
  rcases hother with hother | hother
  · have hstop := (Piece.bounds_of_mem_tokens hother).2
    omega
  · have hbegin := (Piece.bounds_of_mem_tokens hother).1
    omega

end

/-! ## Elements with raw text -/

/-- Behind the start tag of an element with raw text stands that text, and then what is read from
there on. -/
theorem exists_of_closing {content : TextContent} {name closing : Token} {front right : List Token}
    (htokens : tokens 0 (scan source) = front ++ closing :: right)
    (htag : InStartTag source name front) (hclosing : closing.kind = .symPunc)
    (hbracket : closing.text source = ">".toList)
    (helement : (name.text source).map Char.toLower ∈ elementsWith content) :
    ∃ ps text rest, scan source = ps ++ (rawText content text ++ scan rest) ∧
      Text.byteLength (textOf ps) = closing.stop ∧
      text.length = rawTextLength (name.text source) (text ++ rest) := by
  have hsource : source = textOf (scan source) ++ [] := by
    rw [(covers_scan source).textOf_eq, List.append_nil]
  obtain ⟨before, between, bracket, after, others, hscan, hbetween, hothers, -, htext, hbegin,
    hlength, -⟩ := exists_of_inStartTag hsource htokens htag
  obtain rfl : bracket = ">".toList := htext.symm.trans hbracket
  rw [hclosing] at hscan
  have hkinds : ∀ entry ∈ labelled between, entry.1 ≠ .symPunc := by
    rw [hbetween]
    exact List.forall_mem_cons.2 ⟨by simp, hothers⟩
  obtain ⟨tag, inside, rfl, htag, hcontent⟩ := exists_rawText hscan hkinds
  rw [Piece.labelled_token, if_neg htag, List.singleton_append] at hbetween
  obtain rfl : tag = name.text source := (Prod.mk.inj (List.cons.inj hbetween).1).2
  obtain ⟨text, rest, rfl, htextLength⟩ := hcontent content (textContent?_eq_some helement)
  refine ⟨before ++ .token .symPunc "<".toList :: (.token .markupTag (name.text source) :: inside ++
    [.token .symPunc ">".toList]), text, rest, ?_, ?_, htextLength⟩
  · rw [hscan]
    simp
  · rw [Token.stop, hbegin, hlength]
    simp [Piece.text, Nat.add_assoc]

/-- How the raw text of an element is read, which stands between two bytes of a source and in front
of the rest of it: it ends where it may for the first time, it shows its references and nothing
else, and what is shown behind it is what the rest shows. -/
structure ReadsRawText (tokensOf : Bool → List Char → List Token) (content : TextContent)
    (tag source text rest : List Char) (begin stop : Nat) : Prop where
  isLeast : IsLeast (rawTextEnds tag source begin) stop
  inside : beginningIn begin stop (tokensOf false source) = referencesIn content begin text
  merged : content = .raw → beginningIn begin stop (tokensOf true source) = []
  behind : (tokensOf false source).filter (fun token ↦ stop ≤ token.begin) =
    (tokensOf false rest).map (Token.shift stop)

end Html

/-- Raw text is not read as markup. Behind the start tag of its element it goes on to where the end
tag begins or to the end of the source, and up to there nothing is shown but references. -/
theorem highlight_rawText [Text.IdentifierClasses]
    (strict : Bool) (source : List Char) (sink : Sink) :
    let tokensOf := fun (coalescing : Bool) (source : List Char) ↦
      (highlight .html { coalescing, strict } source sink).1.currentScan.toList
    ∀ front closing right name content, tokensOf false source = front ++ closing :: right →
      InStartTag source name front → closing.kind = .symPunc → closing.text source = ">".toList →
      (name.text source).map Char.toLower ∈ Html.elementsWith content →
        ∃ before text rest, source = before ++ (text ++ rest) ∧
          Text.byteLength before = closing.stop ∧
          Html.ReadsRawText tokensOf content (name.text source) source text rest closing.stop
            (closing.stop + Text.byteLength text) := by
  intro tokensOf front closing right name content htokens htag hclosing hbracket helement
  have hplain (source : List Char) : tokensOf false source = tokens 0 (Html.scan source) :=
    currentScan_highlight_plain .html strict source sink
  have hmerged :
      tokensOf true source = Language.html.tokens { coalescing := true, strict } source :=
    currentScan_highlight .html _ source sink
  rw [hplain] at htokens
  obtain ⟨ps, text, rest, hscan, hstop, hlength⟩ :=
    Html.exists_of_closing htokens htag hclosing hbracket helement
  have hcovers := Html.covers_rawText content text
  have hsource : source = textOf ps ++ (text ++ rest) := by
    have hwhole := (Html.covers_scan source).textOf_eq
    rw [hscan, Piece.textOf_append, Piece.textOf_append, hcovers.textOf_eq,
      (Html.covers_scan rest).textOf_eq] at hwhole
    exact hwhole.symm
  rw [← hstop]
  refine ⟨textOf ps, text, rest, hsource, rfl, ?_, ?_, ?_, ?_⟩
  · have hleast := Html.isLeast_rawTextEnds (textOf ps) hlength
    rwa [← hsource] at hleast
  · have hinside := Html.beginningIn_tokens ps (Html.rawText content text) (Html.scan rest)
    rw [hcovers.textOf_eq, ← hscan] at hinside
    rw [hplain]
    exact hinside.trans (Html.tokens_rawText content _ text)
  · rintro rfl
    rw [hmerged]
    exact Html.beginningIn_merged ps (Html.scan rest) strict hscan
  · have hbehind := Html.filter_tokens_behind (ps ++ Html.rawText content text) (Html.scan rest)
    rw [List.append_assoc, ← hscan, Piece.textOf_append, hcovers.textOf_eq,
      Text.byteLength_append] at hbehind
    rw [hplain, hplain]
    calc
      _ = tokens (Text.byteLength (textOf ps) + Text.byteLength text) (Html.scan rest) := hbehind
      _ = _ := Piece.tokens_add _ 0 _

/-- An end tag of another element does not end raw text, and the references in it are shown. -/
theorem highlight_rawText_title :
    let tokensOf := fun (coalescing : Bool) (source : List Char) ↦
      (highlight .html { coalescing, strict := true } source .empty).1.currentScan.toList
    let source := "<TITLE>&lt;</titles></title>".toList
    ∃ before text rest, source = before ++ (text ++ rest) ∧ Text.byteLength before = 7 ∧
      Html.ReadsRawText tokensOf .escapable "TITLE".toList source text rest 7
        (7 + Text.byteLength text) :=
  highlight_rawText true "<TITLE>&lt;</titles></title>".toList .empty
    [⟨0, 1, .symPunc⟩, ⟨1, 5, .markupTag⟩] ⟨6, 1, .symPunc⟩
    [⟨7, 4, .escape⟩, ⟨20, 2, .symPunc⟩, ⟨22, 5, .markupTag⟩, ⟨27, 1, .symPunc⟩]
    ⟨1, 5, .markupTag⟩ .escapable (by decide +kernel)
    ⟨[], ⟨0, 1, .symPunc⟩, [], rfl, rfl, by decide +kernel, rfl, List.forall_mem_nil _⟩ rfl
    (by decide +kernel) (by decide +kernel)

end Highlight
