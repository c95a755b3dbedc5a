import Highlight.Proofs.JavaScript.Belonging
import Highlight.Proofs.JavaScript.Coverage
import Highlight.Proofs.JavaScript.Expression
import Highlight.Proofs.Text.Digit
import Highlight.Text.Unicode

/-!
# Names of members

Behind a point a word names a member and is no keyword. That a member is due is handed from item to
item, passes over white space and comments, and ends with whatever else is read. It is proved to say
just that the last token of the same script is such a point, comments aside: what an item shows of
itself is neither an operator nor a word unless the whole item is one, and code that is embedded in
it is another script.
-/

namespace Highlight

open Piece (labelled textOf tokens)

namespace JavaScript

variable {embed : Reader} {strict : Bool} {c : Char} {s : List Char} {ps : List (Piece Kind)}

/-- The kinds of names in tags, of literals and of comments. -/
def wordlessKinds : List Kind :=
  [.markupTag, .markupAttr, .string, .escape, .number, .numberDecor, .comment, .commentDelimiter]

section

variable [Text.IdentifierClasses]

/-- What is shown is an identifier, and neither a name in a tag nor part of a literal or of a
comment. -/
def IsWord (entry : Entry) : Prop :=
  identifierLength entry.2 = entry.2.length ∧ entry.1 ∉ wordlessKinds

/-- What is shown is neither an operator nor a word. -/
def IsInert (entry : Entry) : Prop := entry.1 ≠ .symOp ∧ ¬ IsWord entry

theorem isInert_of_kind {entry : Entry} (h : entry.1 ∈ wordlessKinds) : IsInert entry := by
  refine ⟨?_, fun hword ↦ hword.2 h⟩
  intro hop
  rw [hop] at h
  exact absurd h (by decide)

theorem not_isWord_cons (kind : Kind) (hc : isIdentifierStart c = false) (s : List Char) :
    ¬ IsWord (kind, c :: s) := by
  intro hword
  have hlength := hword.1.symm.trans (identifierLength_eq_zero hc s)
  exact absurd hlength (Nat.succ_ne_zero _)

theorem isInert_labelled_take {kind : Kind} (hkind : kind ≠ .symOp)
    (hc : isIdentifierStart c = false) (n : Nat) (s : List Char) :
    ∀ entry ∈ labelled [.token kind ((c :: s).take n)], IsInert entry := by
  cases n with
  | zero => exact List.forall_mem_nil _
  | succ n =>
    rw [List.take_succ_cons, Piece.labelled_single (List.cons_ne_nil _ _)]
    exact List.forall_mem_singleton.2 ⟨hkind, not_isWord_cons kind hc _⟩

/-- A character of ASCII that is neither a letter nor one of the two signs that names begin with. -/
def isOutside (c : Char) : Bool := c.toNat < 0x80 && !(c.isAlpha || c == '$' || c == '_')

theorem isIdentifierStart_of_isOutside (hc : isOutside c) : isIdentifierStart c = false := by
  simp only [isOutside, Bool.and_eq_true, decide_eq_true_eq, Bool.not_eq_true',
    Bool.or_eq_false_iff] at hc
  obtain ⟨hascii, ⟨halpha, hdollar⟩, hline⟩ := hc
  rw [isIdentifierStart_of_ascii hascii, hdollar, hline, halpha]
  rfl

theorem isIdentifierStart_digit (hc : c.isDigit) : isIdentifierStart c = false := by
  have hascii := Text.toNat_lt_of_isHexDigit (Text.isHexDigit_of_isDigit hc)
  apply isIdentifierStart_of_isOutside
  revert hc
  refine Text.of_ascii (p := fun c ↦ c.isDigit → isOutside c) ?_ hascii
  decide +kernel

theorem identifierLength_of_lower (hs : ∀ c ∈ s, 'a'.toNat ≤ c.toNat ∧ c.toNat ≤ 'z'.toNat) :
    identifierLength s = s.length := by
  cases s with
  | nil => rfl
  | cons c s =>
    obtain ⟨hc, hrest⟩ := List.forall_mem_cons.1 hs
    have hlower (d : Char) (hd : 'a'.toNat ≤ d.toNat ∧ d.toNat ≤ 'z'.toNat) :
        d.toNat < 0x80 ∧ d.isAlpha := by
      have hascii : d.toNat < 0x80 := Nat.lt_of_le_of_lt hd.2 (by decide)
      revert hd
      refine Text.of_ascii (p := fun d ↦ 'a'.toNat ≤ d.toNat ∧ d.toNat ≤ 'z'.toNat →
        d.toNat < 0x80 ∧ d.isAlpha) ?_ hascii
      decide +kernel
    have hstart : isIdentifierStart c := by
      rw [isIdentifierStart_of_ascii (hlower c hc).1, (hlower c hc).2, Bool.or_true]
    have hpart (d : Char) (hd : d ∈ s) : isIdentifierPart d := by
      rw [isIdentifierPart, Text.isIdentifierContinue_of_ascii (hlower d (hrest d hd)).1,
        Char.isAlphanum, (hlower d (hrest d hd)).2, Bool.true_or, Bool.true_or, Bool.or_true]
    have hword := (Text.wordLength_append_iff (r := []) (List.cons_ne_nil c s)).2
      ⟨⟨c, s, rfl, hstart, hpart⟩, rfl⟩
    rwa [List.append_nil] at hword

/-- No operator begins like a name. -/
theorem not_isWord_operator {op : String} (hop : op ∈ operators) (kind : Kind) :
    ¬ IsWord (kind, op.toList) := by
  have hlist : ∀ op ∈ operators, op.toList.head?.any isOutside := by decide
  obtain ⟨c, hc, houtside⟩ := (Option.any_eq_true _ _).1 (hlist op hop)
  obtain ⟨rest, hrest⟩ := List.head?_eq_some_iff.1 hc
  rw [hrest]
  exact not_isWord_cons kind (isIdentifierStart_of_isOutside houtside) rest

/-- The reader of embedded code shows nothing of it. -/
def Reader.Silent (embed : Reader) : Prop := ∀ code, labelled (embed code) = []

omit [Text.IdentifierClasses] in
theorem silent_hidden : Reader.Silent Piece.hidden := Piece.labelled_hidden

theorem composes_inert : Composes fun es ↦ ∀ entry ∈ es, IsInert entry := composes_forall IsInert

theorem inert_of_label (kind : Kind) (h : kind ∈ wordlessKinds) (text : List Char) :
    ∀ entry ∈ [(kind, text)], IsInert entry :=
  List.forall_mem_singleton.2 (isInert_of_kind h)

theorem inert_escapePieces (s : List Char) :
    ∀ entry ∈ labelled (escapePieces ('\\' :: s)), IsInert entry := by
  have hstart : isIdentifierStart '\\' = false := isIdentifierStart_of_isOutside (by decide)
  refine isInert_labelled_take ?_ hstart _ s
  split_ifs <;> decide

theorem shows_string : string.Shows fun es ↦ ∀ entry ∈ es, IsInert entry := by
  intro s ps h
  obtain ⟨quote, rest, -, hparts⟩ := parts_of_string h
  refine Construct.shows_parts composes_inert (inert_of_label _ (by decide)) ?_ 1 s ps hparts
  intro t qs hturn
  obtain ⟨behind, rfl, rfl⟩ := escape_of_stringTurn hturn
  exact inert_escapePieces behind

theorem shows_number : number.Shows fun es ↦ ∀ entry ∈ es, IsInert entry := by
  intro s ps h
  have hfirst : ∀ c rest, s = c :: rest → isIdentifierStart c = false := by
    rintro c rest rfl
    by_cases hdigit : c.isDigit
    · exact isIdentifierStart_digit hdigit
    · obtain rfl : c = '.' := by
        by_contra hpoint
        rw [number_eq_none (Bool.eq_false_iff.2 hdigit) hpoint] at h
        exact absurd h (Option.some_ne_none ps).symm
      exact isIdentifierStart_of_isOutside (by decide)
  rcases cases_of_number h with ⟨-, rfl⟩ | ⟨mark, digits, suffix, rfl⟩
  · cases s with
    | nil => exact List.forall_mem_nil _
    | cons c rest => exact isInert_labelled_take (by decide) (hfirst c rest rfl) _ rest
  · have hdecor (text : List Char) := composes_inert.labelled_shown
      (inert_of_label .numberDecor (by decide) text)
    rw [Piece.labelled_append, Piece.labelled_append]
    exact composes_inert.append (composes_inert.append (hdecor mark)
      (composes_inert.labelled_shown (inert_of_label _ (by decide) digits))) (hdecor suffix)

theorem shows_privateName : (Construct.measured .identifier privateNameLength).Shows
    fun es ↦ ∀ entry ∈ es, IsInert entry := by
  intro s ps h
  obtain ⟨hlength, rfl⟩ := Construct.measured_eq_some.1 h
  have hsign : Text.startsWith "#" s := by
    by_contra hnone
    rw [privateNameLength, if_neg hnone] at hlength
    exact hlength rfl
  obtain ⟨rest, rfl⟩ := Text.startsWith_iff.1 hsign
  have hstart : isIdentifierStart '#' = false := isIdentifierStart_of_isOutside (by decide)
  exact isInert_labelled_take (by decide) hstart _ rest

omit [Text.IdentifierClasses] in
/-- Code that is measured ends with its bracket. -/
theorem exists_of_bracedLength (h : bracedLength ('\x7b' :: s) ≠ 0) : ∃ code behind,
    s = code ++ '\x7d' :: behind ∧ Grammar.Code ('\x7b' :: (code ++ ['\x7d'])) := by
  obtain ⟨u, behind, hsplit, hcode⟩ := exists_code h
  have hu := hcode
  obtain @⟨code, -⟩ := hu
  exact ⟨code, behind, by simpa using hsplit, hcode⟩

theorem isInert_opening : IsInert (.symPunc, "$\x7b".toList) := by
  have hpart : isIdentifierPart '\x7b' = false := rfl
  refine ⟨by decide, fun hword ↦ ?_⟩
  have hwhole := (Text.wordLength_append_iff (r := []) (List.cons_ne_nil '$' ['\x7b'])).1 hword.1
  obtain ⟨⟨c, v, hsplit, -, hv⟩, -⟩ := hwhole
  obtain ⟨rfl, rfl⟩ := List.cons.inj hsplit
  have hbrace := hv '\x7b' (List.mem_singleton_self _)
  rw [hpart] at hbrace
  exact Bool.noConfusion hbrace

theorem isInert_bracket (kind : Kind) (hkind : kind ≠ .symOp) :
    IsInert (kind, "\x7b".toList) ∧ IsInert (kind, "\x7d".toList) := by
  have hopening : isIdentifierStart '\x7b' = false := isIdentifierStart_of_isOutside (by decide)
  have hclosing : isIdentifierStart '\x7d' = false := isIdentifierStart_of_isOutside (by decide)
  exact ⟨⟨hkind, not_isWord_cons kind hopening []⟩, hkind, not_isWord_cons kind hclosing []⟩

section

variable (hembed : embed.Silent)

include hembed

omit [Text.IdentifierClasses] in
/-- Of code that is not shown only what stands around it is seen. -/
theorem labelled_between (front : List (Piece Kind)) (code : List Char)
    (behind : List (Piece Kind)) :
    labelled (between front embed code behind) = labelled front ++ labelled behind := by
  rw [between, Piece.labelled_append, Piece.labelled_append, hembed, List.append_nil]

/-- The code of a substitution is silent, and its brackets are neither words nor operators. -/
theorem inert_substitution (h : "$\x7b".toList <+: s) :
    ∀ entry ∈ labelled (substitution embed s), IsInert entry := by
  obtain ⟨rest, rfl⟩ := h
  by_cases hn : bracedLength ('\x7b' :: rest) = 0
  · have hopen : substitution embed ("$\x7b".toList ++ rest) =
        between [.token .symPunc "$\x7b".toList] embed rest [] := by
      simp [substitution, between, hn]
    rw [hopen, labelled_between hembed]
    exact List.forall_mem_singleton.2 isInert_opening
  · obtain ⟨code, behind, rfl, hcode⟩ := exists_of_bracedLength hn
    have hbraced := hcode.bracedLength_append []
    rw [List.append_nil] at hbraced
    rw [substitution_code (by simpa using hbraced), labelled_between hembed]
    exact List.forall_mem_cons.2 ⟨isInert_opening,
      List.forall_mem_singleton.2 (isInert_bracket _ (by decide)).2⟩

theorem inert_container (h : Grammar.Code s) :
    ∀ entry ∈ labelled (container embed s), IsInert entry := by
  obtain @⟨code, -⟩ := h
  have hbrackets := isInert_bracket .symBrace (by decide)
  rw [container_code, labelled_between hembed]
  exact List.forall_mem_cons.2 ⟨hbrackets.1, List.forall_mem_singleton.2 hbrackets.2⟩

theorem shows_template : (template embed).Shows fun es ↦ ∀ entry ∈ es, IsInert entry := by
  intro s ps h
  refine Construct.shows_parts composes_inert (inert_of_label _ (by decide)) ?_ 1 s ps
    (parts_of_template h).2
  intro t qs hturn
  rcases aside_of_templateTurn hturn with ⟨behind, rfl, rfl⟩ | ⟨hopening, rfl⟩
  · exact inert_escapePieces behind
  · exact inert_substitution hembed hopening

end

/-- The piece is punctuation only as a mark of a tag. -/
def IsMark (piece : Piece TagPart) : Prop :=
  ∀ text, piece = .token .punctuation text → ∃ c rest, text = c :: rest ∧ isOutside c

omit [Text.IdentifierClasses] in
theorem isMark_punctuation {lit : String} {rest : List Char} (hlit : lit.toList = c :: rest)
    (hc : isOutside c) : IsMark (punctuation lit) := by
  intro text htext
  obtain ⟨-, rfl⟩ := Piece.token.inj htext
  exact ⟨c, rest, hlit, hc⟩

section

variable {kind : TagKind} {parts : List (Piece TagPart)} {place next : Place}
  {piece : Piece TagPart}

omit [Text.IdentifierClasses] in
theorem Trivia.isMark (h : Trivia parts) : ∀ piece ∈ parts, IsMark piece := by
  induction h with
  | nil => exact List.forall_mem_nil _
  | space _ _ _ ih => exact List.forall_mem_cons.2 ⟨fun text htext ↦ by simp at htext, ih⟩
  | lineComment _ _ _ ih => exact List.forall_mem_cons.2 ⟨fun text htext ↦ by simp at htext, ih⟩
  | blockComment _ _ ih => exact List.forall_mem_cons.2 ⟨fun text htext ↦ by simp at htext, ih⟩

theorem Goes.isMark (h : Goes s place piece next) : IsMark piece := by
  cases h with
  | slash => exact isMark_punctuation rfl (by decide)
  | _ => exact fun text htext ↦ by simp at htext

omit [Text.IdentifierClasses] in
theorem Ends.isMark (h : Ends place piece kind) : IsMark piece := by
  cases h with
  | selfClosing => exact isMark_punctuation rfl (by decide)
  | _ => exact isMark_punctuation rfl (by decide)

theorem Rest.isMark (h : Rest place parts kind) : ∀ piece ∈ parts, IsMark piece := by
  induction h with
  | ends ha hends =>
    exact List.forall_mem_append.2 ⟨ha.isMark, List.forall_mem_singleton.2 hends.isMark⟩
  | goes ha hgoes _ ih =>
    exact List.forall_mem_append.2 ⟨ha.isMark, List.forall_mem_cons.2 ⟨hgoes.isMark, ih⟩⟩

theorem IsTag.isMark (h : IsTag parts kind) : ∀ piece ∈ parts, IsMark piece := by
  cases h with
  | opened _ hrest =>
    exact List.forall_mem_cons.2 ⟨isMark_punctuation rfl (by decide), hrest.isMark⟩
  | closing hrest =>
    exact List.forall_mem_cons.2 ⟨isMark_punctuation rfl (by decide), hrest.isMark⟩

end

theorem inert_commentPieces (text : List Char) :
    ∀ entry ∈ labelled (commentPieces text), IsInert entry := by
  have hframed (closing : Nat) := composes_inert.labelled_framed
    (inert_of_label .commentDelimiter (by decide))
    (inert_of_label .comment (by decide)) 2 closing text
  unfold commentPieces
  split_ifs
  · exact hframed 0
  · exact hframed _

section

variable (hembed : embed.Silent)

include hembed

/-- The parts of a tag show neither a word nor an operator. -/
theorem inert_showPart {piece : Piece TagPart} (hholds : Holds piece) (hmark : IsMark piece) :
    ∀ entry ∈ labelled (showPart embed piece), IsInert entry := by
  have hlabel {kind : Kind} (hkind : kind ∈ wordlessKinds) (text : List Char) :=
    composes_inert.labelled_token (inert_of_label kind hkind text)
  cases piece with
  | gap text | withdrawn reported => exact List.forall_mem_nil _
  | token label text =>
    cases label with
    | punctuation =>
      have hkind : Kind.symPunc ≠ .symOp := by decide
      obtain ⟨c, rest, rfl, hc⟩ := hmark text rfl
      exact composes_inert.labelled_token (List.forall_mem_singleton.2
        ⟨hkind, not_isWord_cons _ (isIdentifierStart_of_isOutside hc) rest⟩)
    | tagName | attributeName | string => exact hlabel (by decide) text
    | comment => exact inert_commentPieces text
    | code => exact inert_container hembed hholds

theorem inert_showTag {kind : TagKind} {parts : List (Piece TagPart)}
    (h : tag? s = some (kind, parts)) :
    ∀ entry ∈ labelled (showTag embed parts), IsInert entry := by
  have htag := isTag_of_tag? h
  rw [← showTag_lasting]
  rintro ⟨label, text⟩ hentry
  obtain ⟨hmem, htext⟩ := Piece.mem_labelled.1 hentry
  obtain ⟨piece, hpiece, hshown⟩ := List.mem_flatMap.1 hmem
  exact inert_showPart hembed (htag.holds piece hpiece) (htag.isMark piece hpiece) _
    (Piece.mem_labelled.2 ⟨hshown, htext⟩)

/-- A child shows neither a word nor an operator. -/
theorem inert_child {depth next : Nat} (h : child embed depth s = some (ps, next)) :
    ∀ entry ∈ labelled ps, IsInert entry := by
  unfold child at h
  simp only at h
  split_ifs at h with hdepth hbrace hn hangle hand hreference
  · obtain ⟨rest, rfl⟩ := Text.startsWith_iff.1 hbrace
    obtain ⟨rfl, -⟩ := Prod.mk.inj (Option.some.inj h)
    change ∀ entry ∈ labelled ([.token .symBrace "\x7b".toList] ++ embed rest), IsInert entry
    rw [Piece.labelled_append, hembed, List.append_nil]
    exact List.forall_mem_singleton.2 (isInert_bracket _ (by decide)).1
  · obtain ⟨rfl, -⟩ := Prod.mk.inj (Option.some.inj h)
    obtain ⟨code, behind, rfl, hcode⟩ := exists_code hn
    rw [hcode.bracedLength_append, List.take_left]
    exact inert_container hembed hcode
  · split at h
    · next kind parts htag =>
      obtain ⟨rfl, -⟩ := Prod.mk.inj (Option.some.inj h)
      exact inert_showTag hembed htag
    · obtain ⟨rfl, -⟩ := Prod.mk.inj (Option.some.inj h)
      exact List.forall_mem_nil _
  · obtain ⟨rfl, -⟩ := Prod.mk.inj (Option.some.inj h)
    exact List.forall_mem_nil _
  · obtain ⟨rfl, -⟩ := Prod.mk.inj (Option.some.inj h)
    exact composes_inert.labelled_token (inert_of_label _ (by decide) _)
  · obtain ⟨rfl, -⟩ := Prod.mk.inj (Option.some.inj h)
    rw [Piece.labelled_hidden]
    exact List.forall_mem_nil _

theorem shows_element : (element embed).Shows fun es ↦ ∀ entry ∈ es, IsInert entry := by
  intro s ps h
  unfold element at h
  simp only at h
  split at h
  · simp at h
  · next kind parts htag =>
    have hparts := inert_showTag hembed htag
    split_ifs at h <;> obtain rfl := Option.some.inj h
    · rw [Piece.labelled_append]
      exact List.forall_mem_append.2 ⟨hparts,
        shows_run composes_inert (fun _ _ _ _ hchild ↦ inert_child hembed hchild) 1 _⟩
    · exact hparts

/-- No operand is an operator or a word, nor is anything in it. -/
theorem shows_operand (expression : Bool) : (operand embed strict expression).Shows
    fun es ↦ ∀ entry ∈ es, IsInert entry := by
  apply Construct.shows_firstOf
  simp only [List.forall_mem_cons]
  exact ⟨shows_string, shows_template hembed, shows_number,
    Construct.shows_onlyIf
      (Construct.shows_measured composes_inert (inert_of_label _ (by decide)) regexLength),
    Construct.shows_onlyIf (shows_element hembed), shows_privateName, List.forall_mem_nil _⟩

end

omit [Text.IdentifierClasses] in
theorem exists_labelled {kind : Kind} {text : List Char} (hmem : .token kind text ∈ ps)
    (htext : text ≠ []) (hkind : kind ∉ commentKinds) :
    ∃ entry ∈ labelled ps, entry.1 ∉ commentKinds :=
  ⟨(kind, text), Piece.mem_labelled.2 ⟨hmem, htext⟩, hkind⟩

omit [Text.IdentifierClasses] in
theorem exists_of_number (h : number s = some ps) :
    ∃ entry ∈ labelled ps, entry.1 ∉ commentKinds := by
  have hwidth := advances_number s ps h
  rcases cases_of_number h with ⟨-, rfl⟩ | ⟨mark, digits, suffix, rfl⟩
  · refine exists_labelled (List.mem_singleton_self _) ?_ (by decide)
    intro hnil
    rw [hnil] at hwidth
    exact Nat.lt_irrefl 0 hwidth
  · have hsome : mark ≠ [] ∨ digits ≠ [] ∨ suffix ≠ [] := by
      by_contra hnone
      simp only [not_or, not_not] at hnone
      obtain ⟨rfl, rfl, rfl⟩ := hnone
      exact Nat.lt_irrefl 0 hwidth
    rcases hsome with htext | htext | htext
    · exact exists_labelled (List.mem_append_left _ (List.mem_append_left _
        (Piece.mem_shown htext))) htext (by decide)
    · exact exists_labelled (List.mem_append_left _ (List.mem_append_right _
        (Piece.mem_shown htext))) htext (by decide)
    · exact exists_labelled (List.mem_append_right _ (Piece.mem_shown htext)) htext (by decide)

/-- An operand shows something that is no comment. -/
theorem exists_of_operand {expression : Bool} (hs : s ≠ [])
    (h : operand embed strict expression s = some ps) :
    ∃ entry ∈ labelled ps, entry.1 ∉ commentKinds := by
  have htake {n : Nat} (hn : n ≠ 0) : s.take n ≠ [] :=
    fun hnil ↦ (List.take_eq_nil_iff.1 hnil).elim hn hs
  rw [operand_eq] at h
  simp only [Option.or_eq_some_iff, Construct.onlyIf_eq_some] at h
  rcases h with hstring | ⟨-, htemplate | ⟨-, hnumber | ⟨-, ⟨-, hregex⟩ | ⟨-, ⟨-, helement⟩ |
    ⟨-, hname⟩⟩⟩⟩⟩
  · obtain ⟨quote, rest, -, hparts⟩ := parts_of_string hstring
    obtain ⟨text, htext, hmem⟩ := exists_of_parts hs hparts
    exact exists_labelled hmem htext (by decide)
  · obtain ⟨text, htext, hmem⟩ := exists_of_parts hs (parts_of_template htemplate).2
    exact exists_labelled hmem htext (by decide)
  · exact exists_of_number hnumber
  · obtain ⟨hlength, rfl⟩ := Construct.measured_eq_some.1 hregex
    exact exists_labelled (List.mem_singleton_self _) (htake hlength) (by decide)
  · obtain ⟨behind, rfl⟩ := exists_cons_of_element helement
    exact exists_labelled List.mem_cons_self (List.cons_ne_nil _ _) (by decide)
  · obtain ⟨hlength, rfl⟩ := Construct.measured_eq_some.1 hname
    exact exists_labelled (List.mem_singleton_self _) (htake hlength) (by decide)

theorem ne_of_isIdentifierStart {d : Char} (hd : isOutside d) (h : isIdentifierStart c) :
    c ≠ d := by
  rintro rfl
  rw [isIdentifierStart_of_isOutside hd] at h
  exact Bool.noConfusion h

/-- Where a name begins there is no operand of another kind. -/
theorem operand_eq_none (hc : isIdentifierStart c) (embed : Reader) (strict expression : Bool)
    (s : List Char) : operand embed strict expression (c :: s) = none := by
  have hquote : Text.isQuote c = false := by
    rw [Text.isQuote, Bool.or_eq_false_iff, beq_eq_false_iff_ne, beq_eq_false_iff_ne]
    exact ⟨ne_of_isIdentifierStart (by decide) hc, ne_of_isIdentifierStart (by decide) hc⟩
  have hbacktick : c ≠ '\x60' := ne_of_isIdentifierStart (by decide) hc
  have hslash : c ≠ '/' := ne_of_isIdentifierStart (by decide) hc
  have hdigit : c.isDigit = false := by
    rw [Bool.eq_false_iff]
    intro hdigit
    rw [isIdentifierStart_digit hdigit] at hc
    exact Bool.noConfusion hc
  have hregex : regex (c :: s) = none := by
    apply Construct.measured_of_eq_zero
    simp [regexLength, hslash]
  have helement : element embed (c :: s) = none := by
    simp only [element, tag?_eq_none (ne_of_isIdentifierStart (by decide) hc)]
  rw [operand_eq, number_eq_none hdigit (ne_of_isIdentifierStart (by decide) hc),
    Construct.onlyIf_of_none hregex, Construct.onlyIf_of_none helement,
    privateName_eq_none (ne_of_isIdentifierStart (by decide) hc)]
  simp [string, template, hquote, hbacktick]

/-- Where an identifier begins a word is read. -/
theorem item_of_identifier (hname : identifierLength s ≠ 0) (embed : Reader) (strict : Bool)
    (position : Position) : item embed strict position s = word position.member s := by
  have hstart : Text.startsIn isIdentifierStart s := by
    rw [← Bool.not_eq_false]
    exact mt Text.wordLength_eq_zero_iff.2 hname
  cases s with
  | nil => exact Bool.noConfusion hstart
  | cons c s =>
    have hc : isIdentifierStart c := hstart
    have hblank : Construct.skipSome (Text.spanLength isSpace) (c :: s) =
        (none : Option (List (Piece Kind))) := by
      have hlength : Text.spanLength isSpace (c :: s) = 0 :=
        Text.spanLength_eq_zero_iff.2 (isSpace_of_isIdentifierStart hc)
      simp [Construct.skipSome, hlength]
    have hword : (word position.member (c :: s)).isSome := by
      have hlength : (c :: s).take (identifierLength (c :: s)) ≠ [] :=
        fun hnil ↦ (List.take_eq_nil_iff.1 hnil).elim hname (List.cons_ne_nil c s)
      simp [word, hlength]
    obtain ⟨found, hfound⟩ := Option.isSome_iff_exists.1 hword
    rw [item, hblank, comment_eq_none (ne_slash_of_isIdentifierStart hc),
      operand_eq_none hc, hfound]
    rfl

/-- A word is shown as it is, and no member is due behind it. -/
theorem labelled_word {member : Bool} {next : Position} (h : word member s = some (ps, next)) :
    labelled ps = [(if member then .identifier else
        (keyword? (s.take (identifierLength s))).getD .identifier, s.take (identifierLength s))] ∧
      next.member = false := by
  unfold word at h
  simp only at h
  generalize (if member then Kind.identifier else
    (keyword? (s.take (identifierLength s))).getD .identifier) = kind at h ⊢
  split_ifs at h with hempty
  obtain ⟨rfl, rfl⟩ := Prod.mk.inj (Option.some.inj h)
  exact ⟨Piece.labelled_single fun hnil ↦ hempty (List.isEmpty_iff.2 hnil), rfl⟩

end

/-! ## Where a member is due -/

/-- Behind the entries a word names a member: comments aside, the last of them is a point, or one
with a question mark. -/
def NamesMember (entries : List Entry) : Prop :=
  (entries.filter (·.1 ∉ commentKinds)).getLast? ∈
    [some (.symOp, ".".toList), some (.symOp, "?.".toList)]

instance (entries : List Entry) : Decidable (NamesMember entries) :=
  inferInstanceAs (Decidable (_ ∈ _))

variable {es fs : List Entry}

theorem namesMember_append_comment (h : ∀ entry ∈ fs, entry.1 ∈ commentKinds) :
    NamesMember (es ++ fs) ↔ NamesMember es := by
  have hnone : fs.filter (·.1 ∉ commentKinds) = [] := by
    apply List.filter_eq_nil_iff.2
    intro entry hentry
    simpa using h entry hentry
  rw [NamesMember, List.filter_append, hnone, List.append_nil]
  rfl

/-- What is no operator takes the place of the point. -/
theorem not_namesMember_append (hother : ∀ entry ∈ fs, entry.1 ≠ .symOp)
    (hshown : ∃ entry ∈ fs, entry.1 ∉ commentKinds) : ¬ NamesMember (es ++ fs) := by
  obtain ⟨entry, hentry, hkind⟩ := hshown
  have hne : fs.filter (·.1 ∉ commentKinds) ≠ [] :=
    List.ne_nil_of_mem (List.mem_filter.2 ⟨hentry, decide_eq_true hkind⟩)
  have hlast := List.getLast_mem hne
  rw [NamesMember, List.filter_append, List.getLast?_append_of_ne_nil _ hne,
    List.getLast?_eq_some_getLast hne]
  intro hmem
  have hop : ((fs.filter (·.1 ∉ commentKinds)).getLast hne).1 = .symOp := by
    rcases List.mem_cons.1 hmem with h | h
    · rw [Option.some.inj h]
    · rw [Option.some.inj (List.mem_singleton.1 h)]
  exact hother _ (List.mem_of_mem_filter hlast) hop

theorem not_namesMember_single (es : List Entry) {kind : Kind} (text : List Char)
    (hop : kind ≠ .symOp) (hkind : kind ∉ commentKinds) : ¬ NamesMember (es ++ [(kind, text)]) :=
  not_namesMember_append (List.forall_mem_singleton.2 hop) ⟨_, List.mem_singleton_self _, hkind⟩

/-- Behind an operator the name of a member is due only where that is a point. -/
theorem namesMember_append_operator (es : List Entry) (op : String) :
    NamesMember (es ++ [(Operator.kind op, op.toList)]) ↔ op = "." ∨ op = "?." := by
  have hkind : Operator.kind op ∉ commentKinds := by
    have hothers : ∀ kind ∈ operatorKinds, kind ∉ commentKinds := by decide
    exact hothers _ (kind_mem op)
  have hpoint : Operator.kind "." = .symOp ∧ Operator.kind "?." = .symOp := by decide
  rw [NamesMember, List.filter_append, List.filter_singleton, decide_eq_true hkind]
  simp only [cond_true, List.getLast?_append, List.getLast?_singleton, Option.some_or,
    List.mem_cons, List.not_mem_nil, or_false, Option.some.injEq, Prod.mk.injEq, String.toList_inj]
  constructor
  · exact Or.imp And.right And.right
  · rintro (rfl | rfl)
    · exact .inl ⟨hpoint.1, rfl⟩
    · exact .inr ⟨hpoint.2, rfl⟩

/-! ## The position -/

theorem comment_of_mem_labelled (h : comment s = some ps) :
    ∀ entry ∈ labelled ps, entry.1 ∈ commentKinds :=
  fun entry hentry ↦ isPassed_of_comment h entry.1 entry.2 (Piece.mem_labelled.1 hentry).1

variable [Text.IdentifierClasses]

/-- That a member is due behind an item follows from whether it is due before it. -/
theorem member_item_iff {position next : Position} (hembed : embed.Silent) (hs : s ≠ [])
    (hdue : position.member ↔ NamesMember es)
    (h : item embed strict position s = some (ps, next)) :
    next.member ↔ NamesMember (es ++ labelled ps) := by
  rcases item_next h with ⟨hspace | hcomment, rfl⟩ | ⟨hoperand, rfl⟩ | hword | hoperator |
    ⟨hjunk, rfl⟩
  · obtain ⟨-, rfl⟩ := Construct.skipSome_eq_some.1 hspace
    rw [Piece.labelled_gap, Piece.labelled_nil, List.append_nil]
    exact hdue
  · rw [namesMember_append_comment (comment_of_mem_labelled hcomment), hdue]
  · exact iff_of_false (by decide) (not_namesMember_append
      (fun entry hentry ↦ (shows_operand hembed _ s ps hoperand entry hentry).1)
      (exists_of_operand hs hoperand))
  · obtain ⟨hlabelled, hmember⟩ := labelled_word hword
    have hothers : ∀ kind ∈ wordKinds, kind ≠ .symOp ∧ kind ∉ commentKinds := by decide
    have hkind : (if position.member then .identifier else
        (keyword? (s.take (identifierLength s))).getD .identifier) ∈ wordKinds := by
      split_ifs
      · decide
      · exact getD_keyword?_mem _
    rw [hmember, hlabelled]
    exact iff_of_false (by decide)
      (not_namesMember_single es _ (hothers _ hkind).1 (hothers _ hkind).2)
  · obtain ⟨op, hop, hps⟩ := Option.bind_eq_some_iff.1 hoperator
    obtain ⟨rfl, rfl⟩ := Prod.mk.inj (Option.some.inj hps)
    have hne := (prefix_of_operator? hop).1
    rw [Piece.labelled_single hne, namesMember_append_operator]
    simp
  · obtain ⟨c, rest, rfl⟩ := List.exists_cons_of_ne_nil hs
    obtain ⟨-, rfl⟩ := Construct.measured_eq_some.1 hjunk
    exact iff_of_false (by decide) (not_namesMember_single es [c] (by decide) (by decide))

/-- The position that a script is read with says whether a member is due behind what is shown. -/
theorem member_iff_namesMember {rest : List Char} {items : List (List (Piece Kind))}
    {position : Position} (hembed : embed.Silent)
    (h : Comes (item embed strict) {} s items position rest) :
    position.member ↔ NamesMember (labelled items.flatten) := by
  induction h with
  | start => exact iff_of_false (by decide) (by decide)
  | turn _ hrest hstep ih =>
    rw [List.flatten_concat, Piece.labelled_append]
    exact member_item_iff hembed hrest ih hstep

/-- Where no identifier begins, no word is shown. -/
theorem not_isWord_of_item {position next : Position} (hembed : embed.Silent)
    (hname : identifierLength s = 0) (h : item embed strict position s = some (ps, next)) :
    ∀ entry ∈ labelled ps, ¬ IsWord entry := by
  intro entry hentry
  rcases item_next h with ⟨hspace | hcomment, -⟩ | ⟨hoperand, -⟩ | hword | hoperator | ⟨hjunk, -⟩
  · obtain ⟨-, rfl⟩ := Construct.skipSome_eq_some.1 hspace
    simp at hentry
  · have hcomments : ∀ kind ∈ commentKinds, kind ∈ wordlessKinds := by decide
    exact fun hword ↦ hword.2 (hcomments _ (comment_of_mem_labelled hcomment entry hentry))
  · exact (shows_operand hembed _ s ps hoperand entry hentry).2
  · obtain ⟨kind, hne, -⟩ := word_eq_some hword
    rw [hname] at hne
    exact absurd List.take_zero hne
  · obtain ⟨op, hop, rfl⟩ := operator_eq_some hoperator
    rw [Piece.labelled_single (prefix_of_operator? hop).1, List.mem_singleton] at hentry
    rw [hentry]
    exact not_isWord_operator (mem_of_operator? hop) _
  · obtain ⟨-, rfl⟩ := Construct.measured_eq_some.1 hjunk
    cases s with
    | nil => simp [Piece.labelled_token] at hentry
    | cons c rest =>
      have hc : isIdentifierStart c = false := Text.wordLength_eq_zero_iff.1 hname
      exact (isInert_labelled_take (by decide) hc _ rest entry hentry).2

/-- A word is an item by itself. Whether it can be a keyword depends on what is shown before it. -/
theorem word_of_run (hcovers : embed.Covering) (hembed : embed.Silent)
    {before after : List (Piece Kind)} {kind : Kind} {text : List Char}
    (hrun : run (item embed strict) {} s = before ++ .token kind text :: after) (htext : text ≠ [])
    (hword : IsWord (kind, text)) :
    kind = if NamesMember (labelled before) then .identifier
      else (keyword? text).getD .identifier := by
  obtain ⟨items, position, rest, ps, next, front, back, hcomes, hrest, hitem, hps, rfl, -⟩ :=
    exists_turn (advances_item hcovers strict) hrun
  have hentry : (kind, text) ∈ labelled ps := by
    rw [hps]
    exact Piece.mem_labelled.2 ⟨by simp, htext⟩
  have hname : identifierLength rest ≠ 0 :=
    fun hnone ↦ not_isWord_of_item hembed hnone hitem _ hentry hword
  rw [item_of_identifier hname] at hitem
  obtain ⟨hlabelled, -⟩ := labelled_word hitem
  obtain ⟨hkind, rfl⟩ := Prod.mk.inj (List.mem_singleton.1 (hlabelled ▸ hentry))
  -- The word is all of the item, so what is shown before it is what the items before show.
  obtain ⟨label, -, rfl⟩ := word_eq_some hitem
  obtain ⟨rfl, -⟩ | ⟨-, hnone⟩ := List.singleton_eq_append_iff.1 hps
  · rw [List.append_nil, hkind]
    exact if_congr (member_iff_namesMember hembed hcomes) rfl rfl
  · exact absurd hnone (List.cons_ne_nil _ _)

end JavaScript

open JavaScript

/-- A word shown of a script belongs to the script or to code embedded in it. It is an identifier if
the last token before it that belongs to the same code, comments aside, is a point or one with a
question mark, and else of the kind that the keywords give it. -/
theorem scriptTokens_memberNames [Text.IdentifierClasses]
    (strict : Bool) (source : List Char) (sink : Sink)
    {before after : List Token} {token : Token}
    (h : scriptTokens strict source sink = before ++ token :: after)
    (hword : IsWord (token.entry source)) :
    (∃ level < levelLimit, ∃ code ∈ codesBelow strict level 0 source,
      BelongsTo strict code token) ∧
    ∀ level < levelLimit, ∀ code ∈ codesBelow strict level 0 source, BelongsTo strict code token →
      token.kind =
        if NamesMember ((before.filter (BelongsTo strict code ·)).map (Token.entry source)) then
          .identifier
        else (keyword? (token.text source)).getD .identifier := by
  rw [scriptTokens_eq] at h
  constructor
  · have hmem : token ∈ tokens 0 (scan strict source) := by simp [h]
    refine (exists_belongsTo_of_scan hmem).resolve_left fun hhashbang ↦ ?_
    obtain ⟨text, htext⟩ := Piece.exists_of_mem_tokens hhashbang
    have hcomments : ∀ kind ∈ commentKinds, kind ∈ wordlessKinds := by decide
    exact hword.2 (hcomments _ (isPassed_framed 2 0 _ _ text htext))
  · intro level hlevel code hcode hbelongs
    -- The tokens of the code are those of its pieces where embedded code is hidden.
    have hfilter := filter_belongsTo hlevel hcode
    rw [h, List.filter_append, List.filter_cons_of_pos (by simpa using hbelongs)] at hfilter
    obtain ⟨front, text, behind, hpieces, htext, hbefore, -, -, -⟩ :=
      Piece.exists_of_tokens_eq hfilter.symm
    have hcovers := covers_scanLevels strict 1 code.text
    have hwhole : Piece.Covers (scanLevels strict 1 code.text ++ []) code.text := by
      rwa [List.append_nil]
    have hall := map_entry_tokens hcode hwhole
    rw [hpieces] at hcovers
    have hfront := map_entry_tokens hcode hcovers
    rw [← hfilter, hpieces, List.map_append, List.map_cons, hbefore, hfront, Piece.labelled_append,
      Piece.labelled_token, if_neg htext, List.singleton_append] at hall
    have hentry : token.entry source = (token.kind, text) :=
      (List.cons.inj (List.append_cancel_left hall)).1
    have htoken : token.text source = text := congrArg Prod.snd hentry
    rw [hentry] at hword
    rw [hbefore, hfront, htoken]
    exact word_of_run Piece.covers_hidden silent_hidden hpieces htext hword

/-- Behind a point and a comment a word is no keyword. -/
theorem scriptTokens_memberNames_if :
    let source := "./**/if".toList
    let before : List Token :=
      [⟨0, 1, .symOp⟩, ⟨1, 2, .commentDelimiter⟩, ⟨3, 2, .commentDelimiter⟩]
    let token : Token := ⟨5, 2, .identifier⟩
    scriptTokens false source .empty = before ++ [token] ∧ IsWord (token.entry source) ∧
      ∃ level < levelLimit, ∃ code ∈ codesBelow false level 0 source, BelongsTo false code token ∧
        NamesMember ((before.filter (BelongsTo false code ·)).map (Token.entry source)) := by
  intro source before token
  have hname : identifierLength "if".toList = 2 := identifierLength_of_lower (by simp)
  let embed := scanLevels false 256
  have hpoint : item embed false {} source =
      some ([.token .symOp ".".toList], { member := true }) := by
    have hstart : isIdentifierStart '.' = false := isIdentifierStart_of_isOutside (by decide)
    have hnone : word false source = none := word_eq_none (identifierLength_eq_zero hstart _) _
    rw [item, hnone]
    rfl
  have hcomment : item embed false { member := true } "/**/if".toList =
      some ([.token .commentDelimiter "/*".toList, .token .commentDelimiter "*/".toList],
        { member := true }) := by
    rfl
  have hword : item embed false { member := true } "if".toList =
      some ([.token .identifier "if".toList], { expression := false }) := by
    rw [item_of_identifier (by rw [hname]; decide), word, hname]
    rfl
  have hshown : scriptTokens false source .empty = before ++ [token] := by
    have hfirst : run (item embed false) {} source =
        [.token .symOp ".".toList] ++ run (item embed false) { member := true } "/**/if".toList :=
      run_of_some hpoint (by decide) (by decide)
    have hsecond : run (item embed false) { member := true } "/**/if".toList =
        [.token .commentDelimiter "/*".toList, .token .commentDelimiter "*/".toList] ++
          run (item embed false) { member := true } "if".toList :=
      run_of_some hcomment (by decide) (by decide)
    have hlast : run (item embed false) { member := true } "if".toList =
        [.token .identifier "if".toList] :=
      run_of_step hword rfl
    have hscan : scan false source = run (item embed false) {} source :=
      scan_eq_scanLevels (by decide)
    rw [scriptTokens_eq, hscan, hfirst, hsecond, hlast]
    rfl
  have hentry : IsWord (token.entry source) := ⟨hname, by decide⟩
  obtain ⟨⟨level, hlevel, code, hcode, hbelongs⟩, hkind⟩ :=
    scriptTokens_memberNames false source .empty hshown hentry
  refine ⟨hshown, hentry, level, hlevel, code, hcode, hbelongs, ?_⟩
  by_contra hnone
  have hkeyword := hkind level hlevel code hcode hbelongs
  rw [if_neg hnone] at hkeyword
  exact absurd hkeyword (by decide +kernel)

end Highlight
