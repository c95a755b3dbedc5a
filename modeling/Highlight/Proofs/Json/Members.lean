import Highlight.Proofs.Json.Coverage
import Highlight.Proofs.Json.Decomposition
import Highlight.Proofs.Piece.Shown
import Highlight.Text.Unicode

/-!
# The names of members

Whether a string is the name of a member is found out before it is shown, by looking behind it past
white space. The scan passes over the same white space, so what the look-ahead comes to is where the
next token begins, and a colon is a token of its own. A comment is a token too. Therefore a name is
told from a value by the first token behind it, and where comments may stand between a name and its
colon the two are not told apart.
-/

namespace Highlight

open Piece (GapsIn labelled textOf)

def Token.isComment (token : Token) : Bool :=
  token.kind == .comment || token.kind == .commentDelimiter

def Token.isColon (source : List Char) (token : Token) : Bool :=
  token.kind == .symPunc && token.text source == [':']

/-- The kind of a string, by a token behind it: the name of a member stands in front of a colon. -/
def Json.kindBefore (source : List Char) (terminated : Bool) (next : Option Token) : Kind :=
  if terminated && next.any (·.isColon source) then .markupAttr else .string

namespace Json

section

variable [Text.IdentifierClasses]

theorem labelled_scan_colon (strict : Bool) {u : List Char} (hu : ∀ c ∈ u, isSpace c)
    (rest : List Char) : labelled (scan strict (u ++ ':' :: rest)) =
      (.symPunc, [':']) :: labelled (scan strict rest) := by
  have hspaces := alike_scan_space strict hu (r := ':' :: rest) rfl
  have hsign := alike_scan (leaves_item_punctuation strict (c := ':') rfl rest)
  calc
    _ = labelled (Piece.hidden u) ++ labelled (scan strict (':' :: rest)) := by
      rw [hspaces.labelled_eq, Piece.labelled_append]
    _ = labelled (scan strict (':' :: rest)) := by
      rw [Piece.labelled_hidden, List.nil_append]
    _ = _ := hsign.labelled_eq

/-- The first token of a scan is a colon exactly where the look-ahead comes to one. -/
theorem head?_labelled_scan (strict : Bool) (after : List Char) :
    (labelled (scan strict after)).head? = some (.symPunc, [':']) ↔
      Text.startsWith ":" (after.drop (Text.spanLength isSpace after)) := by
  constructor
  · intro hfirst
    obtain ⟨more, hmore⟩ := List.head?_eq_some_iff.1 hfirst
    obtain ⟨spaces, rest, htext, hspaces⟩ :=
      Piece.exists_of_labelled_cons hmore ((gapsIn_item strict).repeated after)
    have hafter : after = spaces ++ ':' :: rest :=
      (covers_scan strict after).textOf_eq.symm.trans htext
    have hlength : Text.spanLength isSpace (spaces ++ ':' :: rest) = spaces.length :=
      Text.spanLength_append_iff.2 ⟨hspaces, rfl⟩
    rw [hafter, hlength, List.drop_left, Text.startsWith_iff]
    exact List.prefix_append [':'] rest
  · intro hcolon
    obtain ⟨rest, hrest⟩ := Text.startsWith_iff.1 hcolon
    have hsplit := List.take_append_drop (Text.spanLength isSpace after) after
    rw [← hrest] at hsplit
    rw [← hsplit, List.head?_eq_some_iff]
    exact ⟨_, labelled_scan_colon strict Text.forall_mem_take_spanLength rest⟩

theorem map_text_tokens_scan (strict : Bool) (front after : List Char) :
    (Piece.tokens (Text.byteLength front) (scan strict after)).map
        (fun token ↦ (token.kind, token.text (front ++ after))) =
      labelled (scan strict after) := by
  have hlabels := Piece.map_text_tokens front [] (scan strict after)
  rwa [List.append_nil, (covers_scan strict after).textOf_eq] at hlabels

/-- The kind of a string, by the first token of the scan that begins behind it. -/
theorem stringKind_eq (strict terminated : Bool) (front after : List Char) :
    stringKind terminated after = kindBefore (front ++ after) terminated
      (Piece.tokens (Text.byteLength front) (scan strict after)).head? := by
  have hcolon : Text.startsWith ":" (after.drop (Text.spanLength isSpace after)) =
      (Piece.tokens (Text.byteLength front) (scan strict after)).head?.any
        (·.isColon (front ++ after)) := by
    rw [Bool.eq_iff_iff, ← head?_labelled_scan strict, ← map_text_tokens_scan strict front,
      List.head?_map, Option.map_eq_some_iff, Option.any_eq_true]
    simp only [Token.isColon, Bool.and_eq_true, beq_iff_eq, Prod.mk.injEq]
  rw [stringKind, kindBefore, hcolon]

end

theorem isColon_eq_false {token : Token} (h : token.isComment) (source : List Char) :
    token.isColon source = false := by
  simp only [Token.isComment, Bool.or_eq_true, beq_iff_eq] at h
  rcases h with h | h <;> simp [Token.isColon, h]

/-- A string in front of a comment is no name, and in front of anything else the first token is also
the first one that belongs to no comment. -/
theorem kindBefore_head? (source : List Char) (terminated : Bool) (right : List Token) :
    kindBefore source terminated right.head? =
      if right.head?.any Token.isComment then .string
      else kindBefore source terminated (right.find? (!·.isComment)) := by
  cases right with
  | nil => rfl
  | cons token right =>
    by_cases hcomment : token.isComment
    · simp [kindBefore, hcomment, isColon_eq_false hcomment]
    · simp [hcomment]

/-- What is not shown as a comment. -/
def NoComment (entry : Entry) : Prop := entry.1 ∉ [Kind.comment, .commentDelimiter]

theorem shows_string : string.Shows fun es ↦ ∀ entry ∈ es, NoComment entry := by
  rintro s ps h ⟨kind, text⟩ hentry
  unfold string at h
  simp only at h
  split_ifs at h with hlength
  obtain rfl := Option.some.inj h
  have hpiece := shownIn_stringParts _ hlength _ (Piece.mem_labelled.1 hentry).1
  obtain ⟨label, part, hsame, hlabel⟩ := hpiece.shown
  obtain ⟨rfl, rfl⟩ := Piece.token.inj hsame
  rcases hlabel with rfl | hescape
  · have hall : ∀ kind ∈ [Kind.markupAttr, .string], NoComment (kind, text) := by
      simp [NoComment]
    exact hall _ (stringKind_mem _ _)
  · generalize kind = label at hescape
    cases hescape <;> simp [NoComment]

theorem shows_literalName [Text.IdentifierClasses]
    : literalName.Shows fun es ↦ ∀ entry ∈ es, NoComment entry := by
  intro s ps h
  obtain ⟨n, kind, hname, rfl⟩ := literalName_eq_some h
  obtain ⟨entry, hentry, -, rfl, -⟩ := prefix_of_literalName? hname
  have hall : ∀ entry ∈ literalNames, ∀ text, NoComment (entry.2, text) := by
    simp [literalNames, NoComment]
  exact (composes_forall NoComment).labelled_token (List.forall_mem_singleton.2 (hall _ hentry _))

theorem shows_punctuation : punctuation.Shows fun es ↦ ∀ entry ∈ es, NoComment entry := by
  intro s ps h
  obtain ⟨c, rest, kind, -, hkind, rfl⟩ := punctuation_eq_some h
  refine (composes_forall NoComment).labelled_token (List.forall_mem_singleton.2 ?_)
  unfold punctuation? at hkind
  split_ifs at hkind <;> obtain rfl := Option.some.inj hkind <;> simp [NoComment]

variable [Text.IdentifierClasses]

/-- In strict mode nothing is shown as a comment. -/
theorem noComment_of_mem_scan (s : List Char) :
    ∀ entry ∈ labelled (scan true s), NoComment entry := by
  have hform := composes_forall NoComment
  have hmeasured {kind : Kind} (h : ∀ text, NoComment (kind, text)) (length : List Char → Nat) :
      (Construct.measured kind length).Shows fun es ↦ ∀ entry ∈ es, NoComment entry :=
    Construct.shows_measured hform (fun text ↦ List.forall_mem_singleton.2 (h text)) length
  have hcomment : (Construct.onlyIf (!true) JavaScript.comment).Shows
      fun es ↦ ∀ entry ∈ es, NoComment entry := by
    intro t ps hps
    exact Bool.noConfusion (Construct.onlyIf_eq_some.1 hps).1
  refine Construct.Shows.repeated hform (Construct.shows_firstOf ?_) s
  simp only [List.forall_mem_cons]
  exact ⟨Construct.shows_skipSome hform _, hcomment, shows_string,
    hmeasured (by simp [NoComment]) _, shows_literalName, shows_punctuation,
    hmeasured (by simp [NoComment]) _, List.forall_mem_nil _⟩

/-- No token of a strict scan belongs to a comment. -/
theorem isComment_eq_false {front after : List Char} {token : Token}
    (h : token ∈ Piece.tokens (Text.byteLength front) (scan true after)) :
    token.isComment = false := by
  have hentry : (token.kind, token.text (front ++ after)) ∈ labelled (scan true after) := by
    rw [← map_text_tokens_scan true front after]
    exact List.mem_map_of_mem h
  have hkind := noComment_of_mem_scan after _ hentry
  simpa [NoComment, Token.isComment] using hkind

end Json

/-- In JSON, without merging, a string is the name of a member if it is closed and the first token
behind it is a colon. That is the rule for the first token behind it that belongs to no comment,
unless a comment stands directly behind the string, which is then never a name; and in strict mode
there are no comments. -/
theorem highlight_json_names [Text.IdentifierClasses]
    (options : Options) (source : List Char) (sink : Sink)
    (hplain : options.coalescing = false) {before : List (Piece Kind)} {rest : List Char}
    (hreaches : (Json.item options.strict).Reaches source before rest)
    (h : (Json.stringExtent rest).length ≠ 0) :
    let tokens := (highlight .json options source sink).1.currentScan.toList
    let extent := Json.stringExtent rest
    let begin := Text.byteLength (textOf before)
    let stop := begin + Text.byteLength (rest.take extent.length)
    ∃ left inside right, tokens = left ++ inside ++ right ∧
      (∀ token ∈ left, token.stop ≤ begin) ∧ Tiles stop begin inside ∧
      (∀ token ∈ right, stop ≤ token.begin) ∧
      (∀ token ∈ inside, token.kind ∉ [.escape, .error] →
        token.kind = if right.head?.any Token.isComment then .string
          else Json.kindBefore source extent.terminated (right.find? (!·.isComment))) ∧
      (options.strict → ∀ token ∈ right, token.isComment = false) := by
  intro tokens extent begin stop
  have htokens : tokens = Piece.tokens 0 (Json.scan options.strict source) := by
    rw [show tokens = _ from currentScan_highlight .json options source sink, Language.tokens,
      hplain]
    rfl
  have hsource := (hreaches.repeated_eq (Json.advances_item _) (Json.fits_item _)).2
  have hcovers (kind : Kind) := Json.covers_stringParts kind h
  have hfront : source = textOf before ++ rest.take extent.length ++ rest.drop extent.length := by
    rw [List.append_assoc, List.take_append_drop, hsource]
  refine ⟨_, _, _, htokens.trans (Json.tokens_of_reaches hreaches h), ?_, ?_, ?_, ?_, ?_⟩
  · intro token htoken
    have hbounds := (Piece.bounds_of_mem_tokens htoken).2
    rwa [Nat.zero_add] at hbounds
  · have htiles := Piece.tiles_tokens begin (Json.gapsIn_stringParts
      (Json.stringKind extent.terminated (rest.drop extent.length)) h)
    rwa [(hcovers _).textOf_eq] at htiles
  · exact fun token htoken ↦ (Piece.bounds_of_mem_tokens htoken).1
  · intro token htoken hshown
    have hkind : token.kind = Json.stringKind extent.terminated (rest.drop extent.length) := by
      obtain ⟨text, hmem⟩ := Piece.exists_of_mem_tokens htoken
      obtain ⟨label, part, hpiece, hlabel⟩ := (Json.shownIn_stringParts _ h _ hmem).shown
      obtain ⟨rfl, rfl⟩ := Piece.token.inj hpiece
      refine hlabel.resolve_right fun hescape ↦ hshown ?_
      generalize token.kind = label at hescape
      cases hescape <;> decide
    have hnext := Json.stringKind_eq options.strict extent.terminated
      (textOf before ++ rest.take extent.length) (rest.drop extent.length)
    rw [← hfront, Text.byteLength_append] at hnext
    rw [hkind, ← Json.kindBefore_head?, hnext]
  · intro hstrict token htoken
    rw [hstrict, ← Text.byteLength_append] at htoken
    exact Json.isComment_eq_false htoken

/-- A name with white space in front of its colon. -/
theorem highlight_json_names_space :
    let source := "\"k\" \n: 1".toList
    let tokens := (highlight .json {} source .empty).1.currentScan.toList
    tokens.map Token.kind = [.markupAttr, .symPunc, .number] ∧
      ∃ left inside right, tokens = left ++ inside ++ right ∧ (∀ token ∈ left, token.stop ≤ 0) ∧
        Tiles 3 0 inside ∧ (∀ token ∈ right, 3 ≤ token.begin) ∧
        ∀ token ∈ inside, token.kind ∉ [.escape, .error] →
          token.kind = if right.head?.any Token.isComment then .string
            else Json.kindBefore source true (right.find? (!·.isComment)) := by
  intro source tokens
  have hextent : Json.stringExtent source = ⟨3, true⟩ := by decide +kernel
  have hfront : Text.byteLength (source.take 3) = 3 := by decide +kernel
  obtain ⟨left, inside, right, htokens, hleft, hinside, hright, hkinds, -⟩ :=
    @highlight_json_names _ {} source .empty rfl [] source .start (by rw [hextent]; decide)
  rw [hextent, hfront] at hinside hright
  rw [hextent] at hkinds
  exact ⟨by decide +kernel, left, inside, right, htokens, hleft, hinside, hright, hkinds⟩

/-- A name with a comment in front of its colon is shown as a string. -/
theorem highlight_json_names_comment :
    let source := "\x7b\"a\"/**/:1\x7d".toList
    let tokens := (highlight .json {} source .empty).1.currentScan.toList
    Json.stringExtent (source.drop 1) = ⟨3, true⟩ ∧
      ∃ left right next, tokens = left ++ ⟨1, 3, .string⟩ :: right ∧
        right.find? (!·.isComment) = some next ∧ next.isColon source := by
  refine ⟨by decide +kernel, [⟨0, 1, .symBrace⟩],
    [⟨4, 2, .commentDelimiter⟩, ⟨6, 2, .commentDelimiter⟩, ⟨8, 1, .symPunc⟩, ⟨9, 1, .number⟩,
      ⟨10, 1, .symBrace⟩], ⟨8, 1, .symPunc⟩, ?_, ?_, ?_⟩
  · decide +kernel
  · rfl
  · decide +kernel

end Highlight
