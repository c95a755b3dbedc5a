import Highlight.Proofs.Coverage
import Highlight.Proofs.Json.Words
import Highlight.Proofs.Piece.Labels
import Highlight.Proofs.Search
import Highlight.Text.Unicode

/-!
# The lexical parts of JSON texts

A text of the grammar is read into the pieces that its derivation has, by induction over the
derivation. Pieces are put in front of pieces that are read, so that what follows a word is always
at hand: a value ends in front of white space with a comma, a closing bracket or nothing behind it,
and a name in front of white space with a colon. Only how white space is cut into gaps is not
determined.
-/

namespace Highlight

open Piece (Alike labelled textOf)

namespace Json

open Grammar

variable {strict : Bool} {c : Char} {label : Kind} {ps qs : List (Piece Kind)} {r s : List Char}

theorem isSpace_of_mem {u : List Char} (h : Space u) : ∀ c ∈ u, isSpace c := by
  intro c hc
  rcases h c hc with rfl | rfl | rfl | rfl <;> rfl

theorem alike_hidden_append (u v : List Char) :
    Alike (Piece.hidden (u ++ v)) (Piece.hidden u ++ Piece.hidden v) := by
  cases u with
  | nil => exact .refl _
  | cons c u =>
    cases v with
    | nil =>
      rw [List.append_nil]
      exact .refl _
    | cons d v => exact Piece.alike_gap_append (c :: u) (d :: v)

section

variable [Text.IdentifierClasses]

/-- White space is passed over up to what is none. -/
theorem alike_scan_space (strict : Bool) {u : List Char} (hu : ∀ c ∈ u, isSpace c)
    (hr : Text.startsIn isSpace r = false) :
    Alike (scan strict (u ++ r)) (Piece.hidden u ++ scan strict r) := by
  by_cases hempty : u = []
  · subst hempty
    exact .refl _
  · have hhidden : Piece.hidden u = [(.gap u : Piece Kind)] := by
      rw [Piece.hidden, if_neg (by simpa using hempty)]
    have hscan := alike_scan (leaves_item_space strict hempty hu hr)
    rw [hhidden]
    simpa [Piece.text] using hscan

/-- The text of the pieces is read into them, and none of them is an error. -/
structure Reads (strict : Bool) (ps : List (Piece Kind)) : Prop where
  alike : Alike (scan strict (textOf ps)) ps
  proper : ∀ text, .token .error text ∉ ps

theorem reads_nil (strict : Bool) : Reads strict [] := by
  refine ⟨?_, by simp⟩
  rw [Piece.textOf_nil, scan, Construct.repeated, run_nil]
  exact .refl _

/-- What an item leaves is read in front of what is read. -/
theorem Reads.cons (h : (item strict).Leaves ps (textOf qs)) (hps : ∀ text, .token .error text ∉ ps)
    (hqs : Reads strict qs) : Reads strict (ps ++ qs) where
  alike := by
    rw [Piece.textOf_append]
    exact (alike_scan h).trans ((Alike.refl ps).append hqs.alike)
  proper text hmem := by
    rcases List.mem_append.1 hmem with hmem | hmem
    · exact hps text hmem
    · exact hqs.proper text hmem

/-- White space in front of white space is one gap with it. -/
theorem Reads.space {u : List Char} (hu : Space u) (hqs : Reads strict qs) :
    Reads strict (Piece.hidden u ++ qs) where
  alike := by
    obtain ⟨v, w, htext, hv, hw⟩ := Text.exists_run isSpace (textOf qs)
    have hboth : ∀ c ∈ u ++ v, isSpace c :=
      List.forall_mem_append.2 ⟨isSpace_of_mem hu, hv⟩
    have hscan := alike_scan_space strict hv hw
    rw [← htext] at hscan
    have hjoined := (alike_scan_space strict hboth hw).trans
      ((alike_hidden_append u v).append (.refl (scan strict w)))
    rw [List.append_assoc, ← htext, List.append_assoc] at hjoined
    rw [Piece.textOf_append, Piece.textOf_hidden]
    exact hjoined.trans ((Alike.refl (Piece.hidden u)).append (hscan.symm.trans hqs.alike))
  proper text hmem := by
    rcases List.mem_append.1 hmem with hmem | hmem
    · unfold Piece.hidden at hmem
      split_ifs at hmem <;> simp at hmem
    · exact hqs.proper text hmem

theorem Reads.structural (hlabel : punctuation? c = some label) (h : Structural c label ps)
    (hqs : Reads strict qs) : Reads strict (ps ++ qs) := by
  obtain ⟨hbefore, hbehind⟩ := h
  have hne : label ≠ .error := by
    rintro rfl
    unfold punctuation? at hlabel
    split_ifs at hlabel <;> simp at hlabel
  have hsign := Reads.cons (leaves_item_punctuation strict hlabel _) (by simpa using hne.symm)
    (hqs.space hbehind)
  have hall := hsign.space hbefore
  simpa using hall

end

/-- What may follow a value: white space, and behind it a comma, a closing bracket or nothing. -/
def EndsValue (r : List Char) : Prop :=
  ∃ u v, r = u ++ v ∧ Space u ∧ (v = [] ∨ ∃ c w, v = c :: w ∧ c ∈ ",]\x7d".toList)

theorem endsValue_structural (hc : c ∈ ",]\x7d".toList) (h : Structural c label ps)
    (qs : List (Piece Kind)) : EndsValue (textOf (ps ++ qs)) := by
  obtain @⟨before, behind, hbefore, -⟩ := h
  refine ⟨before, c :: (behind ++ textOf qs), ?_, hbefore, .inr ⟨c, _, rfl, hc⟩⟩
  simp [Piece.text]

theorem endsValue_hidden {u : List Char} (h : Space u) :
    EndsValue (textOf (Piece.hidden u ++ [] : List (Piece Kind))) :=
  ⟨u, [], by simp, h, .inl rfl⟩

/-- A class without white space, commas and closing brackets does not go on behind a value. -/
theorem EndsValue.startsIn_eq_false (h : EndsValue r) {p : Char → Bool}
    (hp : ∀ c ∈ " \t\n\r,]\x7d".toList, p c = false) : Text.startsIn p r = false := by
  obtain ⟨u, v, rfl, hu, hv⟩ := h
  cases u with
  | cons c u =>
    apply hp
    rcases hu c List.mem_cons_self with rfl | rfl | rfl | rfl <;> decide
  | nil =>
    rcases hv with rfl | ⟨c, w, rfl, hc⟩
    · rfl
    · have hmem : ∀ d ∈ ",]\x7d".toList, d ∈ " \t\n\r,]\x7d".toList := by simp
      exact hp c (hmem c hc)

theorem stringKind_append {u v : List Char} (hu : Space u) (hv : Text.startsIn isSpace v = false) :
    stringKind true (u ++ v) = if Text.startsWith ":" v then .markupAttr else .string := by
  have hspan : Text.spanLength isSpace (u ++ v) = u.length :=
    Text.spanLength_append_iff.2 ⟨isSpace_of_mem hu, hv⟩
  rw [stringKind, hspan, List.drop_left, Bool.true_and]

theorem EndsValue.stringKind_eq (h : EndsValue r) : stringKind true r = .string := by
  obtain ⟨u, v, rfl, hu, hv⟩ := h
  rcases hv with rfl | ⟨c, w, rfl, hc⟩
  · rw [stringKind_append hu rfl]
    rfl
  · have hall : ∀ d ∈ ",]\x7d".toList, isSpace d = false ∧ d ≠ ':' := by simp [isSpace]
    obtain ⟨hspace, hcolon⟩ := hall c hc
    rw [stringKind_append (v := c :: w) hu hspace, if_neg]
    rw [Text.startsWith_iff]
    rintro ⟨rest, hrest⟩
    exact hcolon (List.cons.inj hrest).1.symm

theorem stringKind_colon (h : Structural ':' label ps) (qs : List (Piece Kind)) :
    stringKind true (textOf (ps ++ qs)) = .markupAttr := by
  obtain @⟨before, behind, hbefore, -⟩ := h
  have htext : textOf (Piece.hidden before ++ .token label [':'] :: Piece.hidden behind ++ qs) =
      before ++ ':' :: (behind ++ textOf qs) := by
    simp [Piece.text]
  rw [htext, stringKind_append hbefore (by rfl)]
  exact if_pos (Text.startsWith_iff.2 ⟨behind ++ textOf qs, rfl⟩)

theorem isIdentifierPart_eq_false [Text.IdentifierClasses] (hc : c ∈ " \t\n\r,]\x7d".toList) :
    JavaScript.isIdentifierPart c = false := by
  have hall : ∀ d ∈ [' ', '\t', '\n', '\r', ',', ']', '\x7d'],
      JavaScript.isIdentifierPart d = false := by
    simp only [List.forall_mem_cons]
    exact ⟨rfl, rfl, rfl, rfl, rfl, rfl, rfl, List.forall_mem_nil _⟩
  exact hall c hc

theorem error_not_mem_stringParts {opening : List Char} (h : StringParts label opening ps)
    (hlabel : label ≠ .error) (text : List Char) : .token .error text ∉ ps := by
  have hshown (part : List Char) : .token .error text ∉ Piece.shown label part := by
    unfold Piece.shown
    split_ifs
    · simp
    · simpa using fun h ↦ absurd h.symm hlabel
  induction h with
  | close _ => exact hshown _
  | @escape opening part escape rest _ _ _ ih =>
    rw [List.mem_append, List.mem_cons, not_or, not_or]
    exact ⟨hshown _, by simp, ih⟩

variable [Text.IdentifierClasses]

theorem Reads.string (h : Grammar.String label ps) (hlabel : label ≠ .error)
    (hkind : stringKind true (textOf qs) = label) (hqs : Reads strict qs) :
    Reads strict (ps ++ qs) :=
  hqs.cons (leaves_item_string strict (leaves_string h hkind)) (error_not_mem_stringParts h hlabel)

theorem Reads.literalName (h : LiteralName ps) (hends : EndsValue (textOf qs))
    (hqs : Reads strict qs) : Reads strict (ps ++ qs) := by
  have hr : Text.startsIn JavaScript.isIdentifierPart (textOf qs) = false :=
    hends.startsIn_eq_false fun _ ↦ isIdentifierPart_eq_false
  have hentry : ∃ entry ∈ literalNames,
      ps = [.token entry.2 entry.1.toList] ∧ entry.2 ≠ .error := by
    cases h with
    | false => exact ⟨("false", .bool), by decide, rfl, by decide⟩
    | null => exact ⟨("null", .null), by decide, rfl, by decide⟩
    | true => exact ⟨("true", .bool), by decide, rfl, by decide⟩
  obtain ⟨entry, hmem, rfl, hlabel⟩ := hentry
  exact hqs.cons (leaves_item_literalName strict hmem hr) (by simpa using hlabel.symm)

theorem Reads.number (h : Number s) (hends : EndsValue (textOf qs)) (hqs : Reads strict qs) :
    Reads strict ([.token .number s] ++ qs) := by
  have hr : Text.startsIn continuesNumber (textOf qs) = false :=
    hends.startsIn_eq_false (by simp [continuesNumber])
  exact hqs.cons (leaves_item_number strict (leaves_number h hr)) (by simp)

mutual

/-- Each production puts its pieces in front of what is read behind them. -/
theorem reads_value {ps qs : List (Piece Kind)} (h : Value ps) (hends : EndsValue (textOf qs))
    (hqs : Reads strict qs) : Reads strict (ps ++ qs) := by
  match h with
  | .literalName hname => exact hqs.literalName hname hends
  | .number hnumber => exact hqs.number hnumber hends
  | .string hstring => exact hqs.string hstring (by decide) hends.stringKind_eq
  | .emptyArray hopening hclosing =>
    rw [List.append_assoc]
    exact (hqs.structural rfl hclosing).structural rfl hopening
  | .array hopening helements hclosing =>
    have hinside := reads_elements helements (endsValue_structural (by decide) hclosing qs)
      (hqs.structural rfl hclosing)
    rw [List.append_assoc, List.append_assoc]
    exact hinside.structural rfl hopening
  | .emptyObject hopening hclosing =>
    rw [List.append_assoc]
    exact (hqs.structural rfl hclosing).structural rfl hopening
  | .object hopening hmembers hclosing =>
    have hinside := reads_members hmembers (endsValue_structural (by decide) hclosing qs)
      (hqs.structural rfl hclosing)
    rw [List.append_assoc, List.append_assoc]
    exact hinside.structural rfl hopening

theorem reads_elements {ps qs : List (Piece Kind)} (h : Elements ps) (hends : EndsValue (textOf qs))
    (hqs : Reads strict qs) : Reads strict (ps ++ qs) := by
  match h with
  | .last hvalue => exact reads_value hvalue hends hqs
  | .cons hvalue hseparator helements =>
    have hbehind := (reads_elements helements hends hqs).structural rfl hseparator
    rw [List.append_assoc, List.append_assoc]
    exact reads_value hvalue (endsValue_structural (by decide) hseparator _) hbehind

theorem reads_members {ps qs : List (Piece Kind)} (h : Members ps) (hends : EndsValue (textOf qs))
    (hqs : Reads strict qs) : Reads strict (ps ++ qs) := by
  match h with
  | .last hmember => exact reads_member hmember hends hqs
  | .cons hmember hseparator hmembers =>
    have hbehind := (reads_members hmembers hends hqs).structural rfl hseparator
    rw [List.append_assoc, List.append_assoc]
    exact reads_member hmember (endsValue_structural (by decide) hseparator _) hbehind

theorem reads_member {ps qs : List (Piece Kind)} (h : Member ps) (hends : EndsValue (textOf qs))
    (hqs : Reads strict qs) : Reads strict (ps ++ qs) := by
  match h with
  | .mk hname hseparator hvalue =>
    have hbehind := (reads_value hvalue hends hqs).structural rfl hseparator
    rw [List.append_assoc, List.append_assoc]
    exact hbehind.string hname (by decide) (stringKind_colon hseparator _)

end

theorem reads_document (strict : Bool) (h : Document ps) : Reads strict ps := by
  obtain ⟨hbefore, hvalue, hbehind⟩ := h
  have hend := (reads_nil strict).space hbehind
  have hall := (reads_value hvalue (endsValue_hidden hbehind) hend).space hbefore
  simpa using hall

end Json

/-- A JSON text is scanned without an error into exactly the parts that the grammar gives it,
strictly or not: the tokens lie where the labelled pieces of the derivation do, and show them in
order. -/
theorem highlight_json_decomposes [Text.IdentifierClasses]
    {ps : List (Piece Kind)} (h : Json.Grammar.Document ps)
    (strict : Bool) (sink : Sink) :
    let source := textOf ps
    let tokens := (highlight .json ⟨false, strict⟩ source sink).1.currentScan.toList
    tokens = Piece.tokens 0 ps ∧
      tokens.map (fun token ↦ (token.kind, token.text source)) = labelled ps ∧
      ∀ token ∈ tokens, token.kind ≠ .error := by
  intro source tokens
  have hreads := Json.reads_document strict h
  have htokens : tokens = Piece.tokens 0 ps :=
    calc
      _ = Language.json.tokens ⟨false, strict⟩ source := currentScan_highlight _ _ _ _
      _ = Piece.tokens 0 (Json.scan strict source) := rfl
      _ = Piece.tokens 0 ps := hreads.alike.tokens_eq 0
  have hlabels : tokens.map (fun token ↦ (token.kind, token.text source)) = labelled ps := by
    have hshown := Piece.map_text_tokens [] [] ps
    rw [List.append_nil] at hshown
    rw [htokens]
    exact hshown
  refine ⟨htokens, hlabels, fun token hmem herror ↦ ?_⟩
  have hpiece : (token.kind, token.text source) ∈ labelled ps := by
    rw [← hlabels]
    exact List.mem_map_of_mem hmem
  rw [herror] at hpiece
  exact hreads.proper _ (Piece.mem_labelled.1 hpiece).1

/-- A name with an escape in it, white space on both sides of its colon, and two kinds of value. -/
theorem decomposes_member :
    let source := "\x7b\"k\\n\" : [true, -1.5e3]\x7d".toList
    let tokens := (highlight .json ⟨false, true⟩ source .empty).1.currentScan.toList
    tokens.map (fun token ↦ (token.kind, token.text source)) =
      [(.symBrace, ['\x7b']), (.markupAttr, ['"', 'k']), (.escape, ['\\', 'n']),
        (.markupAttr, ['"']), (.symPunc, [':']), (.symSquare, ['[']), (.bool, "true".toList),
        (.symPunc, [',']), (.number, "-1.5e3".toList), (.symSquare, [']']),
        (.symBrace, ['\x7d'])] := by
  intro source tokens
  have hnone : Json.Grammar.Space [] := List.forall_mem_nil _
  have hblank : Json.Grammar.Space [' '] := by simp [Json.Grammar.Space]
  have hplain : ∀ c ∈ ['k'], Json.Grammar.IsUnescaped c := by
    simp [Json.Grammar.IsUnescaped]
  have hescape : Json.Grammar.Escape ['\\', 'n'] := .short (by decide)
  have hname : Json.Grammar.String .markupAttr _ :=
    .escape hplain hescape (.close (List.forall_mem_nil _))
  have hnumber : Json.Grammar.Number ['-', '1', '.', '5', 'e', '3'] :=
    @Json.Grammar.Number.mk ['-'] ['1'] ['.', '5'] ['e', '3'] (.inr rfl)
      (.positive (by decide) (by decide) (List.forall_mem_nil _)) (.mk ⟨by simp, by simp⟩)
      (@Json.Grammar.Exponent.mk 'e' [] ['3'] (.inl rfl) (.inl rfl) ⟨by simp, by simp⟩)
  have helements := Json.Grammar.Elements.cons (.literalName .true) (.mk hnone hblank)
    (.last (.number hnumber))
  have hmember := Json.Grammar.Member.mk hname (.mk hblank hblank)
    (.array (.mk hnone hnone) helements (.mk hnone hnone))
  have hdocument := Json.Grammar.Document.mk hnone
    (.object (.mk hnone hnone) (.last hmember) (.mk hnone hnone)) hnone
  exact (highlight_json_decomposes hdocument true .empty).2.1

end Highlight
