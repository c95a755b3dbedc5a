import Highlight.Proofs.Coverage
import Highlight.Proofs.Json.Item
import Highlight.Proofs.Piece.Labels
import Highlight.Text.Unicode

/-!
# What scans of JSON leave out, and where its strings end

A scan of JSON passes over white space and over nothing else. The pieces of a string have no gaps at
all. An escape is measured on the whole text behind it, but it is a backslash with a character that
the first pass over the string has paired with it, or with digits, which end no string; so the
second pass stays within what the first one has measured, whatever follows.
-/

namespace Highlight

open Piece (Alike GapsIn labelled lasting textOf width)

namespace Json

/-- Every piece of a string is shown, as a part or as an escape, and lies on one line. -/
structure ShownIn (kind : Kind) (piece : Piece Kind) : Prop where
  shown : ∃ label text, piece = .token label text ∧ (label = kind ∨ ShownEscape label text)
  line : ∀ c ∈ piece.text, isLineEnd c = false

theorem ShownEscape.isLineEnd_eq_false {label : Kind} {text : List Char}
    (h : ShownEscape label text) : ∀ c ∈ text, isLineEnd c = false := by
  cases h with
  | known hescape =>
    cases hescape with
    | short hc =>
      simp only [List.forall_mem_cons]
      exact ⟨by decide, isLineEnd_of_isEscapable (isEscapable_iff.2 hc), List.forall_mem_nil _⟩
    | code _ hdigits =>
      simp only [List.forall_mem_cons]
      exact ⟨by decide, by decide, fun d hd ↦ (isPlain_of_isHexDigit (hdigits d hd)).2.1⟩
  | unknown hc =>
    simp only [List.forall_mem_cons]
    exact ⟨by decide, hc, List.forall_mem_nil _⟩

theorem shownIn_shown {kind : Kind} {part : List Char} (h : ∀ c ∈ part, isLineEnd c = false) :
    ∀ piece ∈ Piece.shown kind part, ShownIn kind piece := by
  unfold Piece.shown
  split_ifs
  · exact List.forall_mem_nil _
  · rw [List.forall_mem_singleton]
    exact ⟨⟨kind, part, rfl, .inl rfl⟩, h⟩

theorem shownIn_stringPartsFrom {kind : Kind} {part : List Char} {left : Nat} {s : List Char}
    (hleft : left = 0 ∨ left = (stringExtentFrom 0 s).length)
    (hpart : ∀ c ∈ part, isLineEnd c = false) :
    ∀ piece ∈ stringPartsFrom kind [] part left s, ShownIn kind piece := by
  refine stringPartsFrom_induction (motive := fun part _ _ ps ↦
    (∀ c ∈ part, isLineEnd c = false) → ∀ piece ∈ ps, ShownIn kind piece) ?_ ?_ ?_ part hleft hpart
  · intro part _ hpart
    exact shownIn_shown fun c hc ↦ hpart c (List.mem_reverse.1 hc)
  · intro part _ c _ ps hc hind hpart
    exact hind (List.forall_mem_cons.2 ⟨hc, hpart⟩)
  · intro part _ label text _ ps hescape hind hpart
    rw [List.forall_mem_append, List.forall_mem_cons]
    refine ⟨shownIn_shown fun c hc ↦ hpart c (List.mem_reverse.1 hc), ?_, ?_⟩
    · exact ⟨⟨label, text, rfl, .inr hescape⟩, hescape.isLineEnd_eq_false⟩
    · exact hind (List.forall_mem_nil _)

theorem shownIn_stringParts (kind : Kind) {s : List Char} (h : (stringExtent s).length ≠ 0) :
    ∀ piece ∈ stringParts kind (stringExtent s).length s, ShownIn kind piece := by
  obtain ⟨rest, -, -, hparts⟩ := stringParts_eq kind h
  rw [hparts]
  apply shownIn_stringPartsFrom (.inr rfl)
  rw [List.forall_mem_singleton]
  decide

theorem gapsIn_stringParts {form : List Char → Prop} (kind : Kind) {s : List Char}
    (h : (stringExtent s).length ≠ 0) :
    GapsIn form (stringParts kind (stringExtent s).length s) := by
  intro text hmem
  obtain ⟨label, part, hpiece, -⟩ := (shownIn_stringParts kind h _ hmem).shown
  exact absurd hpiece (by simp)

theorem gapsIn_string {form : List Char → Prop} : string.GapsIn form := by
  intro s ps h
  unfold string at h
  simp only at h
  split_ifs at h with hlength
  obtain rfl := Option.some.inj h
  exact gapsIn_stringParts _ hlength

theorem gapsIn_literalName [Text.IdentifierClasses]
    {form : List Char → Prop} : literalName.GapsIn form := by
  intro s ps h
  obtain ⟨n, kind, -, rfl⟩ := literalName_eq_some h
  exact Piece.gapsIn_token _ _

theorem gapsIn_punctuation {form : List Char → Prop} : punctuation.GapsIn form := by
  intro s ps h
  obtain ⟨c, rest, kind, -, -, rfl⟩ := punctuation_eq_some h
  exact Piece.gapsIn_token _ _

theorem gapsIn_item [Text.IdentifierClasses] (strict : Bool) :
    (item strict).GapsIn fun text ↦ ∀ c ∈ text, isSpace c := by
  apply Construct.gapsIn_firstOf
  simp only [List.forall_mem_cons]
  exact ⟨Construct.gapsIn_skipSome fun _ ↦ Text.forall_mem_take_spanLength,
    Construct.gapsIn_onlyIf JavaScript.gapsIn_comment, gapsIn_string, Construct.gapsIn_measured _ _,
    gapsIn_literalName, gapsIn_punctuation, Construct.gapsIn_measured _ _, List.forall_mem_nil _⟩

theorem utf8Size_of_isSpace {c : Char} (h : isSpace c) : c.utf8Size = 1 := by
  have hall : ∀ d ∈ " \t\n\r".toList, d.utf8Size = 1 := by simp [Char.utf8Size]
  exact hall c (isSpace_iff.1 h)

/-- A byte of a text is in a token, or it is white space. -/
theorem byte_of_scan [Text.IdentifierClasses] (strict : Bool) {source : List Char} {n : Nat}
    (hn : n < Text.byteLength source) :
    let tokens := Piece.tokens 0 (scan strict source)
    tokens.any (·.covers n) ∨
      tokens.any (·.covers n) = false ∧
      ∃ front c rest, source = front ++ c :: rest ∧ n = Text.byteLength front ∧ isSpace c := by
  intro tokens
  have htext : textOf (scan strict source) = source := (covers_scan strict source).textOf_eq
  rcases Piece.covered_or_char ((gapsIn_item strict).repeated source)
    (by change n < Text.byteLength (textOf (scan strict source)); rwa [htext]) with
    hcovered | ⟨huncovered, front, c, rest, hsplit, hle, hlt, hspace⟩
  · exact .inl hcovered
  · rw [utf8Size_of_isSpace hspace] at hlt
    refine .inr ⟨huncovered, front, c, rest, htext.symm.trans hsplit, ?_, hspace⟩
    exact Nat.le_antisymm (Nat.le_of_lt_succ hlt) hle

theorem stringKind_mem (terminated : Bool) (after : List Char) :
    stringKind terminated after ∈ [Kind.markupAttr, .string] := by
  unfold stringKind
  split_ifs
  · exact List.mem_cons_self
  · exact List.mem_cons_of_mem _ List.mem_cons_self

/-- Where a string stands, its pieces are read, and then what is behind the end that the first pass
has found. -/
theorem alike_scan_string [Text.IdentifierClasses]
    (strict : Bool) {s : List Char} (h : (stringExtent s).length ≠ 0) :
    let extent := stringExtent s
    let behind := s.drop extent.length
    Alike (scan strict s) (stringParts (stringKind extent.terminated behind) extent.length s ++
      scan strict behind) := by
  intro extent behind
  have hstring : string s =
      some (stringParts (stringKind extent.terminated behind) extent.length s) := by
    unfold string
    exact if_neg h
  have hle : extent.length ≤ s.length := hasRoom_stringExtent.le_length s
  have hwidth := (covers_string hstring).2.2
  rw [List.length_take, Nat.min_eq_left hle] at hwidth
  have hleaves := leaves_item_string strict (fits_string.leaves hstring)
  have hscan := alike_scan hleaves
  rw [Piece.textOf_lasting, (fits_string.read s _ hstring).textOf_append_drop, hwidth] at hscan
  exact hscan.trans ((Piece.alike_lasting _).symm.append (.refl _))

/-- The tokens show a string from the byte `begin` to the byte `stop`: end to end, none of them
empty, each on one line, its escapes such as JSON knows, and every error a backslash with one
character. -/
structure ShowString (source : List Char) (begin stop : Nat) (tokens : List Token) : Prop where
  tiles : Tiles stop begin tokens
  length_pos : ∀ token ∈ tokens, 0 < token.length
  line : ∀ token ∈ tokens, '\n' ∉ token.text source ∧ '\r' ∉ token.text source
  escape : ∀ token ∈ tokens, token.kind = .escape → Grammar.Escape (token.text source)
  error : ∀ token ∈ tokens, token.kind = .error → ∃ c, token.text source = ['\\', c]

/-- The tokens of a string tile it, escapes among its parts. -/
theorem showString_tokens {kind : Kind} (hkind : kind ∈ [Kind.markupAttr, .string])
    (front : List Char) {s : List Char} (h : (stringExtent s).length ≠ 0) :
    let n := (stringExtent s).length
    ShowString (front ++ s) (Text.byteLength front)
      (Text.byteLength front + Text.byteLength (s.take n))
      (Piece.tokens (Text.byteLength front) (stringParts kind n s)) := by
  intro n
  have hcovers := covers_stringParts kind h
  have hlabels := Piece.map_text_tokens front (s.drop n) (stringParts kind n s)
  rw [hcovers.textOf_eq, List.take_append_drop] at hlabels
  have hshown {token : Token}
      (htoken : token ∈ Piece.tokens (Text.byteLength front) (stringParts kind n s)) :
      ShownIn kind (.token token.kind (token.text (front ++ s))) := by
    apply shownIn_stringParts kind h
    have hmem : (token.kind, token.text (front ++ s)) ∈ labelled (stringParts kind n s) := by
      rw [← hlabels]
      exact List.mem_map_of_mem htoken
    exact (Piece.mem_labelled.1 hmem).1
  have hescape {token : Token}
      (htoken : token ∈ Piece.tokens (Text.byteLength front) (stringParts kind n s))
      (hother : token.kind ∉ [Kind.markupAttr, .string]) :
      ShownEscape token.kind (token.text (front ++ s)) := by
    obtain ⟨label, text, hpiece, hlabel⟩ := (hshown htoken).shown
    obtain ⟨rfl, rfl⟩ := Piece.token.inj hpiece
    rcases hlabel with hsame | hescape
    · exact absurd (hsame ▸ hkind) hother
    · exact hescape
  refine ⟨?_, fun token ↦ Piece.length_pos_of_mem_tokens, ?_, ?_, ?_⟩
  · rw [← hcovers.textOf_eq]
    exact Piece.tiles_tokens _ (gapsIn_stringParts kind h)
  · intro token htoken
    have hline := (hshown htoken).line
    exact ⟨fun hmem ↦ absurd (hline _ hmem) (by decide),
      fun hmem ↦ absurd (hline _ hmem) (by decide)⟩
  · intro token htoken hlabel
    have hshown := hescape htoken (by rw [hlabel]; decide)
    rw [hlabel] at hshown
    cases hshown with
    | known h => exact h
  · intro token htoken hlabel
    have hshown := hescape htoken (by rw [hlabel]; decide)
    rw [hlabel] at hshown
    generalize token.text (front ++ s) = text at hshown
    cases hshown with
    | @unknown c _ => exact ⟨c, rfl⟩

variable [Text.IdentifierClasses]

/-- Where the scan comes to a string, the tokens are those of the pieces before it, those of the
string and those of a scan that begins behind it. -/
theorem tokens_of_reaches {strict : Bool} {source rest : List Char} {before : List (Piece Kind)}
    (hreaches : (item strict).Reaches source before rest) (h : (stringExtent rest).length ≠ 0) :
    let extent := stringExtent rest
    let behind := rest.drop extent.length
    let begin := Text.byteLength (textOf before)
    Piece.tokens 0 (scan strict source) = Piece.tokens 0 before ++
      Piece.tokens begin (stringParts (stringKind extent.terminated behind) extent.length rest) ++
        Piece.tokens (begin + Text.byteLength (rest.take extent.length)) (scan strict behind) := by
  intro extent behind begin
  have hscan := (hreaches.repeated_eq (advances_item strict) (fits_item strict)).1
  have htext (kind : Kind) := (covers_stringParts kind h).textOf_eq
  rw [scan, hscan, Piece.tokens_append, Nat.zero_add, ← scan,
    (alike_scan_string strict h).tokens_eq,
    Piece.tokens_append, htext, List.append_assoc]

/-- Among the tokens of a scan those of a string stand together: the ones in front of them end where
it begins, and those behind begin where it ends. -/
theorem exists_showString {strict : Bool} {source rest : List Char} {before : List (Piece Kind)}
    (hreaches : (item strict).Reaches source before rest) (h : (stringExtent rest).length ≠ 0) :
    let begin := Text.byteLength (textOf before)
    let stop := begin + Text.byteLength (rest.take (stringExtent rest).length)
    ∃ left inside right, Piece.tokens 0 (scan strict source) = left ++ inside ++ right ∧
      (∀ token ∈ left, token.stop ≤ begin) ∧ ShowString source begin stop inside ∧
      ∀ token ∈ right, stop ≤ token.begin := by
  intro begin stop
  have hsource := (hreaches.repeated_eq (advances_item strict) (fits_item strict)).2
  refine ⟨_, _, _, tokens_of_reaches hreaches h, ?_, ?_, ?_⟩
  · intro token htoken
    have hbounds := (Piece.bounds_of_mem_tokens htoken).2
    rwa [Nat.zero_add] at hbounds
  · have hkind := stringKind_mem (stringExtent rest).terminated
      (rest.drop (stringExtent rest).length)
    have hshow := showString_tokens hkind (textOf before) h
    rw [← hsource] at hshow
    exact hshow
  · exact fun token htoken ↦ (Piece.bounds_of_mem_tokens htoken).1

end Json

/-- In JSON every byte of a source lies in exactly one token, or it is white space that no token
covers. Without merging, the tokens of each string that is met cover exactly the bytes up to the end
that its first pass finds, whatever follows; of these tokens the escapes are known to JSON, the
errors are a backslash with one character, and none holds the end of a line. -/
theorem highlight_json_losesNothing [Text.IdentifierClasses]
    (options : Options) (source : List Char) (sink : Sink) :
    let tokens := (highlight .json options source sink).1.currentScan.toList
    (∀ n < Text.byteLength source, tokens.countP (·.covers n) = 1 ∨
      tokens.countP (·.covers n) = 0 ∧ ∃ front c rest, source = front ++ c :: rest ∧
        n = Text.byteLength front ∧ c ∈ " \t\n\r".toList) ∧
    (options.coalescing = false → ∀ before rest,
      (Json.item options.strict).Reaches source before rest →
      (Json.stringExtent rest).length ≠ 0 →
        let begin := Text.byteLength (textOf before)
        let stop := begin + Text.byteLength (rest.take (Json.stringExtent rest).length)
        ∃ left inside right, tokens = left ++ inside ++ right ∧
          (∀ token ∈ left, token.stop ≤ begin) ∧ Json.ShowString source begin stop inside ∧
          ∀ token ∈ right, stop ≤ token.begin) := by
  intro tokens
  have htokens : tokens = Language.json.tokens options source :=
    currentScan_highlight .json options source sink
  constructor
  · intro n hn
    rw [htokens, Language.countP_tokens]
    rcases Json.byte_of_scan options.strict hn with
      hcovered | ⟨huncovered, front, c, rest, hsource, hplace, hspace⟩
    · exact .inl (if_pos hcovered)
    · refine .inr ⟨?_, front, c, rest, hsource, hplace, Json.isSpace_iff.1 hspace⟩
      exact if_neg (by rw [Language.scan, huncovered]; exact Bool.false_ne_true)
  · intro hplain before rest hreaches h
    have hpieces : tokens = Piece.tokens 0 (Json.scan options.strict source) := by
      rw [htokens, Language.tokens, hplain]
      rfl
    rw [hpieces]
    exact Json.exists_showString hreaches h

/-- An escape that the end of its line breaks off is an error, and the line end lies in no token. -/
theorem showString_brokenEscape :
    let source := "\"a\\q\\n\\u12\n34\"".toList
    let tokens := (highlight .json {} source .empty).1.currentScan.toList
    tokens.countP (·.covers 10) = 0 ∧
      ∃ left inside right, tokens = left ++ inside ++ right ∧ (∀ token ∈ left, token.stop ≤ 0) ∧
        Json.ShowString source 0 10 inside ∧ ∀ token ∈ right, 10 ≤ token.begin := by
  intro source tokens
  have hlength : (Json.stringExtent source).length = 10 := by decide +kernel
  have hfront : Text.byteLength (source.take 10) = 10 := by decide +kernel
  have hsource : 10 < Text.byteLength source := by decide +kernel
  have hlineEnd : tokens.countP (·.covers 10) ≠ 1 := by decide +kernel
  obtain ⟨hbytes, hstrings⟩ := highlight_json_losesNothing {} source .empty
  have hstring := hstrings rfl [] source .start (by rw [hlength]; exact Nat.succ_ne_zero 9)
  rw [hlength, hfront] at hstring
  exact ⟨((hbytes 10 hsource).resolve_left hlineEnd).1, hstring⟩

end Highlight
