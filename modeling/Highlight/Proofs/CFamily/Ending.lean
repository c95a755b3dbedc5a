import Highlight.Proofs.CFamily.Coverage
import Highlight.Proofs.CFamily.Steady
import Highlight.Proofs.Piece.Ending
import Highlight.Proofs.Piece.Labels
import Highlight.Proofs.Piece.Places
import Highlight.Text.Unicode

/-!
# Where literals of C and C++ end

An escape takes digits or a code in brackets behind its letter, or the end of a line with its
backslash. All but a code in brackets end within the literal. The search for the closing bracket
stops at a line feed and at nothing else, so it goes past the quote of the literal and past a
carriage return. Wherever a scan comes to a literal, the tokens that begin there cover it up to its
end, and they reach behind that exactly if such a code overruns it.
-/

namespace Highlight

open Literal (IsPlain IsShort Overruns Passes Step extent isPlain_of_class isShort_span)
open Piece (textOf width)

namespace CFamily

variable {quote : Char} {s u r : List Char}

/-- The escapes of C and C++ that have a code in brackets. -/
def coding : Literal.Coding := ⟨['x', 'u', 'o', 'N'], (· == '\n'), by decide⟩

theorem bracedCodeLength_eq (body : List Char) :
    2 + bracedCodeLength ('\x7b' :: body) = coding.width body := by
  rw [bracedCodeLength_cons, Literal.Coding.width]
  change _ = (Text.findClosing? (fun c ↦ c == '\x7d' || c == '\n') '\x7d' body).elim 3 _
  cases Text.findClosing? (fun c ↦ c == '\x7d' || c == '\n') '\x7d' body with
  | none => rfl
  | some n => exact Nat.add_comm 2 (n + 2)

theorem escapeRest_bracket {letter : Char} (hletter : letter ∈ coding.letters)
    (body : List Char) :
    escapeRest letter ('\x7b' :: body) = bracedCodeLength ('\x7b' :: body) := by
  have hbracket : Text.startsWith "\x7b" ('\x7b' :: body) := by simp [Text.startsWith]
  simp only [coding, List.mem_cons, List.not_mem_nil, or_false] at hletter
  rw [escapeRest, hbracket]
  rcases hletter with rfl | rfl | rfl | rfl <;> rfl

/-- An escape has a code in closed brackets, or it takes nothing that could end its literal. -/
theorem escape_ends (hquote : Text.isQuote quote) (rest : List Char) :
    let s := '\\' :: rest
    coding.Closed (s.take (escapeLength s)) ∨ IsShort quote s (s.drop (escapeLength s)) := by
  intro s
  cases rest with
  | nil => exact .inr ⟨[], .lone, List.forall_mem_nil _⟩
  | cons c after =>
    rw [show escapeLength s = _ from escapeLength_cons c after]
    by_cases hreturn : c = '\r'
    · subst hreturn
      rw [Nat.add_comm]
      exact .inr (Literal.isShort_lineEnd quote after)
    · have hrun {p : Char → Bool} (hp : Literal.specials.any p = false)
          {front : List Char} (hfront : front <+: after) :
          IsShort quote s (s.drop (2 + Text.spanLength p front)) := by
        rw [Nat.add_comm]
        exact isShort_span (fun d ↦ isPlain_of_class hquote hp) hreturn hfront
      have hlone : IsShort quote s (s.drop 2) :=
        ⟨[], .escaped (absurd · hreturn), List.forall_mem_nil _⟩
      unfold escapeRest
      split_ifs with hoctal hletter hbracket hx hu hlong
      · exact .inr (hrun (by decide) (List.take_prefix _ _))
      · obtain ⟨body, rfl⟩ := Text.startsWith_iff.1 hbracket
        change coding.Closed (s.take (2 + bracedCodeLength ('\x7b' :: body))) ∨
          IsShort quote s (s.drop (2 + bracedCodeLength ('\x7b' :: body)))
        rw [bracedCodeLength_eq]
        exact coding.ends_width hquote (by simpa [coding, or_assoc] using hletter) hreturn body
      · exact .inr (hrun (by decide) (List.prefix_refl _))
      · exact .inr (hrun (by decide) (List.take_prefix _ _))
      · exact .inr hlone
      · exact .inr (hrun (by decide) (List.take_prefix _ _))
      · exact .inr hlone

theorem escapeLength_closed (hclosed : coding.Closed u) (r : List Char) :
    escapeLength (u ++ r) = u.length := by
  cases hclosed with
  | @mk letter code hletter hcode =>
    have hsplit : '\\' :: letter :: '\x7b' :: (code ++ ['\x7d']) ++ r =
        '\\' :: letter :: '\x7b' :: (code ++ '\x7d' :: r) := by simp
    rw [hsplit, escapeLength_cons, escapeRest_bracket hletter, bracedCodeLength_eq,
      coding.width_code hcode]
    simp

theorem reads_literalTurn (hquote : Text.isQuote quote) :
    Literal.Reads quote coding (literalTurn quote) := by
  have hturn : literalTurn quote =
      Literal.turnOf quote fun s ↦ [.token .escape (s.take (escapeLength s))] := by
    funext s
    cases s <;> rfl
  have htext (s : List Char) :
      textOf [Piece.token Kind.escape (s.take (escapeLength s))] = s.take (escapeLength s) := by
    simp [Piece.text]
  rw [hturn]
  apply Literal.reads_turnOf hquote
  · intro rest
    simp only [htext]
    exact ⟨_, (List.take_append_drop _ _).symm, escape_ends hquote rest⟩
  · intro u r hclosed
    rw [htext, escapeLength_closed hclosed, List.take_left]

/-- A character that begins neither white space nor a comment or a splice begins code. -/
theorem item_of_code [Text.IdentifierClasses]
    {dialect : Dialect} {strict atLineStart : Bool} {c : Char}
    (hspace : isSpace c = false) (hbackslash : c ≠ '\\') (hslash : c ≠ '/') (s : List Char) :
    item dialect strict atLineStart (c :: s) =
      (code dialect strict atLineStart (c :: s)).map (·, false) := by
  have hsplice : spliceLength (c :: s) = 0 := by
    have hnone (lit : String) (hlit : lit.toList.head? = some '\\') :
        Text.startsWith lit (c :: s) = false :=
      Text.startsWith_cons_eq_false hlit hbackslash s
    simp only [spliceLength, hnone "\\\r\n" rfl, hnone "\\\n" rfl, hnone "\\\r" rfl]
    rfl
  have hcomment : comment (c :: s) = none := by
    apply Construct.firstOf_eq_none_iff.2
    simp only [List.forall_mem_cons]
    refine ⟨?_, ?_, List.forall_mem_nil _⟩
    · have hlength : lineCommentLength (c :: s) = 0 := by
        rw [lineCommentLength, Text.startsWith_cons_eq_false (by rfl) hslash]
        rfl
      simp only [Comment.line, hlength, if_true]
    · have hextent : (Comment.blockExtent (c :: s)).length = 0 := by
        rw [Comment.blockExtent, Text.after?_cons_eq_none "/*" (by rfl) hslash]
      simp only [Comment.block, hextent, if_true]
  simp only [item, List.takeWhile_cons, hspace, hsplice, hcomment]
  rfl

/-- A literal is read where it is not the text of a raw string. -/
theorem code_of_literal [Text.IdentifierClasses]
    {dialect : Dialect} {strict atLineStart : Bool} {c : Char} {s : List Char}
    {ps : List (Piece Kind)} (hhash : c ≠ '#') (hraw : rawStringLength (c :: s) = 0)
    (h : literal (c :: s) = some ps) : code dialect strict atLineStart (c :: s) = some ps := by
  have hnone : Text.after? "#" (c :: s) = none := Text.after?_cons_eq_none "#" (by rfl) hhash s
  have hdirective : directive (c :: s) = none := by
    simp only [directive, hnone]
  have hrawString : Construct.onlyIf (dialect = .cpp) rawString (c :: s) = none :=
    Construct.onlyIf_of_none (Construct.measured_of_eq_zero hraw) _
  have htrail : (Construct.onlyIf atLineStart directive).trail (c :: s) = [] :=
    Construct.trail_onlyIf _ (fun _ ↦ rfl) _
  have hrawTrail : (Construct.onlyIf (dialect = .cpp) rawString).trail (c :: s) = [] :=
    Construct.trail_onlyIf _ (fun _ ↦ rfl) _
  rw [code, Construct.firstOf_cons_of_trail htrail, Construct.onlyIf_of_none hdirective,
    Construct.firstOf_cons_of_trail hrawTrail, hrawString, Construct.firstOf_cons_of_trail rfl, h]
  rfl

/-- Where a literal begins: a quote, perhaps with the mark of an encoding in front of it. -/
inductive Opens (quote : Char) : List Char → Prop
  | mk {mark : String} : mark ∈ "" :: encodingMarks → Text.isQuote quote →
      Opens quote (mark.toList ++ [quote])

variable {opening body : List Char}

theorem Opens.isQuote (h : Opens quote opening) : Text.isQuote quote := by
  cases h with
  | mk _ hquote => exact hquote

theorem Opens.ne_bracket (h : Opens quote opening) : quote ≠ '\x7d' := by
  rintro rfl
  exact absurd h.isQuote (by decide)

theorem Opens.append_ne_nil (h : Opens quote opening) (body : List Char) :
    opening ++ body ≠ [] := by
  cases h
  simp

theorem Opens.literal_eq (h : Opens quote opening) (body : List Char) :
    literal (opening ++ body) =
      partsFrom .string (literalTurn quote) [] opening.reverse body := by
  cases h with
  | @mk mark hmark hquote =>
    simp only [encodingMarks, List.mem_cons, List.not_mem_nil, or_false] at hmark
    simp only [Text.isQuote, Bool.or_eq_true, beq_iff_eq] at hquote
    rcases hmark with rfl | rfl | rfl | rfl | rfl <;> rcases hquote with rfl | rfl <;> rfl

/-- The first character of a literal begins nothing that is looked for before literals. -/
theorem Opens.exists_first (h : Opens quote opening) (body : List Char) :
    ∃ c s, opening ++ body = c :: s ∧ isSpace c = false ∧ c ∉ ['\\', '/', '#'] ∧
      rawStringLength (c :: s) = 0 := by
  cases h with
  | @mk mark hmark hquote =>
    simp only [encodingMarks, List.mem_cons, List.not_mem_nil, or_false] at hmark
    simp only [Text.isQuote, Bool.or_eq_true, beq_iff_eq] at hquote
    rcases hmark with rfl | rfl | rfl | rfl | rfl <;> rcases hquote with rfl | rfl <;>
      exact ⟨_, _, rfl, by decide, by decide, rfl⟩

theorem Opens.item_eq [Text.IdentifierClasses]
    (h : Opens quote opening) (dialect : Dialect) (strict atLineStart : Bool)
    {body : List Char} {ps : List (Piece Kind)}
    (hps : partsFrom .string (literalTurn quote) [] opening.reverse body = some ps) :
    item dialect strict atLineStart (opening ++ body) = some (ps, false) := by
  have hliteral := (h.literal_eq body).trans hps
  obtain ⟨c, s, hs, hspace, hother, hraw⟩ := h.exists_first body
  simp only [List.mem_cons, List.not_mem_nil, or_false, not_or] at hother
  obtain ⟨hbackslash, hslash, hhash⟩ := hother
  rw [hs] at hliteral ⊢
  rw [item_of_code hspace hbackslash hslash, code_of_literal hhash hraw hliteral, Option.map_some]

/-- The pieces of a literal are its parts and its escapes. -/
theorem shown_of_partsFrom {part : List Char} {ps : List (Piece Kind)}
    (hps : partsFrom .string (literalTurn quote) [] part s = some ps) :
    ∀ piece ∈ ps, ∃ kind ∈ [Kind.string, .escape], ∃ text, piece = .token kind text := by
  have hshown (text : List Char) : ∀ piece ∈ Piece.shown Kind.string text,
      ∃ kind ∈ [Kind.string, .escape], ∃ text, piece = .token kind text :=
    fun piece hmem ↦ ⟨_, List.mem_cons_self, text, Piece.eq_of_mem_shown hmem⟩
  refine partsFrom_induction (motive := fun _ _ ps ↦
    ∀ piece ∈ ps, ∃ kind ∈ [Kind.string, .escape], ∃ text, piece = .token kind text) ?_ ?_ ?_ hps
  · intro part s n _
    exact hshown _
  · intro part c s ps _ hind
    exact hind
  · intro part s pieces ps hturn hind
    obtain ⟨rest, -, rfl⟩ := escape_of_literalTurn hturn
    rw [List.forall_mem_append, List.forall_mem_append, List.forall_mem_singleton]
    exact ⟨hshown _, ⟨.escape, by decide, _, rfl⟩, hind⟩

def Dialect.language : Dialect → Language
  | c => .c
  | cpp => .cpp

theorem scan_language [Text.IdentifierClasses]
    (dialect : Dialect) : dialect.language.scan = scan dialect := by
  cases dialect <;> rfl

end CFamily

/-- The tokens of a literal of C or C++ begin where it does and cover it without gaps, wherever a
scan comes to it. They end with the first quote that is not protected, or else with the line,
exactly if no code in brackets overruns the literal; otherwise they end behind that. -/
theorem highlight_literal_ends [Text.IdentifierClasses]
    (dialect : CFamily.Dialect) (strict : Bool) (sink : Sink)
    {source opening body : List Char} {before : List (List (Piece Kind))} {atLineStart : Bool}
    {quote : Char} (hopens : CFamily.Opens quote opening)
    (hcomes : Comes (CFamily.item dialect strict) true source before atLineStart
      (opening ++ body)) :
    let tokens := (highlight dialect.language { coalescing := false, strict } source
      sink).1.currentScan.toList
    let begin := Text.byteLength (textOf before.flatten)
    let stop := begin + Text.byteLength (opening ++ extent quote body)
    ∃ inside last, Among tokens begin last inside ∧ Tiles last begin inside ∧
      (∀ token ∈ inside, token.kind = .string ∨ token.kind = .escape) ∧ stop ≤ last ∧
      (last = stop ↔ ¬ Overruns quote CFamily.coding body) := by
  intro tokens begin stop
  obtain ⟨ps, hps⟩ := Option.isSome_iff_exists.1
    ((CFamily.steady_literalTurn quote).isSome_partsFrom Kind.string opening.reverse body)
  have hshown := CFamily.shown_of_partsFrom hps
  have hreads := CFamily.reads_literalTurn hopens.isQuote
  have hends := hreads.textOf_eq_iff hps hopens.ne_bracket
  obtain ⟨more, hmore⟩ := hreads.extent_prefix_textOf hps hopens.ne_bracket
    (CFamily.fits_literalTurn quote)
  rw [List.reverse_reverse] at hends hmore
  refine ⟨Piece.tokens begin ps, begin + Text.byteLength (textOf ps), ?_, ?_, ?_, ?_, ?_⟩
  · have htokens : tokens = Piece.tokens 0 (run (CFamily.item dialect strict) true source) := by
      rw [show tokens = _ from currentScan_highlight_plain dialect.language strict source sink,
        CFamily.scan_language, CFamily.scan]
    have hamong := hcomes.among_tokens (CFamily.fits_item dialect strict)
      (CFamily.advances_item dialect strict) (hopens.append_ne_nil body)
      (hopens.item_eq dialect strict atLineStart hps) 0
    rw [Nat.zero_add] at hamong
    rwa [htokens]
  · apply Piece.tiles_tokens
    intro text hmem
    obtain ⟨kind, -, other, hpiece⟩ := hshown _ hmem
    exact absurd hpiece (by simp)
  · intro token htoken
    obtain ⟨text, hmem⟩ := Piece.exists_of_mem_tokens htoken
    obtain ⟨kind, hkind, other, hpiece⟩ := hshown _ hmem
    rw [(Piece.token.inj hpiece).1]
    simpa using hkind
  · rw [← hmore, Text.byteLength_append _ more]
    exact Nat.add_le_add_left (Nat.le_add_right _ _) begin
  · rw [← hends, ← hmore, Text.byteLength_append _ more, ← Nat.add_assoc, Nat.add_eq_left,
      Text.byteLength_eq_zero, List.append_right_eq_self]

/-- A code in brackets and a protected quote lie in front of the end. -/
theorem highlight_literal_ends_codePoint :
    let body := "\\u\x7b41\x7d\\\"\" \"\x7d".toList
    let tokens := (highlight .c { coalescing := false, strict := false }
      ("u8".toList ++ ['"'] ++ body) .empty).1.currentScan.toList
    ∃ inside last, Among tokens 0 last inside ∧ Tiles last 0 inside ∧
      (∀ token ∈ inside, token.kind = .string ∨ token.kind = .escape) ∧ 12 ≤ last ∧
      (last = 12 ↔ ¬ Overruns '"' CFamily.coding body) :=
  highlight_literal_ends .c false .empty (.mk (by decide) (by decide)) .start

/-- The code in brackets of a literal takes in its quote where a bracket follows on the line. -/
theorem highlight_literal_overrun :
    let body := "\\x\x7b\"\x7d".toList
    let tokens := (highlight .c { coalescing := false, strict := false } ('"' :: body)
      .empty).1.currentScan.toList
    let stop := Text.byteLength ('"' :: extent '"' body)
    ¬ ∃ inside, Among tokens 0 stop inside ∧ Tiles stop 0 inside := by
  intro body tokens stop
  have hstop : stop = 5 := by decide +kernel
  have htokens : tokens = [⟨0, 1, .string⟩, ⟨1, 5, .escape⟩] := by decide +kernel
  rintro ⟨inside, ⟨left, right, hsplit, hleft, hright⟩, htiles⟩
  have hmem : ⟨1, 5, .escape⟩ ∈ left ++ inside ++ right := by
    rw [← hsplit, htokens]
    exact List.mem_cons_of_mem _ List.mem_cons_self
  simp only [List.mem_append] at hmem
  rcases hmem with (hmem | hmem) | hmem
  · exact absurd (hleft _ hmem) (by decide)
  · exact absurd (htiles.stop_le.2 _ hmem) (by rw [hstop]; decide)
  · exact absurd (hright _ hmem) (by rw [hstop]; decide)

end Highlight
