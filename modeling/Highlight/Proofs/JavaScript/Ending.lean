import Highlight.Proofs.JavaScript.Balance
import Highlight.Proofs.Piece.Ending

/-!
# Where strings of scripts end

A string is read twice. The measuring of code in brackets looks for the quote that no backslash
protects, and the scan reads the string in parts. Every escape ends within what the measuring
passes, but for a code point in brackets, which ends where a closing bracket stands on the line. So
both readings end at the same quote unless such a code takes the quote in.
-/

namespace Highlight.JavaScript

open Grammar (QuotedRest)
open Literal (IsPlain IsShort Overruns Passes Step extent isPlain_of_class isShort_span)
open Piece (textOf width)

variable {quote : Char} {s u r : List Char}

/-- The escapes of scripts that have a code in brackets. -/
def coding : Literal.Coding := ⟨['u'], isLineTerminator, by decide⟩

theorem textOf_escapePieces (s : List Char) :
    textOf (escapePieces s) = s.take (escape s).length := by
  simp [escapePieces, Piece.text]

theorem bracedEscape_length (body : List Char) :
    (bracedEscape body).length = coding.width body := by
  rw [bracedEscape_eq, bracedDigits?]
  change Escape.length (((coding.find? body).map (body.take ·)).elim _ _) = coding.width body
  rw [Literal.Coding.width]
  cases hfind : coding.find? body with
  | none => rfl
  | some n =>
    obtain ⟨code, r, rfl, rfl, -⟩ := Literal.Coding.find?_eq_some_iff.1 hfind
    simp only [Option.map_some, Option.elim_some, List.take_left]
    omega

/-- An escape has a code in closed brackets, or it takes nothing that could end its string. -/
theorem escape_ends (hquote : Text.isQuote quote) (rest : List Char) :
    let s := '\\' :: rest
    coding.Closed (s.take (escape s).length) ∨ IsShort quote s (s.drop (escape s).length) := by
  intro s
  cases rest with
  | nil => exact .inr ⟨[], .lone, List.forall_mem_nil _⟩
  | cons c after =>
    rw [show escape s = _ from escape_cons c after]
    by_cases hreturn : c = '\r'
    · subst hreturn
      have hlength : (escapeRest '\r' after).length =
          (if Text.startsWith "\n" after then 1 else 0) + 2 := Nat.add_comm _ _
      rw [hlength]
      exact .inr (Literal.isShort_lineEnd quote after)
    · have hrun {p : Char → Bool} (hp : Literal.specials.any p = false) (n : Nat) :
          IsShort quote s (s.drop (2 + Text.spanLength p (after.take n))) := by
        rw [Nat.add_comm]
        exact isShort_span (fun d ↦ isPlain_of_class hquote hp) hreturn (List.take_prefix n after)
      unfold escapeRest
      split_ifs with hx hu hbracket hoctal hthree
      · exact .inr (hrun (by decide) 2)
      · obtain ⟨body, rfl⟩ := Text.startsWith_iff.1 hbracket
        change coding.Closed (s.take (bracedEscape body).length) ∨
          IsShort quote s (s.drop (bracedEscape body).length)
        rw [bracedEscape_length]
        exact coding.ends_width hquote (by rw [hu]; decide) hreturn body
      · exact .inr (hrun (by decide) 4)
      · exact .inr (hrun (by decide) 2)
      · exact .inr (hrun (by decide) 1)
      · exact .inr ⟨[], .escaped (absurd · hreturn), List.forall_mem_nil _⟩

theorem escape_closed (hclosed : coding.Closed u) (r : List Char) :
    (escape (u ++ r)).length = u.length := by
  cases hclosed with
  | @mk letter code hletter hcode =>
    obtain rfl := List.mem_singleton.1 hletter
    have hsplit : '\\' :: 'u' :: '\x7b' :: (code ++ ['\x7d']) ++ r =
        '\\' :: 'u' :: '\x7b' :: (code ++ '\x7d' :: r) := by simp
    rw [hsplit, escape_cons]
    change (bracedEscape (code ++ '\x7d' :: r)).length = _
    rw [bracedEscape_length, coding.width_code hcode]
    simp

theorem reads_stringTurn (hquote : Text.isQuote quote) :
    Literal.Reads quote coding (stringTurn quote) := by
  have hturn : stringTurn quote = Literal.turnOf quote escapePieces := by
    funext s
    cases s <;> rfl
  rw [hturn]
  apply Literal.reads_turnOf hquote
  · intro rest
    simp only [textOf_escapePieces]
    exact ⟨_, (List.take_append_drop _ _).symm, escape_ends hquote rest⟩
  · intro u r hclosed
    rw [textOf_escapePieces, escape_closed hclosed, List.take_left]

theorem goes_stringTurn (quote : Char) (s : List Char) :
    stringTurn quote s ≠ .wrong ∧ stringTurn quote s ≠ .spoiled := by
  unfold stringTurn
  split
  · simp
  · split_ifs <;> simp

/-- A string without line ends ends where its measuring says. -/
theorem extent_of_quotedRest (hquote : Text.isQuote quote) (h : QuotedRest quote u)
    (hline : ∀ c ∈ u, isLineTerminator c = false) (r : List Char) : extent quote (u ++ r) = u := by
  have hends {c : Char} (hc : isLineTerminator c = false) : ¬ (c = '\n' ∨ c = '\r') := by
    rintro (rfl | rfl) <;> exact absurd hc (by decide)
  induction h with
  | close =>
    have hbackslash : quote ≠ '\\' := by
      rintro rfl
      exact absurd hquote (by decide)
    rw [List.singleton_append, Literal.extent_cons hbackslash, if_pos rfl,
      if_neg (hends (hline quote List.mem_cons_self))]
  | @escaped c u _ ih =>
    simp only [List.forall_mem_cons] at hline
    have hstep : Step quote ('\\' :: c :: (u ++ r)) (u ++ r) :=
      .escaped fun hreturn ↦ absurd (.inr hreturn) (hends hline.2.1)
    have hpasses : Passes quote (['\\', c] ++ (u ++ r)) (u ++ r) := .single hstep
    change extent quote (['\\', c] ++ (u ++ r)) = ['\\', c] ++ u
    rw [hpasses.extent_eq, ih hline.2.2]
  | @plain c u hc hbackslash _ ih =>
    rw [List.forall_mem_cons] at hline
    rw [List.cons_append, Literal.extent_cons hbackslash, if_neg (hends hline.1), if_neg hc,
      ih hline.2]

/-- Where a string closes on its line, the scan reads it up to the quote that its measuring finds,
whatever follows, exactly if no code point in brackets overruns it. -/
theorem string_ends_iff {body : List Char} (hquote : Text.isQuote quote)
    (hclosed : quotedLength (quote :: body) ≠ 0)
    (hline : ∀ c ∈ (quote :: body).take (quotedLength (quote :: body)), isLineTerminator c = false)
    (t : List Char) :
    let measured := (quote :: body).take (quotedLength (quote :: body))
    measured = quote :: extent quote body ∧
      ∃ pieces, string (quote :: body ++ t) = some pieces ∧
        (textOf pieces = measured ↔ ¬ Overruns quote coding (body ++ t)) := by
  intro measured
  obtain ⟨u, r, rfl, hu, hlength⟩ := exists_quotedRest hclosed
  have hmeasured : measured = quote :: u := by
    change (quote :: (u ++ r)).take (quotedLengthFrom quote 1 (u ++ r)) = _
    rw [hlength, Nat.add_comm, List.take_succ_cons, List.take_left]
  change ∀ c ∈ measured, _ at hline
  rw [hmeasured, List.forall_mem_cons] at hline
  have hextent := extent_of_quotedRest hquote hu hline.2
  refine ⟨by rw [hmeasured, hextent], ?_⟩
  obtain ⟨pieces, hpieces⟩ := Option.isSome_iff_exists.1 (isSome_partsFrom
    (advances_stringTurn quote) rfl (goes_stringTurn quote) Kind.string [quote] (u ++ r ++ t))
  refine ⟨pieces, ?_, ?_⟩
  · change (if Text.isQuote quote then _ else none) = _
    rw [if_pos hquote]
    exact hpieces
  · have hbracket : quote ≠ '\x7d' := by
      rintro rfl
      exact absurd hquote (by decide)
    have hiff := (reads_stringTurn hquote).textOf_eq_iff hpieces hbracket
    rw [List.append_assoc, hextent] at hiff
    rw [hmeasured, List.append_assoc]
    exact hiff

/-- A code point in brackets and a protected quote lie in front of the end. -/
theorem string_ends_codePoint :
    let body := "\\u\x7b41\x7d\\\"\"".toList
    let behind := "+\"".toList
    ∃ pieces, string ('"' :: body ++ behind) = some pieces ∧ textOf pieces = '"' :: body ∧
      ¬ Overruns '"' coding (body ++ behind) := by
  intro body behind
  have hmeasured : ('"' :: body).take (quotedLength ('"' :: body)) = '"' :: body := by
    decide +kernel
  have hline : ('"' :: body).any isLineTerminator = false := by decide +kernel
  have htext : (string ('"' :: body ++ behind)).map textOf = some ('"' :: body) := by
    decide +kernel
  obtain ⟨-, pieces, hread, hends⟩ := string_ends_iff (by decide)
    (show quotedLength ('"' :: body) ≠ 0 by decide +kernel)
    (by rw [hmeasured]; simpa using hline) behind
  rw [hmeasured] at hends
  rw [hread] at htext
  exact ⟨pieces, hread, Option.some.inj htext, hends.1 (Option.some.inj htext)⟩

/-- A code point in brackets takes in the quote of its string where a bracket follows. -/
theorem string_overrun :
    let source := "\"\\u\x7b\"".toList
    quotedLength source = 5 ∧ source.length = 5 ∧ source.any isLineTerminator = false ∧
      (string (source ++ "\x7d".toList)).map textOf ≠ some source := by
  decide +kernel

end Highlight.JavaScript
