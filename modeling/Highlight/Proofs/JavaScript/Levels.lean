import Highlight.Proofs.Coverage
import Highlight.Proofs.JavaScript.Filling
import Highlight.Proofs.Tokens

/-!
# Levels of embedded code

The code that stands a number of levels below a script is found through outlines, each with its
place in the source. A script that may embed fewer levels leaves the same tokens, but none in the
code that is then too deep. That is shown level by level, and within a level along the outline,
whose stretches lie one behind the other.
-/

namespace Highlight

/-- Code with the byte at which it begins. -/
structure Code where
  begin : Nat
  text : List Char
  deriving DecidableEq, Repr

/-- The byte behind the code. -/
def Code.stop (code : Code) : Nat := code.begin + Text.byteLength code.text

/-- The token lies in the code. -/
def Token.LiesIn (token : Token) (code : Code) : Prop :=
  code.begin ≤ token.begin ∧ token.stop ≤ code.stop

instance (token : Token) (code : Code) : Decidable (token.LiesIn code) :=
  inferInstanceAs (Decidable (_ ∧ _))

/-- The token lies before or behind the code. -/
def Token.IsApart (token : Token) (code : Code) : Prop :=
  token.stop ≤ code.begin ∨ code.stop ≤ token.begin

/-- What lies in code is not apart from it. -/
theorem Token.IsApart.not_liesIn {token : Token} {code : Code} (h : token.IsApart code)
    (hlength : 0 < token.length) : ¬ token.LiesIn code := by
  rintro ⟨hbegin, hstop⟩
  unfold IsApart Token.stop at h
  unfold Token.stop at hstop
  omega

namespace JavaScript

open Piece (Covers textOf tokens)

/-- The code in an outline that begins at byte `begin`. -/
def codesIn (begin : Nat) : List Stretch → List Code
  | [] => []
  | .own piece :: outline => codesIn (begin + Text.byteLength piece.text) outline
  | .code text :: outline => ⟨begin, text⟩ :: codesIn (begin + Text.byteLength text) outline

/-- The code that stands `level` levels below a script that begins at byte `begin`. -/
def codesAt [Text.IdentifierClasses] (strict : Bool) : (level begin : Nat) → List Char → List Code
  | 0, begin, s => [⟨begin, s⟩]
  | level + 1, begin, s =>
    (codesIn begin (outline strict s)).flatMap fun code ↦ codesAt strict level code.begin code.text

/-- Code lies within the outline that holds it. -/
theorem bounds_of_mem_codesIn {begin : Nat} {outline : List Stretch} {code : Code}
    (h : code ∈ codesIn begin outline) :
    begin ≤ code.begin ∧ code.stop ≤ begin + Text.byteLength (outlineText outline) := by
  induction outline generalizing begin with
  | nil => simp [codesIn] at h
  | cons stretch outline ih =>
    rw [outlineText_cons, Text.byteLength_append]
    cases stretch with
    | own piece =>
      have hbounds := ih h
      rw [Stretch.text]
      omega
    | code text =>
      rw [Stretch.text]
      rcases List.mem_cons.1 h with rfl | hlater
      · exact ⟨Nat.le_refl _, Nat.add_le_add_left (Nat.le_add_right _ _) _⟩
      · have hbounds := ih hlater
        omega

/-- Code lies within the script that holds it, on every level. -/
theorem bounds_of_mem_codesAt [Text.IdentifierClasses]
    {strict : Bool} {level begin : Nat} {s : List Char} {code : Code}
    (h : code ∈ codesAt strict level begin s) :
    begin ≤ code.begin ∧ code.stop ≤ begin + Text.byteLength s := by
  induction level generalizing begin s with
  | zero =>
    obtain rfl := List.mem_singleton.1 h
    exact ⟨Nat.le_refl _, Nat.le_refl _⟩
  | succ level ih =>
    obtain ⟨outer, houter, hinner⟩ := List.mem_flatMap.1 h
    have hbounds := bounds_of_mem_codesIn houter
    rw [outlineText_outline, Code.stop] at hbounds
    have hcode := ih hinner
    omega

/-- Code that stands deeper lies in code that stands less deep. -/
theorem exists_outer_code [Text.IdentifierClasses]
    {strict : Bool} {level more begin : Nat} {s : List Char} {code : Code}
    (h : code ∈ codesAt strict (level + more) begin s) :
    ∃ outer ∈ codesAt strict level begin s, outer.begin ≤ code.begin ∧ code.stop ≤ outer.stop := by
  induction level generalizing begin s with
  | zero => exact ⟨⟨begin, s⟩, List.mem_singleton_self _, bounds_of_mem_codesAt h⟩
  | succ level ih =>
    rw [Nat.succ_add] at h
    obtain ⟨between, hbetween, hinner⟩ := List.mem_flatMap.1 h
    obtain ⟨outer, houter, hbounds⟩ := ih hinner
    exact ⟨outer, List.mem_flatMap.2 ⟨between, hbetween, houter⟩, hbounds⟩

/-- The tokens that lie in none of the code. -/
def outside (codes : List Code) (tokens : List Token) : List Token :=
  tokens.filter fun token ↦ ∀ code ∈ codes, ¬ token.LiesIn code

/-- Tokens on either side of a place are outside the code on the other side. -/
theorem outside_append {codes others : List Code} {ts us : List Token}
    (hts : ∀ token ∈ ts, ∀ code ∈ others, ¬ token.LiesIn code)
    (hus : ∀ token ∈ us, ∀ code ∈ codes, ¬ token.LiesIn code) :
    outside (codes ++ others) (ts ++ us) = outside codes ts ++ outside others us := by
  unfold outside
  rw [List.filter_append]
  congr 1
  · apply List.filter_congr
    intro token htoken
    simp only [List.forall_mem_append, decide_eq_decide]
    exact and_iff_left (hts token htoken)
  · apply List.filter_congr
    intro token htoken
    simp only [List.forall_mem_append, decide_eq_decide]
    exact and_iff_right (hus token htoken)

/-- The code that is found in a stretch. -/
def Stretch.codes (find : Nat → List Char → List Code) (begin : Nat) : Stretch → List Code
  | own _ => []
  | code text => find begin text

/-- The code that is found in the code of an outline. -/
def codesWithin (find : Nat → List Char → List Code) (begin : Nat) (outline : List Stretch) :
    List Code :=
  (codesIn begin outline).flatMap fun code ↦ find code.begin code.text

theorem codesWithin_cons (find : Nat → List Char → List Code) (begin : Nat) (stretch : Stretch)
    (outline : List Stretch) :
    codesWithin find begin (stretch :: outline) =
      stretch.codes find begin ++
        codesWithin find (begin + Text.byteLength stretch.text) outline := by
  cases stretch <;> rfl

section

variable {find : Nat → List Char → List Code}
  (hfind : ∀ begin text, ∀ code ∈ find begin text,
    begin ≤ code.begin ∧ code.stop ≤ begin + Text.byteLength text)

include hfind

/-- What stands in a stretch and what stands in those behind it are apart. -/
theorem isApart_cons {embed : Reader} (hembed : embed.Covering) (begin : Nat) (stretch : Stretch)
    (outline : List Stretch) :
    (∀ token ∈ tokens begin (stretch.filled embed),
      ∀ code ∈ codesWithin find (begin + Text.byteLength stretch.text) outline,
        token.IsApart code) ∧
    ∀ token ∈ tokens (begin + Text.byteLength stretch.text) (fill embed outline),
      ∀ code ∈ stretch.codes find begin, token.IsApart code := by
  constructor
  · intro token htoken code hcode
    obtain ⟨outer, houter, hinner⟩ := List.mem_flatMap.1 hcode
    have hstop := (Piece.bounds_of_mem_tokens htoken).2
    have hbegin := (bounds_of_mem_codesIn houter).1
    have hcodeBegin := (hfind _ _ _ hinner).1
    rw [textOf_filled hembed] at hstop
    exact .inl (by omega)
  · intro token htoken code hcode
    have hbegin := (Piece.bounds_of_mem_tokens htoken).1
    cases stretch with
    | own piece => simp [Stretch.codes] at hcode
    | code text => exact .inr (Nat.le_trans (hfind _ _ _ hcode).2 hbegin)

/-- A token of a filled outline stands to the code that is found there as the tokens of each stretch
stand to what is found in that, or apart from it. -/
theorem forall_codesWithin {embed : Reader} (hembed : embed.Covering) {form : Token → Code → Prop}
    (hapart : ∀ token code, token.IsApart code → form token code)
    (h : ∀ begin text, ∀ token ∈ tokens begin (embed text), ∀ code ∈ find begin text,
      form token code) (begin : Nat) (outline : List Stretch) :
    ∀ token ∈ tokens begin (fill embed outline), ∀ code ∈ codesWithin find begin outline,
      form token code := by
  induction outline generalizing begin with
  | nil => simp
  | cons stretch outline ih =>
    obtain ⟨hhere, hlater⟩ := isApart_cons hfind hembed begin stretch outline
    rw [fill_cons, Piece.tokens_append, textOf_filled hembed, codesWithin_cons]
    simp only [List.mem_append]
    rintro token (htoken | htoken) code (hcode | hcode)
    · cases stretch with
      | own piece => simp [Stretch.codes] at hcode
      | code text => exact h _ _ token htoken code hcode
    · exact hapart _ _ (hhere token htoken code hcode)
    · exact hapart _ _ (hlater token htoken code hcode)
    · exact ih _ token htoken code hcode

/-- Where one reader leaves the tokens of the other outside what is found in the code it reads, it
does so in an outline. -/
theorem tokens_fill_eq_outside {embed more : Reader} (hembed : embed.Covering)
    (hmore : more.Covering)
    (h : ∀ begin text, tokens begin (embed text) =
      outside (find begin text) (tokens begin (more text)))
    (begin : Nat) (outline : List Stretch) :
    tokens begin (fill embed outline) =
      outside (codesWithin find begin outline) (tokens begin (fill more outline)) := by
  induction outline generalizing begin with
  | nil => rfl
  | cons stretch outline ih =>
    obtain ⟨hhere, hlater⟩ := isApart_cons hfind hmore begin stretch outline
    have hstretch : tokens begin (stretch.filled embed) =
        outside (stretch.codes find begin) (tokens begin (stretch.filled more)) := by
      cases stretch with
      | own piece => exact (List.filter_eq_self.2 (by simp [Stretch.codes])).symm
      | code text => exact h begin text
    rw [fill_cons, fill_cons, Piece.tokens_append, Piece.tokens_append, textOf_filled hembed,
      textOf_filled hmore, codesWithin_cons, outside_append, hstretch, ih]
    · intro token htoken code hcode
      exact (hhere token htoken code hcode).not_liesIn (Piece.length_pos_of_mem_tokens htoken)
    · intro token htoken code hcode
      exact (hlater token htoken code hcode).not_liesIn (Piece.length_pos_of_mem_tokens htoken)

end

variable [Text.IdentifierClasses]

/-- Code lies deep or not: no token that is left stands across its ends. -/
theorem liesIn_or_isApart {strict : Bool} (level more begin : Nat) (s : List Char) :
    ∀ token ∈ tokens begin (scanLevels strict (level + more) s),
      ∀ code ∈ codesAt strict level begin s, token.LiesIn code ∨ token.IsApart code := by
  induction level generalizing begin s with
  | zero =>
    intro token htoken code hcode
    obtain rfl := List.mem_singleton.1 hcode
    have hbounds := Piece.bounds_of_mem_tokens htoken
    rw [(covers_scanLevels strict _ s).textOf_eq] at hbounds
    exact .inl hbounds
  | succ level ih =>
    rw [Nat.succ_add, scanLevels_succ]
    exact forall_codesWithin (fun _ _ _ ↦ bounds_of_mem_codesAt) (covers_scanLevels strict _)
      (fun _ _ ↦ Or.inr) ih begin (outline strict s)

/-- The tokens that a number of levels leave are those that more levels leave, outside the code that
stands too deep for them. -/
theorem tokens_scanLevels_eq_outside (strict : Bool) (levels more begin : Nat) (s : List Char) :
    tokens begin (scanLevels strict levels s) =
      outside (codesAt strict levels begin s)
        (tokens begin (scanLevels strict (levels + more) s)) := by
  induction levels generalizing begin s with
  | zero =>
    have hinside : outside (codesAt strict 0 begin s)
        (tokens begin (scanLevels strict (0 + more) s)) = [] := by
      apply List.filter_eq_nil_iff.2
      intro token htoken
      have hbounds := Piece.bounds_of_mem_tokens htoken
      rw [(covers_scanLevels strict _ s).textOf_eq] at hbounds
      simpa [codesAt, Token.LiesIn, Code.stop] using hbounds
    rw [hinside, scanLevels, Piece.hidden]
    split <;> rfl
  | succ levels ih =>
    rw [Nat.succ_add, scanLevels_succ, scanLevels_succ]
    exact tokens_fill_eq_outside (fun _ _ _ ↦ bounds_of_mem_codesAt) (covers_scanLevels strict _)
      (covers_scanLevels strict _) ih begin (outline strict s)

end JavaScript

end Highlight
