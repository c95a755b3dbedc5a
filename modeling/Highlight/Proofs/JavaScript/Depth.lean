import Highlight.Proofs.JavaScript.Levels
import Highlight.Text.Unicode

/-!
# Scripts inside scripts

A script that others stand around is read as one that may embed fewer levels, at its place in the
source. What is left out for that is exactly what stands in code that would be too deep, and the
scripts that are being read at one time are never more than the limit.
-/

namespace Highlight.JavaScript

open Piece (Covers textOf tokens)

/-- The length of the hashbang line of a script at byte `begin` of its source. -/
def hashbangAt (begin : Nat) (s : List Char) : Nat := if begin = 0 then hashbangLength s else 0

section

variable [Text.IdentifierClasses]

/-- The pieces of a script at byte `begin` of its source that `depth` scripts stand around. -/
def scanInside (strict : Bool) (depth begin : Nat) (s : List Char) : List (Piece Kind) :=
  let n := hashbangAt begin s
  Comment.linePieces (s.take n) ++ scanLevels strict (levelLimit - depth) (s.drop n)

/-- The tokens that a script leaves in a new scan of a sink, where it stands between `front` and
`behind` in its source and `depth` scripts stand around it. -/
def tokensInside (strict : Bool) (depth : Nat) (front s behind : List Char) (sink : Sink) :
    List Token :=
  let begin := Text.byteLength front
  let cursor := Cursor.ofRange sink.startScan (front ++ (s ++ behind)) begin
    (Text.byteLength (front ++ s)) { coalescing := false, strict }
  (cursor.read (scanInside strict depth begin s)).sink.currentScan.toList

/-- The code that stands `level` levels below a script at byte `begin`. -/
def codesBelow (strict : Bool) (level begin : Nat) (s : List Char) : List Code :=
  let n := hashbangAt begin s
  codesAt strict level (begin + Text.byteLength (s.take n)) (s.drop n)

/-- The token lies in code that stands more than `level` levels below a script at byte `begin`. -/
def LiesBelow (strict : Bool) (level begin : Nat) (s : List Char) (token : Token) : Prop :=
  ∃ deeper > level, ∃ code ∈ codesBelow strict deeper begin s, token.LiesIn code

/-- The scripts that are read at one time, outermost first, while a script is read in which `levels`
levels of scripts may stand, its own included. -/
inductive Stack (strict : Bool) : (levels : Nat) → List Char → List (List Char) → Prop
  | script (levels : Nat) (s : List Char) : Stack strict (levels + 1) s [s]
  | embedded {levels : Nat} {s : List Char} {code : Code} {stack : List (List Char)} :
    code ∈ codesIn 0 (outline strict s) → Stack strict levels code.text stack →
      Stack strict (levels + 1) s (s :: stack)

/-- Nothing stands around a source. -/
theorem scanInside_zero (strict : Bool) (s : List Char) :
    scanInside strict 0 0 s = scan strict s := rfl

theorem covers_scanInside (strict : Bool) (depth begin : Nat) (s : List Char) :
    Covers (scanInside strict depth begin s) s :=
  (Comment.covers_linePieces _).append_drop (covers_scanLevels strict _ _)

theorem tokensInside_eq (strict : Bool) (depth : Nat) (front s behind : List Char) (sink : Sink) :
    tokensInside strict depth front s behind sink =
      tokens (Text.byteLength front) (scanInside strict depth (Text.byteLength front) s) :=
  Cursor.currentScan_read_ofRange sink front s behind rfl (covers_scanInside strict _ _ s).1

/-- Where no code stands at a level, none stands deeper. -/
theorem codesBelow_eq_nil {strict : Bool} {level deeper begin : Nat} {s : List Char}
    (h : codesBelow strict level begin s = []) (hle : level ≤ deeper) :
    codesBelow strict deeper begin s = [] := by
  obtain ⟨more, rfl⟩ := Nat.exists_eq_add_of_le hle
  rw [List.eq_nil_iff_forall_not_mem]
  intro code hcode
  obtain ⟨outer, houter, -⟩ := exists_outer_code hcode
  change outer ∈ codesBelow strict level begin s at houter
  simp [h] at houter

/-- Code that stands deeper still lies in the code of the first level that is too deep. -/
theorem liesBelow_iff {strict : Bool} {level begin : Nat} {s : List Char} {token : Token} :
    LiesBelow strict level begin s token ↔
      ∃ code ∈ codesBelow strict (level + 1) begin s, token.LiesIn code := by
  constructor
  · rintro ⟨deeper, hdeeper, code, hcode, hbegin, hstop⟩
    obtain ⟨more, rfl⟩ := Nat.exists_eq_add_of_le (Nat.succ_le_of_lt hdeeper)
    obtain ⟨outer, houter, hle, hle'⟩ := exists_outer_code hcode
    exact ⟨outer, houter, Nat.le_trans hle hbegin, Nat.le_trans hstop hle'⟩
  · exact fun h ↦ ⟨level + 1, Nat.lt_succ_self level, h⟩

instance (strict : Bool) (level begin : Nat) (s : List Char) (token : Token) :
    Decidable (LiesBelow strict level begin s token) :=
  decidable_of_iff _ liesBelow_iff.symm

/-- Code stands behind the hashbang line. -/
theorem isApart_linePieces {strict : Bool} {level begin : Nat} {s : List Char} {token : Token}
    (h : token ∈ tokens begin (Comment.linePieces (s.take (hashbangAt begin s)))) :
    ∀ code ∈ codesBelow strict level begin s, token.IsApart code := by
  intro code hcode
  have hstop := (Piece.bounds_of_mem_tokens h).2
  rw [(Comment.covers_linePieces _).textOf_eq] at hstop
  exact .inl (Nat.le_trans hstop (bounds_of_mem_codesAt hcode).1)

theorem tokens_scanInside (strict : Bool) (depth begin : Nat) (s : List Char) :
    tokens begin (scanInside strict depth begin s) =
      tokens begin (Comment.linePieces (s.take (hashbangAt begin s))) ++
        tokens (begin + Text.byteLength (s.take (hashbangAt begin s)))
          (scanLevels strict (levelLimit - depth) (s.drop (hashbangAt begin s))) := by
  rw [scanInside, Piece.tokens_append, (Comment.covers_linePieces _).textOf_eq]

/-- A script that more scripts stand around leaves the tokens that it leaves otherwise, outside the
code that is too deep then. -/
theorem tokens_scanInside_eq_outside (strict : Bool) {depth inner : Nat} (hdepth : depth ≤ inner)
    (hlimit : inner < levelLimit) (begin : Nat) (s : List Char) :
    tokens begin (scanInside strict inner begin s) =
      outside (codesBelow strict (levelLimit - inner) begin s)
        (tokens begin (scanInside strict depth begin s)) := by
  have hlevels : levelLimit - depth = levelLimit - inner + (inner - depth) := by omega
  have hfront : outside (codesBelow strict (levelLimit - inner) begin s)
      (tokens begin (Comment.linePieces (s.take (hashbangAt begin s)))) =
        tokens begin (Comment.linePieces (s.take (hashbangAt begin s))) := by
    refine List.filter_eq_self.2 fun token htoken ↦ decide_eq_true fun code hcode ↦ ?_
    exact (isApart_linePieces htoken code hcode).not_liesIn
      (Piece.length_pos_of_mem_tokens htoken)
  rw [tokens_scanInside, tokens_scanInside, outside, List.filter_append]
  change _ = outside _ _ ++ outside _ _
  rw [hfront, hlevels, codesBelow, ← tokens_scanLevels_eq_outside]

/-- No token that is left reaches into code that is too deep. -/
theorem isApart_codesBelow {strict : Bool} {depth begin : Nat} {s : List Char} {token : Token}
    (h : token ∈ tokens begin (scanInside strict depth begin s)) :
    ∀ code ∈ codesBelow strict (levelLimit - depth) begin s, token.IsApart code := by
  rw [tokens_scanInside, List.mem_append] at h
  rcases h with hfront | hbehind
  · exact isApart_linePieces hfront
  · intro code hcode
    have houtside := hbehind
    rw [tokens_scanLevels_eq_outside strict _ 0, outside, List.mem_filter, decide_eq_true_eq]
      at houtside
    exact (liesIn_or_isApart _ 0 _ _ token hbehind code hcode).resolve_left (houtside.2 code hcode)

theorem Stack.length_le {strict : Bool} {levels : Nat} {s : List Char} {stack : List (List Char)}
    (h : Stack strict levels s stack) : stack.length ≤ levels := by
  induction h with
  | script levels s => exact Nat.succ_le_succ (Nat.zero_le levels)
  | embedded _ _ ih => exact Nat.succ_le_succ ih

/-- A script leaves the same tokens however many scripts stand around it, but for exactly those in
code that stands too many levels below it, which no token that is left reaches into. No more scripts
than the limit are read at one time. -/
theorem tokensInside_depth (strict : Bool) (front s behind : List Char) (sink : Sink)
    {depth inner : Nat} (hdepth : depth ≤ inner) (hlimit : inner ≤ 256) :
    let begin := Text.byteLength front
    let emitted := tokensInside strict depth front s behind sink
    let fewer := tokensInside strict inner front s behind sink
    fewer = emitted.filter (fun token ↦ ¬ LiesBelow strict (256 - inner) begin s token) ∧
      (∀ token ∈ fewer, ∀ level > 256 - inner, ∀ code ∈ codesBelow strict level begin s,
        token.IsApart code) ∧
      ∀ stack, Stack strict (levelLimit - depth) (s.drop (hashbangAt begin s)) stack →
        depth + stack.length ≤ 257 := by
  intro begin emitted fewer
  have hlevel : levelLimit - inner = 256 - inner + 1 := by
    unfold levelLimit
    omega
  have hfewer : fewer = tokens begin (scanInside strict inner begin s) :=
    tokensInside_eq strict inner front s behind sink
  have hemitted : emitted = tokens begin (scanInside strict depth begin s) :=
    tokensInside_eq strict depth front s behind sink
  refine ⟨?_, ?_, ?_⟩
  · rw [hfewer, hemitted, tokens_scanInside_eq_outside strict hdepth (Nat.lt_succ_of_le hlimit),
      hlevel, outside]
    apply List.filter_congr
    intro token _
    rw [decide_eq_decide, liesBelow_iff]
    simp only [not_exists, not_and]
  · intro token htoken level hdeep code hcode
    obtain ⟨more, rfl⟩ := Nat.exists_eq_add_of_le (Nat.succ_le_of_lt hdeep)
    obtain ⟨outer, houter, hbegin, hstop⟩ := exists_outer_code hcode
    rw [hfewer] at htoken
    rw [Nat.succ_eq_add_one, ← hlevel] at houter
    exact (isApart_codesBelow htoken outer houter).imp (Nat.le_trans · hbegin)
      (Nat.le_trans hstop ·)
  · intro stack hstack
    have hle := hstack.length_le
    unfold levelLimit at hle
    omega

end

/-- Where 256 scripts stand around a template, the code in it is left out, and only that. -/
theorem tokensInside_template :
    let source := "`$\x7b1\x7d`2".toList
    let emitted := tokensInside true 255 [] source [] .empty
    emitted.map Token.begin = [0, 1, 3, 4, 5, 6] ∧
      emitted.filter (fun token ↦ ¬ LiesBelow true 0 0 source token) =
        tokensInside true 256 [] source [] .empty ∧
      (tokensInside true 256 [] source [] .empty).map Token.begin = [0, 1, 4, 5, 6] := by
  intro source emitted
  have hdepth := tokensInside_depth true [] source [] .empty (show 255 ≤ 256 by decide) (by decide)
  exact ⟨by decide +kernel, hdepth.1.symm, by decide +kernel⟩

end Highlight.JavaScript
