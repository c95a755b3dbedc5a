import Highlight.Proofs.JavaScript.Depth
import Highlight.Proofs.Piece.Places

/-!
# Places in embedded code

Code that stands below a script is read on its own, with as many levels as are left there. What is
read of it stands together among the tokens of the script, level by level, and so does each item of
it.
-/

namespace Highlight.JavaScript

open Piece (textOf tokens)

/-- How an item is read in code that stands `level` levels below a script. -/
def itemBelow [Text.IdentifierClasses] (strict : Bool) (level : Nat) :
    Position → List Char → Option (List (Piece Kind) × Position) :=
  item (scanLevels strict (levelLimit - (level + 1))) strict

theorem scanLevels_sub [Text.IdentifierClasses]
    (strict : Bool) {level : Nat} (hlevel : level < levelLimit)
    (s : List Char) :
    scanLevels strict (levelLimit - level) s = run (itemBelow strict level) {} s := by
  rw [← Nat.sub_add_cancel (Nat.sub_pos_of_lt hlevel), Nat.sub_sub]
  rfl

/-- Code stands in the outline behind all that comes before its place. -/
theorem exists_of_mem_codesIn {begin : Nat} {outline : List Stretch} {code : Code}
    (h : code ∈ codesIn begin outline) : ∃ front behind,
      outline = front ++ .code code.text :: behind ∧
        code.begin = begin + Text.byteLength (outlineText front) := by
  induction outline generalizing begin with
  | nil => simp [codesIn] at h
  | cons stretch outline ih =>
    have hlater {start : Nat} (hmem : code ∈ codesIn start outline)
        (hstart : start = begin + Text.byteLength stretch.text) : ∃ front behind,
          stretch :: outline = front ++ .code code.text :: behind ∧
            code.begin = begin + Text.byteLength (outlineText front) := by
      obtain ⟨front, behind, rfl, hbegin⟩ := ih hmem
      refine ⟨stretch :: front, behind, rfl, ?_⟩
      rw [hbegin, hstart, outlineText_cons, Text.byteLength_append, Nat.add_assoc]
    cases stretch with
    | own piece => exact hlater h rfl
    | code text =>
      rcases List.mem_cons.1 h with rfl | hmem
      · exact ⟨[], outline, rfl, rfl⟩
      · exact hlater hmem rfl

/-- The tokens of code in an outline stand together. -/
theorem among_fill {embed : Reader} (hembed : embed.Covering) {begin : Nat}
    {outline : List Stretch} {code : Code} (h : code ∈ codesIn begin outline) :
    Among (tokens begin (fill embed outline)) code.begin code.stop
      (tokens code.begin (embed code.text)) := by
  obtain ⟨front, behind, rfl, hbegin⟩ := exists_of_mem_codesIn h
  have hamong := among_tokens begin (fill embed front) (embed code.text) (fill embed behind)
  rw [textOf_fill hembed, (hembed code.text).textOf_eq, ← hbegin] at hamong
  rw [fill_append, fill_cons, ← List.append_assoc]
  exact hamong

variable [Text.IdentifierClasses]

/-- The tokens of code that stands a number of levels below a script stand together among those of
the script. -/
theorem among_code {strict : Bool} {level begin : Nat} {s : List Char} {code : Code}
    (h : code ∈ codesAt strict level begin s) (more : Nat) :
    Among (tokens begin (scanLevels strict (level + more) s)) code.begin code.stop
      (tokens code.begin (scanLevels strict more code.text)) := by
  induction level generalizing begin s with
  | zero =>
    obtain rfl := List.mem_singleton.1 h
    rw [Nat.zero_add]
    exact ⟨[], [], by simp, List.forall_mem_nil _, List.forall_mem_nil _⟩
  | succ level ih =>
    obtain ⟨outer, houter, hinner⟩ := List.mem_flatMap.1 h
    have hbounds := bounds_of_mem_codesAt hinner
    rw [Nat.succ_add, scanLevels_succ]
    exact (among_fill (covers_scanLevels strict (level + more)) houter).trans (ih hinner)
      hbounds.1 hbounds.2

/-- The tokens of a script stand together behind those of its hashbang line. -/
theorem among_hashbang (strict : Bool) (source : List Char) :
    let n := hashbangAt 0 source
    let begin := 0 + Text.byteLength (source.take n)
    Among (tokens 0 (scan strict source)) begin (begin + Text.byteLength (source.drop n))
      (tokens begin (scanLevels strict levelLimit (source.drop n))) := by
  intro n begin
  refine ⟨tokens 0 (Comment.linePieces (source.take n)), [], ?_, ?_, List.forall_mem_nil _⟩
  · rw [List.append_nil, ← scanInside_zero]
    exact tokens_scanInside strict 0 0 source
  · intro token htoken
    have hstop := (Piece.bounds_of_mem_tokens htoken).2
    rwa [(Comment.covers_linePieces _).textOf_eq] at hstop

/-- The tokens of embedded code stand together among those of the source. -/
theorem among_codesBelow {strict : Bool} {source : List Char} {level : Nat}
    (hlevel : level ≤ levelLimit) {code : Code} (hcode : code ∈ codesBelow strict level 0 source) :
    Among (tokens 0 (scan strict source)) code.begin code.stop
      (tokens code.begin (scanLevels strict (levelLimit - level) code.text)) := by
  have hbounds := bounds_of_mem_codesAt hcode
  have hscript := among_code hcode (levelLimit - level)
  rw [Nat.add_sub_cancel' hlevel] at hscript
  exact (among_hashbang strict source).trans hscript hbounds.1 hbounds.2

/-- The tokens of each item of embedded code stand together among those of the script. -/
theorem among_item {strict : Bool} {source : List Char} {level : Nat} (hlevel : level < levelLimit)
    {code : Code} (hcode : code ∈ codesBelow strict level 0 source)
    {before : List (List (Piece Kind))} {position next : Position} {rest : List Char}
    {ps : List (Piece Kind)} (h : Comes (itemBelow strict level) {} code.text before position rest)
    (hrest : rest ≠ []) (hstep : itemBelow strict level position rest = some (ps, next)) :
    let begin := code.begin + Text.byteLength (textOf before.flatten)
    Among (tokens 0 (scan strict source)) begin (begin + Text.byteLength (textOf ps))
      (tokens begin ps) := by
  intro begin
  have hembed := covers_scanLevels strict (levelLimit - (level + 1))
  have hfits := fits_item hembed strict
  have hadvances := advances_item hembed strict
  have hitem := h.among_tokens hfits hadvances hrest hstep code.begin
  have hscript := among_codesBelow (Nat.le_of_lt hlevel) hcode
  rw [scanLevels_sub strict hlevel code.text] at hscript
  -- What is in front of the place and the item itself belong to the text of the code.
  have htext := congrArg Text.byteLength (h.run_eq hfits hadvances).2
  have hafter := congrArg Text.byteLength (hfits position rest ps next hstep).textOf_append_drop
  rw [Text.byteLength_append] at htext hafter
  refine hscript.trans hitem (Nat.le_add_right _ _) ?_
  unfold Code.stop
  omega

end Highlight.JavaScript
