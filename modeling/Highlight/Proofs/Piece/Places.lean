import Highlight.Proofs.Coverage

/-!
# Places in a scan

A scan comes from item to item. What it has read before a place is a part of the text that stands in
front of it, and from the place on it reads as if the text began there, in the state in which it has
come. So the tokens of the item at a place stand together among those of the whole scan.
-/

namespace Highlight

open Piece (textOf tokens width)

variable {κ σ : Type}

/-- The places to which a loop comes: the items before the place, the state, and the text from
there on. -/
inductive Comes (step : σ → List Char → Option (List (Piece κ) × σ)) (state : σ) (s : List Char) :
    List (List (Piece κ)) → σ → List Char → Prop
  | start : Comes step state s [] state s
  | turn {before : List (List (Piece κ))} {now next : σ} {rest : List Char}
      {ps : List (Piece κ)} : Comes step state s before now rest → rest ≠ [] →
      step now rest = some (ps, next) →
      Comes step state s (before ++ [ps]) next (rest.drop (width ps))

section

variable {step : σ → List Char → Option (List (Piece κ) × σ)} {state now : σ} {s rest : List Char}
  {before : List (List (Piece κ))}

/-- From a place on, a loop reads as if the text began there. -/
theorem Comes.run_eq (hfits : StepFits step) (hadvances : StepAdvances step)
    (h : Comes step state s before now rest) :
    run step state s = before.flatten ++ run step now rest ∧
      s = textOf before.flatten ++ rest := by
  induction h with
  | start => exact ⟨rfl, rfl⟩
  | @turn before now next rest ps _ hrest hstep ih =>
    have hwidth := Nat.ne_of_gt (hadvances now rest ps next hrest hstep)
    rw [List.flatten_concat, List.append_assoc, ← run_of_some hstep hrest hwidth,
      Piece.textOf_append, List.append_assoc, (hfits now rest ps next hstep).textOf_append_drop]
    exact ih

end

/-- The tokens stand together among all: the ones in front of them end where they begin at the
latest, and those behind them begin where they end at the earliest. -/
def Among (all : List Token) (begin stop : Nat) (inside : List Token) : Prop :=
  ∃ left right, all = left ++ inside ++ right ∧ (∀ token ∈ left, token.stop ≤ begin) ∧
    ∀ token ∈ right, stop ≤ token.begin

theorem among_tokens (begin : Nat) (before inside behind : List (Piece Kind)) :
    let first := begin + Text.byteLength (textOf before)
    Among (tokens begin (before ++ inside ++ behind)) first
      (first + Text.byteLength (textOf inside)) (tokens first inside) := by
  intro first
  refine ⟨tokens begin before, tokens (first + Text.byteLength (textOf inside)) behind, ?_, ?_, ?_⟩
  · rw [Piece.tokens_append, Piece.tokens_append, Piece.textOf_append, Text.byteLength_append,
      Nat.add_assoc]
  · exact fun token htoken ↦ (Piece.bounds_of_mem_tokens htoken).2
  · exact fun token htoken ↦ (Piece.bounds_of_mem_tokens htoken).1

/-- The tokens of the item at a place stand together among those of the scan, at whatever byte the
text begins. -/
theorem Comes.among_tokens {step : σ → List Char → Option (List (Piece Kind) × σ)}
    {state now next : σ} {s rest : List Char} {before : List (List (Piece Kind))}
    {ps : List (Piece Kind)} (hfits : StepFits step) (hadvances : StepAdvances step)
    (h : Comes step state s before now rest) (hrest : rest ≠ [])
    (hstep : step now rest = some (ps, next)) (first : Nat) :
    let begin := first + Text.byteLength (textOf before.flatten)
    Among (tokens first (run step state s)) begin (begin + Text.byteLength (textOf ps))
      (tokens begin ps) := by
  have hwidth := Nat.ne_of_gt (hadvances now rest ps next hrest hstep)
  rw [(h.run_eq hfits hadvances).1, run_of_some hstep hrest hwidth, ← List.append_assoc]
  exact Highlight.among_tokens first before.flatten ps (run step next (rest.drop (width ps)))

/-- A token that covers a byte inside stands inside. -/
theorem Among.mem_of_covers {all inside : List Token} {begin stop n : Nat} {token : Token}
    (h : Among all begin stop inside) (hmem : token ∈ all) (hcovers : token.covers n)
    (hbegin : begin ≤ n) (hstop : n < stop) : token ∈ inside := by
  obtain ⟨left, right, rfl, hleft, hright⟩ := h
  rw [Token.covers_iff] at hcovers
  simp only [List.mem_append] at hmem
  rcases hmem with (hmem | hmem) | hmem
  · have hle := hleft token hmem
    omega
  · exact hmem
  · have hle := hright token hmem
    omega

/-- What stands among tokens that stand among others stands among those, if its place lies within
theirs. -/
theorem Among.trans {all inside within : List Token} {begin stop first last : Nat}
    (h : Among all begin stop inside) (hwithin : Among inside first last within)
    (hbegin : begin ≤ first) (hstop : last ≤ stop) : Among all first last within := by
  obtain ⟨left, right, rfl, hleft, hright⟩ := h
  obtain ⟨before, behind, rfl, hbefore, hbehind⟩ := hwithin
  refine ⟨left ++ before, behind ++ right, by simp only [List.append_assoc], ?_, ?_⟩
  · exact List.forall_mem_append.2
      ⟨fun token htoken ↦ Nat.le_trans (hleft token htoken) hbegin, hbefore⟩
  · exact List.forall_mem_append.2
      ⟨hbehind, fun token htoken ↦ Nat.le_trans hstop (hright token htoken)⟩

end Highlight
