import Mathlib.Data.List.Infix
import Highlight.Sink.Basic

/-!
# Emissions and rollbacks

What the operations of a sink do to the tokens of its current scan. A sink that was reached from
another one by emissions of the same scan goes back to it exactly when it is rolled back, even if
an emission has lengthened a token that was there before.
-/

namespace Highlight.Sink

/-- The tokens are in order and do not overlap. -/
def InOrder (tokens : List Token) : Prop :=
  tokens.Pairwise fun before after ↦ before.stop ≤ after.begin

theorem InOrder.concat {tokens : List Token} {token : Token} (h : InOrder tokens)
    (hstop : ∀ before ∈ tokens, before.stop ≤ token.begin) : InOrder (tokens ++ [token]) := by
  refine List.pairwise_append.2 ⟨h, List.pairwise_singleton _ _, ?_⟩
  intro before hbefore after hafter
  rw [List.mem_singleton.1 hafter]
  exact hstop before hbefore

/-- All tokens end at the end of the last one or before. -/
theorem InOrder.stop_le_last {tokens : List Token} (h : InOrder tokens) :
    ∀ before ∈ tokens, before.stop ≤ (tokens.getLast?.map Token.stop).getD 0 := by
  rcases List.eq_nil_or_concat' tokens with rfl | ⟨front, last, rfl⟩
  · simp
  · obtain ⟨-, -, hcross⟩ := List.pairwise_append.1 h
    rw [List.getLast?_concat]
    intro before hbefore
    rcases List.mem_append.1 hbefore with hmem | hmem
    · calc
        _ ≤ last.begin := hcross before hmem last (List.mem_singleton_self _)
        _ ≤ last.stop := Nat.le_add_right _ _
    · rw [List.mem_singleton.1 hmem]
      exact Nat.le_refl _

variable {ω : Type}

/-- The scans before the current one are all there. -/
def WellFormed (sink : Sink ω) : Prop := sink.scanStart ≤ sink.tokens.size

theorem wellFormed_startScan (sink : Sink ω) : sink.startScan.WellFormed := Nat.le_refl _

theorem WellFormed.push {sink : Sink ω} (h : sink.WellFormed) (token : Token ω) :
    (sink.push token).WellFormed := by
  rw [WellFormed, Sink.push, Array.size_push]
  exact Nat.le_succ_of_le h

theorem WellFormed.resizeLast {sink : Sink ω} (h : sink.WellFormed) (length : ω) :
    (sink.resizeLast length).WellFormed := by
  rw [WellFormed, Sink.resizeLast, Array.size_modify]
  exact h

theorem toList_currentScan (sink : Sink ω) :
    sink.currentScan.toList = sink.tokens.toList.drop sink.scanStart := by
  simp [currentScan]

@[simp]
theorem currentScan_startScan (sink : Sink ω) : sink.startScan.currentScan.toList = [] := by
  rw [toList_currentScan]
  exact List.drop_of_length_le (Nat.le_refl _)

theorem last?_eq_getLast? (sink : Sink ω) : sink.last? = sink.currentScan.toList.getLast? := by
  rw [toList_currentScan]
  unfold last?
  split
  · next h => rw [List.getLast?_drop]; simp; omega
  · next h => rw [List.drop_of_length_le (by simpa using h)]; rfl

theorem stop_eq (sink : Sink) :
    sink.stop = (sink.currentScan.toList.getLast?.map Token.stop).getD 0 := by
  rw [stop, last?_eq_getLast?]

@[simp]
theorem currentScan_push {sink : Sink} (h : sink.WellFormed) (token : Token) :
    (sink.push token).currentScan.toList = sink.currentScan.toList ++ [token] := by
  simp only [toList_currentScan, push, Array.toList_push]
  rw [List.drop_append_of_le_length (by simpa using show _ ≤ _ from h)]

/-- The list after an emission that merges. -/
def merged (tokens : List Token) (token : Token) : List Token :=
  match tokens.getLast? with
  | some last =>
    if last.kind = token.kind ∧ last.stop = token.begin then
      tokens.dropLast ++ [{ last with length := last.length + token.length }]
    else tokens ++ [token]
  | none => [token]

theorem modify_concat (f : Token ω → Token ω) (front : List (Token ω)) (last : Token ω) :
    (front ++ [last]).modify front.length f = front ++ [f last] := by
  rw [List.modify_eq_take_cons_drop (by simp)]
  simp

theorem toList_resizeLast (sink : Sink ω) (length : ω) {front : List (Token ω)} {last : Token ω}
    (h : sink.tokens.toList = front ++ [last]) :
    (sink.resizeLast length).tokens.toList = front ++ [{ last with length }] := by
  have hsize : sink.tokens.size - 1 = front.length :=
    calc
      _ = (front ++ [last]).length - 1 := by rw [← Array.length_toList, h]
      _ = front.length := by rw [List.length_append, List.length_singleton, Nat.add_sub_cancel]
  rw [resizeLast, Array.toList_modify, hsize, h, modify_concat]

theorem currentScan_resizeLast {sink : Sink} {last : Token} (hlast : sink.last? = some last)
    (length : Nat) : (sink.resizeLast length).currentScan.toList =
      sink.currentScan.toList.dropLast ++ [{ last with length }] := by
  rw [last?_eq_getLast?, List.getLast?_eq_some_iff] at hlast
  obtain ⟨front, hfront⟩ := hlast
  have hsplit := List.take_append_drop sink.scanStart sink.tokens.toList
  rw [← toList_currentScan, hfront, ← List.append_assoc] at hsplit
  have hlength : (sink.tokens.toList.take sink.scanStart).length = sink.scanStart := by
    have hpos := congrArg List.length hfront
    rw [toList_currentScan, List.length_drop, List.length_append, List.length_singleton] at hpos
    rw [List.length_take]
    omega
  have hresize := toList_resizeLast sink length hsplit.symm
  calc
    _ = (sink.resizeLast length).tokens.toList.drop sink.scanStart := toList_currentScan _
    _ = (sink.tokens.toList.take sink.scanStart ++ (front ++ [{ last with length }])).drop
        sink.scanStart := by rw [hresize, List.append_assoc]
    _ = front ++ [{ last with length }] := List.drop_left' hlength
    _ = _ := by rw [hfront, List.dropLast_concat]

/-- Merging in the sink is merging in the list of the current scan. -/
theorem currentScan_merge {sink : Sink} (h : sink.WellFormed) (token : Token) :
    (sink.merge token).currentScan.toList = merged sink.currentScan.toList token := by
  unfold merge merged
  rw [← last?_eq_getLast?]
  cases hlast : sink.last? with
  | none =>
    have hempty : sink.currentScan.toList = [] := by
      rwa [last?_eq_getLast?, List.getLast?_eq_none_iff] at hlast
    simp only
    rw [currentScan_push h, hempty, List.nil_append]
  | some last =>
    simp only
    split
    · exact currentScan_resizeLast hlast _
    · exact currentScan_push h token

theorem stop_of_currentScan_eq {sink other : Sink}
    (h : sink.currentScan.toList = other.currentScan.toList) : sink.stop = other.stop := by
  rw [stop_eq, stop_eq, h]

theorem stop_push {sink : Sink} (h : sink.WellFormed) (token : Token) :
    (sink.push token).stop = token.stop := by
  rw [stop_eq, currentScan_push h, List.getLast?_concat]
  rfl

/-- A merged token ends where the token ends that was merged into it. -/
theorem stop_merge {sink : Sink} (h : sink.WellFormed) (token : Token) :
    (sink.merge token).stop = token.stop := by
  rw [stop_eq, currentScan_merge h]
  unfold merged
  split
  · next last hlast =>
    split
    · next hcontinues =>
      rw [List.getLast?_concat]
      calc
        _ = last.begin + (last.length + token.length) := rfl
        _ = last.stop + token.length := (Nat.add_assoc _ _ _).symm
        _ = token.stop := by rw [hcontinues.2, Token.stop]
    · rw [List.getLast?_concat]
      rfl
  · rfl

theorem accept_empty (sink : Sink) {token : Token} (store : Sink → Sink) (h : token.length = 0) :
    sink.accept token store = sink := by
  rw [accept, if_pos h]

theorem accept_refused (sink : Sink) {token : Token} (store : Sink → Sink) (h : token.length ≠ 0)
    (horder : token.begin < sink.stop) :
    sink.accept token store = { sink with poisoned := true } := by
  rw [accept, if_neg h, if_pos horder]

theorem accept_stored (sink : Sink) {token : Token} (store : Sink → Sink) (h : token.length ≠ 0)
    (horder : sink.stop ≤ token.begin) : sink.accept token store = store sink := by
  rw [accept, if_neg h, if_neg (Nat.not_lt_of_le horder)]

/-- What holds of a sink after an emission holds if the token was dropped, refused or stored. -/
theorem accept_cases {motive : Sink → Prop} {sink : Sink} {token : Token} {store : Sink → Sink}
    (empty : token.length = 0 → motive sink)
    (refused : token.length ≠ 0 → token.begin < sink.stop → motive { sink with poisoned := true })
    (stored : token.length ≠ 0 → sink.stop ≤ token.begin → motive (store sink)) :
    motive (sink.accept token store) := by
  by_cases hlength : token.length = 0
  · rw [accept_empty sink store hlength]
    exact empty hlength
  · rcases Nat.lt_or_ge token.begin sink.stop with horder | horder
    · rw [accept_refused sink store hlength horder]
      exact refused hlength horder
    · rw [accept_stored sink store hlength horder]
      exact stored hlength horder

/-- A stored token is either added or lengthens the last token of the scan. -/
theorem merge_cases [Add ω] [DecidableEq ω] (sink : Sink ω) (token : Token ω) :
    sink.merge token = sink.push token ∨
      ∃ last, sink.last? = some last ∧ last.kind = token.kind ∧ last.stop = token.begin ∧
        sink.merge token = sink.resizeLast (last.length + token.length) := by
  unfold merge
  cases hlast : sink.last? with
  | none => exact .inl rfl
  | some last =>
    by_cases hcontinues : last.kind = token.kind ∧ last.stop = token.begin
    · exact .inr ⟨last, rfl, hcontinues.1, hcontinues.2, if_pos hcontinues⟩
    · exact .inl (if_neg hcontinues)

section WellFormed

variable [Add ω] [DecidableEq ω] {sink : Sink ω}

theorem WellFormed.merge (h : sink.WellFormed) (token : Token ω) :
    (sink.merge token).WellFormed := by
  rcases merge_cases sink token with hpush | ⟨last, -, -, -, hresize⟩
  · rw [hpush]
    exact h.push token
  · rw [hresize]
    exact h.resizeLast _

theorem WellFormed.accept [LT ω] [DecidableLT ω] [OfNat ω 0] (h : sink.WellFormed)
    (token : Token ω) {store : Sink ω → Sink ω} (hstore : (store sink).WellFormed) :
    (sink.accept token store).WellFormed := by
  unfold Sink.accept
  split
  · exact h
  · split
    · exact h
    · exact hstore

end WellFormed

/-! ## Rollbacks -/

/-- Cuts off the tokens behind the first `size`. -/
def truncate (size : Nat) (sink : Sink ω) : Sink ω :=
  { sink with tokens := sink.tokens.take size, scanStart := min sink.scanStart size }

theorem toList_truncate (size : Nat) (sink : Sink ω) :
    (sink.truncate size).tokens.toList = sink.tokens.toList.take size := by
  simp [truncate]

theorem size_truncate (size : Nat) (sink : Sink ω) :
    (sink.truncate size).tokens.size = min size sink.tokens.size := by
  rw [← Array.length_toList, toList_truncate, List.length_take, Array.length_toList]

theorem scanStart_truncate (size : Nat) (sink : Sink ω) :
    (sink.truncate size).scanStart = min sink.scanStart size := rfl

theorem WellFormed.truncate {sink : Sink ω} (h : sink.WellFormed) (size : Nat) :
    (sink.truncate size).WellFormed := by
  unfold WellFormed at h ⊢
  rw [scanStart_truncate, size_truncate]
  omega

theorem rollback_of_some {mark : Mark ω} {length : ω} (h : mark.lastLength = some length)
    (sink : Sink ω) : sink.rollback mark = (sink.truncate mark.size).resizeLast length := by
  unfold rollback
  rw [h]
  rfl

theorem rollback_of_none {mark : Mark ω} (h : mark.lastLength = none) (sink : Sink ω) :
    sink.rollback mark = sink.truncate mark.size := by
  unfold rollback
  rw [h]
  rfl

theorem WellFormed.rollback {sink : Sink ω} (h : sink.WellFormed) (mark : Mark ω) :
    (sink.rollback mark).WellFormed := by
  cases hlength : mark.lastLength with
  | none =>
    rw [rollback_of_none hlength]
    exact h.truncate _
  | some length =>
    rw [rollback_of_some hlength]
    exact (h.truncate _).resizeLast length

/-- To give the last token its length back changes nothing but the tokens. -/
theorem rollback_eq_truncate (mark : Mark ω) (sink : Sink ω) :
    sink.rollback mark =
      { sink.truncate mark.size with tokens := (sink.rollback mark).tokens } := by
  cases h : mark.lastLength with
  | none => rw [rollback_of_none h]
  | some length =>
    rw [rollback_of_some h]
    rfl

theorem scanStart_rollback (mark : Mark ω) (sink : Sink ω) :
    (sink.rollback mark).scanStart = min sink.scanStart mark.size := by
  rw [rollback_eq_truncate]
  rfl

theorem poisoned_rollback (mark : Mark ω) (sink : Sink ω) :
    (sink.rollback mark).poisoned = sink.poisoned := by
  rw [rollback_eq_truncate]
  rfl

/-- The tokens that a rollback to the mark leaves. -/
def restored (mark : Mark ω) (tokens : List (Token ω)) : List (Token ω) :=
  let kept := tokens.take mark.size
  match mark.lastLength with
  | some length => kept.modify (kept.length - 1) ({ · with length })
  | none => kept

theorem toList_rollback (mark : Mark ω) (sink : Sink ω) :
    (sink.rollback mark).tokens.toList = restored mark sink.tokens.toList := by
  unfold rollback restored
  cases mark.lastLength with
  | none => simp
  | some length => simp [resizeLast]

/-- The sink was reached from `base` by emissions of the same scan: nothing is gone, and only the
length of the last token may be another one. -/
structure Extends (base sink : Sink) : Prop where
  scanStart_eq : sink.scanStart = base.scanStart
  size_le : base.tokens.size ≤ sink.tokens.size
  restored_eq : restored base.mark sink.tokens.toList = base.tokens.toList

theorem Extends.refl (sink : Sink) : Extends sink sink where
  scanStart_eq := rfl
  size_le := Nat.le_refl _
  restored_eq := by
    have hkept : sink.tokens.toList.take sink.tokens.size = sink.tokens.toList := by
      rw [← Array.length_toList, List.take_length]
    unfold restored mark
    simp only [hkept]
    cases hlast : sink.tokens.back? with
    | none => rfl
    | some last =>
      obtain ⟨front, hfront⟩ := Array.back?_eq_some_iff.1 hlast
      have hsize : (front.toList ++ [last]).length - 1 = front.toList.length := by simp
      simp only [hfront, Array.toList_push, Option.map_some, hsize]
      rw [modify_concat]

theorem Extends.push {base sink : Sink} (h : Extends base sink) (token : Token) :
    Extends base (sink.push token) where
  scanStart_eq := h.scanStart_eq
  size_le := by
    rw [Sink.push, Array.size_push]
    exact Nat.le_succ_of_le h.size_le
  restored_eq := by
    rw [← h.restored_eq, Sink.push, Array.toList_push]
    unfold restored
    rw [List.take_append_of_le_length (by simpa [mark] using h.size_le)]

/-- The length that the last token had is put back, so it does not matter which one it was given. -/
theorem Extends.resizeLast {base sink : Sink} (h : Extends base sink) (length : Nat) :
    Extends base (sink.resizeLast length) where
  scanStart_eq := h.scanStart_eq
  size_le := by
    rw [Sink.resizeLast, Array.size_modify]
    exact h.size_le
  restored_eq := by
    rw [← h.restored_eq, Sink.resizeLast, Array.toList_modify]
    unfold restored
    simp only [List.take_modify, List.length_modify]
    rcases Nat.lt_or_eq_of_le h.size_le with hlt | heq
    · have hkept : (sink.tokens.toList.take base.mark.size).length ≤ sink.tokens.size - 1 := by
        have hsize : base.mark.size = base.tokens.size := rfl
        rw [List.length_take, hsize]
        omega
      rw [List.modify_eq_self hkept]
    · have hkept : (sink.tokens.toList.take base.mark.size).length = sink.tokens.size := by
        rw [List.length_take, mark, heq, Array.length_toList, Nat.min_self]
      simp only [mark]
      cases hlast : base.tokens.back? with
      | none =>
        rw [Array.back?_eq_none_iff] at hlast
        simp [hlast]
      | some last =>
        simp only [Option.map_some]
        rw [show (sink.tokens.toList.take base.tokens.size).length = sink.tokens.size from hkept,
          List.modify_modify_eq]
        rfl

theorem Extends.poison {base sink : Sink} (h : Extends base sink) (poisoned : Bool) :
    Extends base { sink with poisoned } :=
  ⟨h.scanStart_eq, h.size_le, h.restored_eq⟩

theorem Extends.merge {base sink : Sink} (h : Extends base sink) (token : Token) :
    Extends base (sink.merge token) := by
  rcases merge_cases sink token with hpush | ⟨last, -, -, -, hresize⟩
  · rw [hpush]
    exact h.push token
  · rw [hresize]
    exact h.resizeLast _

theorem Extends.accept {base sink : Sink} (h : Extends base sink) (token : Token)
    {store : Sink → Sink} (hstore : Extends base (store sink)) :
    Extends base (sink.accept token store) := by
  apply accept_cases
  · exact fun _ ↦ h
  · exact fun _ _ ↦ h.poison true
  · exact fun _ _ ↦ hstore

theorem Extends.wellFormed {base sink : Sink} (h : Extends base sink) (hbase : base.WellFormed) :
    sink.WellFormed := by
  rw [WellFormed, h.scanStart_eq]
  exact Nat.le_trans hbase h.size_le

/-- A rollback takes back exactly what was emitted since the mark; only poison stays. -/
theorem Extends.rollback_eq {base sink : Sink} (h : Extends base sink) (hbase : base.WellFormed) :
    sink.rollback base.mark = { base with poisoned := sink.poisoned } := by
  have htokens : (sink.rollback base.mark).tokens = base.tokens := by
    apply Array.toList_inj.1
    rw [toList_rollback, h.restored_eq]
  have hscanStart : (sink.rollback base.mark).scanStart = base.scanStart := by
    rw [scanStart_rollback, h.scanStart_eq]
    exact Nat.min_eq_left hbase
  have hpoisoned := poisoned_rollback base.mark sink
  generalize sink.rollback base.mark = after at htokens hscanStart hpoisoned
  cases after
  simp only at htokens hscanStart hpoisoned
  rw [htokens, hscanStart, hpoisoned]

end Highlight.Sink
