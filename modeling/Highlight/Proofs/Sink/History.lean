import Mathlib.Data.List.MinMax
import Highlight.Proofs.Sink.Emission
import Highlight.Sink.Session

/-!
# Sink histories

What holds of a sink after any history, whatever was emitted, marked and rolled back and in what
order. A mark may be older than a clearing, a new scan or another rollback. To go back to it may
then cut nothing off and still give the last token a length that some other token had. The order of
the tokens survives that, because a token is compared with those behind it only by where they begin
and there are none behind the last one. What it cannot keep is where the last token ends, so that
the history, and not the tokens, decides which emissions are out of order.
-/

namespace Highlight.Sink

/-- What every history keeps. -/
structure Sound (sink : Sink) : Prop where
  wellFormed : sink.WellFormed
  length_pos : ∀ token ∈ sink.tokens.toList, 0 < token.length
  ordered : InOrder sink.currentScan.toList

variable {sink : Sink}

theorem sound_empty : Sound empty where
  wellFormed := Nat.le_refl _
  length_pos := by simp [empty]
  ordered := List.Pairwise.nil

namespace Sound

theorem startScan (h : Sound sink) : Sound sink.startScan where
  wellFormed := wellFormed_startScan sink
  length_pos := h.length_pos
  ordered := by
    rw [currentScan_startScan]
    exact List.Pairwise.nil

theorem poison (h : Sound sink) (poisoned : Bool) : Sound { sink with poisoned } :=
  ⟨h.wellFormed, h.length_pos, h.ordered⟩

theorem push {token : Token} (h : Sound sink) (htoken : token.length ≠ 0)
    (horder : sink.stop ≤ token.begin) : Sound (sink.push token) where
  wellFormed := h.wellFormed.push token
  length_pos := by
    rw [Sink.push, Array.toList_push]
    intro other hother
    rcases List.mem_append.1 hother with hmem | hmem
    · exact h.length_pos other hmem
    · rw [List.mem_singleton.1 hmem]
      exact Nat.pos_of_ne_zero htoken
  ordered := by
    rw [currentScan_push h.wellFormed]
    rw [stop_eq] at horder
    exact h.ordered.concat fun before hbefore ↦
      Nat.le_trans (h.ordered.stop_le_last before hbefore) horder

/-- The last token may get any length, also one that is not its own: its begin decides the order. -/
theorem resizeLast {length : Nat} (h : Sound sink) (hpos : 0 < length) :
    Sound (sink.resizeLast length) where
  wellFormed := h.wellFormed.resizeLast length
  length_pos := by
    have hlengths := h.length_pos
    rcases List.eq_nil_or_concat' sink.tokens.toList with hnil | ⟨front, last, hfront⟩
    · rw [Array.toList_eq_nil_iff] at hnil
      simp [Sink.resizeLast, hnil]
    · rw [toList_resizeLast sink length hfront]
      rw [hfront] at hlengths
      intro other hother
      rcases List.mem_append.1 hother with hmem | hmem
      · exact hlengths other (List.mem_append_left _ hmem)
      · rw [List.mem_singleton.1 hmem]
        exact hpos
  ordered := by
    have hordered := h.ordered
    cases hlast : sink.last? with
    | none =>
      rw [last?_eq_getLast?, List.getLast?_eq_none_iff, toList_currentScan,
        List.drop_eq_nil_iff] at hlast
      have hnone : (sink.resizeLast length).currentScan.toList = [] := by
        rw [toList_currentScan, List.drop_eq_nil_iff]
        simpa [Sink.resizeLast] using hlast
      rw [hnone]
      exact List.Pairwise.nil
    | some last =>
      rw [currentScan_resizeLast hlast]
      rw [last?_eq_getLast?, List.getLast?_eq_some_iff] at hlast
      obtain ⟨front, hfront⟩ := hlast
      rw [hfront] at hordered ⊢
      rw [List.dropLast_concat]
      obtain ⟨hkept, -, hcross⟩ := List.pairwise_append.1 hordered
      exact InOrder.concat hkept fun before hbefore ↦
        hcross before hbefore last (List.mem_singleton_self _)

theorem merge {token : Token} (h : Sound sink) (htoken : token.length ≠ 0)
    (horder : sink.stop ≤ token.begin) : Sound (sink.merge token) := by
  rcases merge_cases sink token with hpush | ⟨last, -, -, -, hresize⟩
  · rw [hpush]
    exact h.push htoken horder
  · rw [hresize]
    exact h.resizeLast (Nat.add_pos_right _ (Nat.pos_of_ne_zero htoken))

theorem accept {token : Token} {store : Sink → Sink} (h : Sound sink)
    (hstore : token.length ≠ 0 → sink.stop ≤ token.begin → Sound (store sink)) :
    Sound (sink.accept token store) := by
  apply accept_cases
  · exact fun _ ↦ h
  · exact fun _ _ ↦ h.poison true
  · exact hstore

end Sound

/-- What is left of the current scan is its front, or nothing. -/
theorem currentScan_truncate_sublist (size : Nat) (sink : Sink) :
    (sink.truncate size).currentScan.toList.Sublist sink.currentScan.toList := by
  rw [toList_currentScan, toList_currentScan, toList_truncate, scanStart_truncate, List.drop_take]
  rcases Nat.le_total sink.scanStart size with hle | hle
  · rw [Nat.min_eq_left hle]
    exact List.take_sublist _ _
  · rw [Nat.min_eq_right hle, Nat.sub_self, List.take_zero]
    exact List.nil_sublist _

theorem Sound.truncate (h : Sound sink) (size : Nat) : Sound (sink.truncate size) where
  wellFormed := h.wellFormed.truncate size
  length_pos := by
    rw [toList_truncate]
    exact fun token htoken ↦ h.length_pos token (List.mem_of_mem_take htoken)
  ordered := h.ordered.sublist (currentScan_truncate_sublist size sink)

/-- A mark gives the last token only a length that some token had. -/
def Mark.Sound (mark : Mark) : Prop := ∀ length, mark.lastLength = some length → 0 < length

theorem Sound.mark (h : Sound sink) : sink.mark.Sound := by
  intro length hlength
  obtain ⟨last, hlast, rfl⟩ := Option.map_eq_some_iff.1 hlength
  obtain ⟨front, hfront⟩ := Array.back?_eq_some_iff.1 hlast
  exact h.length_pos last (by simp [hfront])

theorem Sound.rollback {mark : Mark} (h : Sound sink) (hmark : mark.Sound) :
    Sound (sink.rollback mark) := by
  cases hlength : mark.lastLength with
  | none =>
    rw [rollback_of_none hlength]
    exact h.truncate _
  | some length =>
    rw [rollback_of_some hlength]
    exact (h.truncate _).resizeLast (hmark length hlength)

namespace Action

variable {ω : Type}

/-- The token that the action reports. -/
def token? : Action ω → Option (Token ω)
  | .emit token | .emitCoalescing token => some token
  | .startScan | .clear | .mark | .rollback _ => none

/-- The action reports something that begins before the end of the last token of the scan. -/
def Offends (action : Action) (sink : Sink) : Prop :=
  ∃ token last, action.token? = some token ∧ token.length ≠ 0 ∧
    sink.currentScan.toList.getLast? = some last ∧ token.begin < last.stop

/-- After the action nothing is held against the sink. -/
def Forgives (action : Action ω) : Prop := action = .startScan ∨ action = .clear

end Action

namespace Session

/-- The sink is sound, and so is what any of its marks can bring back. -/
structure Sound (session : Session) : Prop where
  sink : session.sink.Sound
  marks : ∀ mark ∈ session.marks, mark.Sound

variable {ω : Type} [Add ω] [DecidableEq ω] [LT ω] [DecidableLT ω] [OfNat ω 0]

theorem performAll_concat (session : Session ω) (actions : List (Action ω)) (action : Action ω) :
    session.performAll (actions ++ [action]) = (session.performAll actions).perform action := by
  unfold performAll
  rw [List.foldl_append]
  rfl

theorem perform_rollback_of_some {session : Session ω} {number : Nat} {mark : Mark ω}
    (h : session.marks[number]? = some mark) : session.perform (.rollback number) =
      { session with sink := session.sink.rollback mark } := by
  simp only [perform, h]

theorem perform_rollback_of_none {session : Session ω} {number : Nat}
    (h : session.marks[number]? = none) : session.perform (.rollback number) = session := by
  simp only [perform, h]

/-- Where the scans begin does not depend on the offsets, so nothing is asked of these. -/
theorem wellFormed_perform {session : Session ω} (h : session.sink.WellFormed)
    (action : Action ω) : (session.perform action).sink.WellFormed := by
  cases action with
  | emit token => exact h.accept token (h.push token)
  | emitCoalescing token => exact h.accept token (h.merge token)
  | startScan => exact wellFormed_startScan _
  | clear => exact Nat.le_refl _
  | mark => exact h
  | rollback number =>
    cases hmark : session.marks[number]? with
    | none =>
      rw [perform_rollback_of_none hmark]
      exact h
    | some mark =>
      rw [perform_rollback_of_some hmark]
      exact h.rollback mark

theorem wellFormed_performAll (actions : List (Action ω)) :
    (performAll {} actions).sink.WellFormed := by
  induction actions using List.reverseRecOn with
  | nil => exact Nat.le_refl _
  | append_singleton actions action ih =>
    rw [performAll_concat]
    exact wellFormed_perform ih action

theorem Sound.perform {session : Session} (h : session.Sound) (action : Action) :
    (session.perform action).Sound := by
  cases action with
  | emit token =>
    exact ⟨h.sink.accept fun hlength horder ↦ h.sink.push hlength horder, h.marks⟩
  | emitCoalescing token =>
    exact ⟨h.sink.accept fun hlength horder ↦ h.sink.merge hlength horder, h.marks⟩
  | startScan => exact ⟨h.sink.startScan, h.marks⟩
  | clear => exact ⟨sound_empty, h.marks⟩
  | mark =>
    refine ⟨h.sink, fun mark hmark ↦ ?_⟩
    rcases Array.mem_push.1 hmark with hmem | rfl
    · exact h.marks mark hmem
    · exact h.sink.mark
  | rollback number =>
    cases hmark : session.marks[number]? with
    | none =>
      rw [perform_rollback_of_none hmark]
      exact h
    | some mark =>
      rw [perform_rollback_of_some hmark]
      exact ⟨h.sink.rollback (h.marks mark (Array.mem_of_getElem? hmark)), h.marks⟩

theorem sound_performAll (actions : List Action) : (performAll {} actions).Sound := by
  induction actions using List.reverseRecOn with
  | nil => exact ⟨sound_empty, by simp [performAll]⟩
  | append_singleton actions action ih =>
    rw [performAll_concat]
    exact ih.perform action

theorem offends_iff {action : Action} {token : Token} (haction : action.token? = some token)
    (sink : Sink) : action.Offends sink ↔ token.length ≠ 0 ∧ token.begin < sink.stop := by
  rw [stop_eq]
  unfold Action.Offends
  rw [haction]
  cases sink.currentScan.toList.getLast? <;> simp

theorem not_offends {action : Action} (haction : action.token? = none) (sink : Sink) :
    ¬ action.Offends sink := by
  rintro ⟨token, last, htoken, -⟩
  exact absurd (haction.symm.trans htoken) (Option.some_ne_none token).symm

/-- An emission poisons the sink exactly if it is out of order. -/
theorem poisoned_accept {token : Token} {store : Sink → Sink}
    (hstore : (store sink).poisoned = sink.poisoned) :
    (sink.accept token store).poisoned = true ↔
      (token.length ≠ 0 ∧ token.begin < sink.stop) ∨ sink.poisoned = true := by
  by_cases hlength : token.length = 0
  · rw [accept_empty sink store hlength]
    simp [hlength]
  · rcases Nat.lt_or_ge token.begin sink.stop with horder | horder
    · rw [accept_refused sink store hlength horder]
      simp [hlength, horder]
    · rw [accept_stored sink store hlength horder, hstore]
      simp [Nat.not_lt_of_le horder]

theorem poisoned_merge (sink : Sink) (token : Token) :
    (sink.merge token).poisoned = sink.poisoned := by
  rcases merge_cases sink token with hmerge | ⟨last, -, -, -, hmerge⟩
  · rw [hmerge]
    rfl
  · rw [hmerge]
    rfl

/-- A step leaves the sink poisoned if it is out of order itself, or poison was there and stays. -/
theorem poisoned_perform (session : Session) (action : Action) :
    (session.perform action).sink.poisoned = true ↔
      action.Offends session.sink ∨ (session.sink.poisoned = true ∧ ¬ action.Forgives) := by
  have hkept (h : action.token? = none) (hforgives : ¬ action.Forgives)
      (hsink : (session.perform action).sink.poisoned = session.sink.poisoned) :
      (session.perform action).sink.poisoned = true ↔
        action.Offends session.sink ∨ (session.sink.poisoned = true ∧ ¬ action.Forgives) := by
    simp [not_offends h, hforgives, hsink]
  cases action with
  | emit token =>
    have hsink : (session.perform (.emit token)).sink =
        session.sink.accept token (push token) := rfl
    rw [hsink, offends_iff rfl, poisoned_accept rfl]
    simp [Action.Forgives]
  | emitCoalescing token =>
    have hsink : (session.perform (.emitCoalescing token)).sink =
        session.sink.accept token (merge token) := rfl
    rw [hsink, offends_iff rfl, poisoned_accept (poisoned_merge session.sink token)]
    simp [Action.Forgives]
  | startScan =>
    have hnone : ¬ Action.startScan.Offends session.sink := not_offends rfl _
    simp [Session.perform, Sink.startScan, Action.Forgives, hnone]
  | clear =>
    have hnone : ¬ Action.clear.Offends session.sink := not_offends rfl _
    simp [Session.perform, Sink.clear, Action.Forgives, hnone]
  | mark => exact hkept rfl (by simp [Action.Forgives]) rfl
  | rollback number =>
    refine hkept rfl (by simp [Action.Forgives]) ?_
    cases hmark : session.marks[number]? with
    | none => rw [perform_rollback_of_none hmark]
    | some mark =>
      rw [perform_rollback_of_some hmark]
      exact poisoned_rollback mark _

end Session

end Highlight.Sink
