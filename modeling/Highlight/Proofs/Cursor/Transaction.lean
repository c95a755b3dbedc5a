import Highlight.Proofs.Cursor.Reading
import Highlight.Proofs.Sink.History

/-!
# Transactions

A mark keeps no more than how many tokens there are and how long the last one is. That is enough,
because nothing that is done before the sink goes back to it touches an older token: emissions add
tokens or lengthen the last one, and a rollback to a mark taken later cuts off behind the older
tokens, also when other rollbacks have made that mark stale. All of it extends the sink in the sense
of `Extends`, and so does a construct that moves, reports, nests and attempts, however deep. An
attempt that fails therefore gives back the cursor and the tokens as they were.
-/

namespace Highlight

namespace Sink

variable {base sink : Sink}

theorem Extends.truncate (h : Extends base sink) (hbase : base.WellFormed) {size : Nat}
    (hsize : base.tokens.size ≤ size) : Extends base (sink.truncate size) where
  scanStart_eq := by
    rw [scanStart_truncate, h.scanStart_eq]
    exact Nat.min_eq_left (Nat.le_trans hbase hsize)
  size_le := by
    rw [size_truncate]
    exact Nat.le_min.2 ⟨hsize, h.size_le⟩
  restored_eq := by
    have hkept : (sink.tokens.toList.take size).take base.mark.size =
        sink.tokens.toList.take base.mark.size := by
      rw [List.take_take]
      exact congrArg sink.tokens.toList.take (Nat.min_eq_left hsize)
    rw [← h.restored_eq, toList_truncate]
    unfold restored
    rw [hkept]

/-- A rollback that cuts off no older token is one more way to extend the sink. -/
theorem Extends.rollback (h : Extends base sink) (hbase : base.WellFormed) {mark : Mark}
    (hsize : base.tokens.size ≤ mark.size) : Extends base (sink.rollback mark) := by
  have hcut := h.truncate hbase hsize
  cases hlength : mark.lastLength with
  | none =>
    rw [rollback_of_none hlength]
    exact hcut
  | some length =>
    rw [rollback_of_some hlength]
    exact hcut.resizeLast length

/-- The action is an emission, takes a mark, or goes back to a mark taken after the given one. -/
def Action.IsBehind (number : Nat) : Action → Prop
  | .emit _ | .emitCoalescing _ | .mark => True
  | .rollback other => number < other
  | .startScan | .clear => False

namespace Session

/-- The sink extends the one from which mark `number` was taken, and no later mark is shorter. -/
structure Behind (base : Sink) (number : Nat) (session : Session) : Prop where
  sink_extends : base.Extends session.sink
  mark_eq : session.marks[number]? = some base.mark
  size_le : ∀ other mark, number < other → session.marks[other]? = some mark →
    base.tokens.size ≤ mark.size

theorem behind_mark (session : Session) :
    Behind session.sink session.marks.size (session.perform .mark) where
  sink_extends := Extends.refl _
  mark_eq := Array.getElem?_push_size
  size_le := by
    intro other mark hother hmark
    have hlt := (Array.getElem?_eq_some_iff.1 hmark).1
    simp only [perform, Array.size_push] at hlt
    omega

/-- No action behind a mark touches what was there when it was taken. -/
theorem Behind.perform {number : Nat} {session : Session} {action : Action}
    (h : Behind base number session) (hbase : base.WellFormed) (haction : action.IsBehind number) :
    Behind base number (session.perform action) := by
  cases action with
  | emit token =>
    exact ⟨h.sink_extends.accept token (h.sink_extends.push token), h.mark_eq, h.size_le⟩
  | emitCoalescing token =>
    exact ⟨h.sink_extends.accept token (h.sink_extends.merge token), h.mark_eq, h.size_le⟩
  | startScan => exact haction.elim
  | clear => exact haction.elim
  | mark =>
    have hnumber := (Array.getElem?_eq_some_iff.1 h.mark_eq).1
    refine ⟨h.sink_extends, ?_, fun other mark hother hmark ↦ ?_⟩
    · simp only [Session.perform]
      rw [Array.getElem?_push_lt hnumber]
      exact h.mark_eq ▸ (Array.getElem?_eq_getElem hnumber).symm
    · simp only [Session.perform, Array.getElem?_push] at hmark
      split at hmark
      · obtain rfl := Option.some_inj.1 hmark
        exact h.sink_extends.size_le
      · exact h.size_le other mark hother hmark
  | rollback other =>
    cases hmark : session.marks[other]? with
    | none =>
      rw [perform_rollback_of_none hmark]
      exact h
    | some mark =>
      rw [perform_rollback_of_some hmark]
      have hsize := h.size_le other mark haction hmark
      exact ⟨h.sink_extends.rollback hbase hsize, h.mark_eq, h.size_le⟩

theorem Behind.performAll {number : Nat} {session : Session} {actions : List Action}
    (h : Behind base number session) (hbase : base.WellFormed)
    (hactions : ∀ action ∈ actions, action.IsBehind number) :
    Behind base number (session.performAll actions) := by
  induction actions generalizing session with
  | nil => exact h
  | cons action actions ih =>
    have hstep := h.perform hbase (hactions action List.mem_cons_self)
    exact ih hstep fun other hother ↦ hactions other (List.mem_cons_of_mem _ hother)

/-- To go back to a mark gives back what was there, whatever was done behind the mark. -/
theorem rollback_performAll {session : Session} (h : session.sink.WellFormed)
    {actions : List Action} (hactions : ∀ action ∈ actions, action.IsBehind session.marks.size) :
    let after := ((session.perform .mark).performAll actions).perform (.rollback session.marks.size)
    after.sink = { session.sink with poisoned := after.sink.poisoned } := by
  intro after
  have hbehind := (behind_mark session).performAll h hactions
  have hafter := perform_rollback_of_some hbehind.mark_eq
  have hsink := hbehind.sink_extends.rollback_eq h
  simp only [after]
  rw [hafter, hsink]

end Session

end Sink

namespace Cursor

/-- A construct that starts at the first cursor may stand at the second one. It moves, reports, goes
on behind a nested cursor, and attempts other constructs, in any order. -/
inductive Leads : Cursor → Cursor → Prop
  | refl (cursor : Cursor) : Leads cursor cursor
  | advance {cursor after : Cursor} (length : Nat) :
    Leads cursor after → Leads cursor (after.advance length)
  | emit {cursor after : Cursor} (token : Token) :
    Leads cursor after → Leads cursor (after.emit token)
  | emitAndAdvance {cursor after : Cursor} (length : Nat) (kind : Kind) :
    Leads cursor after → Leads cursor (after.emitAndAdvance length kind)
  | nested {cursor after inner : Cursor} (begin stop : Nat) :
    Leads cursor after → Leads (after.nested begin stop) inner → Leads cursor (after.resume inner)
  | attempt {cursor after : Cursor} (construct : Cursor → Cursor × Bool) :
    Leads cursor after → Leads after (construct after).1 →
      Leads cursor (after.attempt construct).1

theorem attempt_found {construct : Cursor → Cursor × Bool} {cursor : Cursor}
    (h : (construct cursor).2 = true) :
    cursor.attempt construct = ((construct cursor).1, true) := by
  unfold attempt
  rcases hconstruct : construct cursor with ⟨after, found⟩
  rw [hconstruct] at h
  obtain rfl : found = true := h
  rfl

theorem attempt_failed {construct : Cursor → Cursor × Bool} {cursor : Cursor}
    (h : (construct cursor).2 = false) :
    cursor.attempt construct = ((construct cursor).1.rollback cursor.checkpoint, false) := by
  unfold attempt
  rcases hconstruct : construct cursor with ⟨after, found⟩
  rw [hconstruct] at h
  obtain rfl : found = false := h
  rfl

namespace Leads

variable {cursor after : Cursor}

/-- A construct stays in the range of its cursor and keeps the options. -/
theorem range_eq (h : Leads cursor after) :
    after.source = cursor.source ∧ after.stop = cursor.stop ∧ after.options = cursor.options := by
  induction h with
  | refl cursor => exact ⟨rfl, rfl, rfl⟩
  | advance length h ih => exact ih
  | emit token h ih => exact ih
  | emitAndAdvance length kind h ih => exact ih
  | nested begin stop h hinner ih _ => exact ih
  | @attempt cursor after construct h hconstruct ih ihConstruct =>
    obtain ⟨hsource, hstop, hoptions⟩ := ihConstruct
    rw [← ih.1, ← ih.2.1, ← ih.2.2]
    cases hfound : (construct after).2 with
    | true =>
      rw [attempt_found hfound]
      exact ⟨hsource, hstop, hoptions⟩
    | false =>
      rw [attempt_failed hfound]
      exact ⟨hsource, hstop, hoptions⟩

/-- Whatever the sink extends where a construct starts, it still extends on the way. The sink to
compare with is any older one, since a nested attempt goes back to a mark that is not the outer one.
-/
theorem sink_extends (h : Leads cursor after) {base : Sink} (hbase : base.WellFormed)
    (hcursor : base.Extends cursor.sink) : base.Extends after.sink := by
  have hemit {cursor : Cursor} (token : Token) (hsink : base.Extends cursor.sink) :
      base.Extends (cursor.emit token).sink := by
    unfold Cursor.emit
    split
    · exact hsink.accept token (hsink.merge token)
    · exact hsink.accept token (hsink.push token)
  induction h with
  | refl cursor => exact hcursor
  | advance length h ih => exact ih hcursor
  | emit token h ih => exact hemit token (ih hcursor)
  | emitAndAdvance length kind h ih => exact hemit _ (ih hcursor)
  | nested begin stop h hinner ih ihInner => exact ihInner (ih hcursor)
  | @attempt cursor after construct h hconstruct ih ihConstruct =>
    have hafter := ih hcursor
    have hfound := ihConstruct hafter
    cases hresult : (construct after).2 with
    | true =>
      rw [attempt_found hresult]
      exact hfound
    | false =>
      rw [attempt_failed hresult]
      exact hfound.rollback hbase hafter.size_le

theorem follows (h : Leads cursor after) (hcursor : cursor.sink.WellFormed) :
    Follows cursor after := by
  obtain ⟨hsource, hstop, hoptions⟩ := h.range_eq
  exact ⟨hsource, hstop, hoptions, h.sink_extends hcursor (Sink.Extends.refl _)⟩

end Leads

/-- An attempt that fails leaves the cursor and its tokens as they were; only poison stays. -/
theorem attempt_eq {construct : Cursor → Cursor × Bool} {cursor : Cursor}
    (hcursor : cursor.sink.WellFormed) (h : Leads cursor (construct cursor).1)
    (hfailed : (construct cursor).2 = false) :
    cursor.attempt construct = ({ cursor with
      sink := { cursor.sink with poisoned := (construct cursor).1.sink.poisoned } }, false) := by
  rw [attempt_failed hfailed, (h.follows hcursor).rollback_eq hcursor]

/-- From any state of a sink that a history can reach, a mark brings back the tokens, their lengths
and the start of the scan, whatever was emitted, marked and rolled back behind it. A cursor over
such a sink, merging or not, is after a failed attempt where it was, and so are its tokens. -/
theorem transaction_restores (history : List Sink.Action) :
    let session := Sink.Session.performAll {} history
    (∀ actions : List Sink.Action, (∀ action ∈ actions, action.IsBehind session.marks.size) →
      let after := session.performAll (.mark :: (actions ++ [.rollback session.marks.size]))
      after.sink.tokens = session.sink.tokens ∧
        after.sink.scanStart = session.sink.scanStart) ∧
    ∀ (cursor : Cursor) (construct : Cursor → Cursor × Bool), cursor.sink = session.sink →
      Leads cursor (construct cursor).1 → (construct cursor).2 = false →
        let after := cursor.attempt construct
        after.2 = false ∧ after.1.index = cursor.index ∧ after.1.source = cursor.source ∧
          after.1.stop = cursor.stop ∧ after.1.options = cursor.options ∧
          after.1.sink.tokens = cursor.sink.tokens ∧
          after.1.sink.scanStart = cursor.sink.scanStart := by
  intro session
  have hwellFormed : session.sink.WellFormed := Sink.Session.wellFormed_performAll history
  constructor
  · intro actions hactions after
    have hafter : after = ((session.perform .mark).performAll actions).perform
        (.rollback session.marks.size) := Sink.Session.performAll_concat _ actions _
    have hsink := Sink.Session.rollback_performAll hwellFormed hactions
    simp only at hsink
    rw [hafter, hsink]
    exact ⟨rfl, rfl⟩
  · intro cursor construct hcursor hleads hfailed after
    rw [← hcursor] at hwellFormed
    have hafter : after = _ := attempt_eq hwellFormed hleads hfailed
    rw [hafter]
    exact ⟨rfl, rfl, rfl, rfl, rfl, rfl, rfl⟩

/-- Both transactions change the length of the token that was there. Behind the mark the second
rollback is to a mark that the first one has made stale, so that the token gets the length of
another one. The construct goes on behind a nested cursor, and an attempt fails within it. -/
theorem transaction_restores_length :
    let last : Token := ⟨0, 2, .string⟩
    let session := Sink.Session.performAll {} [.emit last, .mark]
    let actions : List Sink.Action := [.emitCoalescing ⟨2, 3, .string⟩, .mark,
      .emit ⟨7, 1, .number⟩, .mark, .rollback 2, .rollback 3]
    let cursor := ofRange session.sink "ab12345678".toList 2 10 ⟨true, false⟩
    let inside : Cursor → Cursor × Bool := fun cursor ↦ (cursor.emitAndAdvance 1 .number, false)
    let construct : Cursor → Cursor × Bool := fun cursor ↦
      let front := cursor.emitAndAdvance 1 .string
      let nested := (front.nested 4 6).emitAndAdvance 2 .escape
      (((front.resume nested).attempt inside).1, false)
    (session.performAll (.mark :: actions)).sink.tokens = #[⟨0, 1, .string⟩] ∧
      (session.performAll (.mark :: (actions ++ [.rollback 1]))).sink.tokens = #[last] ∧
      (construct cursor).1.sink.tokens = #[⟨0, 3, .string⟩, ⟨4, 2, .escape⟩] ∧
      (cursor.attempt construct).1.sink.tokens = #[last] := by
  intro last session actions cursor inside construct
  have hrestores := transaction_restores [.emit last, .mark]
  have hactions : ∀ action ∈ actions, action.IsBehind 1 := by
    simp [actions, Sink.Action.IsBehind]
  have hleads : Leads cursor (construct cursor).1 :=
    have hfront := (Leads.refl cursor).emitAndAdvance 1 .string
    (hfront.nested 4 6 ((Leads.refl _).emitAndAdvance 2 .escape)).attempt inside
      ((Leads.refl _).emitAndAdvance 1 .number)
  obtain ⟨htokens, -⟩ := hrestores.1 actions hactions
  obtain ⟨-, -, -, -, -, hattempt, -⟩ := hrestores.2 cursor construct rfl hleads rfl
  exact ⟨by decide +kernel, htokens, by decide +kernel, hattempt⟩

end Cursor

end Highlight
