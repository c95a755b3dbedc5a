import Mathlib.Algebra.Group.Nat.Defs
import Highlight.Proofs.Sink.History

/-!
# Sinks over offsets of a fixed width

Offsets of `w` bits wrap around where a sum is too large. As long as no end does so, a sink over
them does what a sink over the numbers does, and keeps what that one keeps. It is not enough that
everything emitted ends in time: a rollback to a mark that is older than a clearing, a new scan or
another rollback may give the last token the length of another one, and end where no emission did.
-/

namespace Highlight

variable {ω ω' : Type} {w : Nat}

namespace Token

/-- The token with its offsets read as numbers. -/
def value (token : Token (BitVec w)) : Token := token.map BitVec.toNat

/-- The end of the token can be counted in the width of the offsets. -/
def Exact (token : Token (BitVec w)) : Prop := token.value.stop < 2 ^ w

instance (token : Token (BitVec w)) : Decidable token.Exact := inferInstanceAs (Decidable (_ < _))

theorem Exact.toNat_stop {token : Token (BitVec w)} (h : token.Exact) :
    token.stop.toNat = token.value.stop := BitVec.toNat_add_of_lt h

/-- A token that continues another one makes it end where the token itself ends. -/
theorem Exact.toNat_length_add {token last : Token (BitVec w)} (hlast : last.Exact) (htoken : token.Exact)
    (hcontinues : last.stop = token.begin) :
    (last.length + token.length).toNat = last.length.toNat + token.length.toNat ∧
      Token.Exact { last with length := last.length + token.length } := by
  have hbegin : last.begin.toNat + last.length.toNat = token.begin.toNat :=
    calc
      _ = last.stop.toNat := hlast.toNat_stop.symm
      _ = token.begin.toNat := by rw [hcontinues]
  have hsum : token.begin.toNat + token.length.toNat < 2 ^ w := htoken
  have hlength : (last.length + token.length).toNat = last.length.toNat + token.length.toNat :=
    BitVec.toNat_add_of_lt (by omega)
  refine ⟨hlength, ?_⟩
  simp only [Token.Exact, Token.value, Token.map, Token.stop, hlength]
  omega

end Token

namespace Sink

def Mark.map (f : ω → ω') (mark : Mark ω) : Mark ω' := ⟨mark.size, mark.lastLength.map f⟩

@[simp]
theorem map_empty (f : ω → ω') : (empty : Sink ω).map f = empty := by
  simp [empty, map]

@[simp]
theorem map_startScan (f : ω → ω') (sink : Sink ω) :
    sink.startScan.map f = (sink.map f).startScan := by
  simp [startScan, map]

theorem map_push (f : ω → ω') (sink : Sink ω) (token : Token ω) :
    (sink.push token).map f = (sink.map f).push (token.map f) := by
  simp [push, map]

theorem map_resizeLast (f : ω → ω') (sink : Sink ω) (length : ω) :
    (sink.resizeLast length).map f = (sink.map f).resizeLast (f length) := by
  have htokens : ((sink.resizeLast length).map f).tokens =
      ((sink.map f).resizeLast (f length)).tokens := by
    ext i hi hi'
    · simp [resizeLast, map]
    · simp only [resizeLast, map, Array.getElem_map, Array.getElem_modify, Array.size_map]
      split <;> rfl
  simpa [map, resizeLast] using htokens

theorem map_mark (f : ω → ω') (sink : Sink ω) : (sink.map f).mark = sink.mark.map f := by
  simp [mark, Mark.map, map]
  rfl

theorem map_rollback (f : ω → ω') (sink : Sink ω) (mark : Mark ω) :
    (sink.rollback mark).map f = (sink.map f).rollback (mark.map f) := by
  have htruncate : (sink.truncate mark.size).map f = (sink.map f).truncate mark.size := by
    simp [truncate, map]
  cases hlength : mark.lastLength with
  | none =>
    rw [rollback_of_none hlength, rollback_of_none (by simp [Mark.map, hlength]), htruncate]
    rfl
  | some length =>
    have hmapped : (mark.map f).lastLength = some (f length) := by simp [Mark.map, hlength]
    rw [rollback_of_some hlength, rollback_of_some hmapped, map_resizeLast, htruncate]
    rfl

theorem back?_of_last? {sink : Sink ω} {last : Token ω} (h : sink.last? = some last) :
    sink.tokens.back? = some last := by
  unfold last? at h
  split at h
  · exact h
  · exact absurd h (Option.some_ne_none last).symm

theorem last?_map (f : ω → ω') (sink : Sink ω) :
    (sink.map f).last? = sink.last?.map (Token.map f) := by
  unfold last?
  split
  · next h => rw [if_pos (by simpa [map] using h)]; simp [map]
  · next h => rw [if_neg (by simpa [map] using h)]; rfl

theorem back?_resizeLast (sink : Sink ω) (length : ω) :
    (sink.resizeLast length).tokens.back? = sink.tokens.back?.map ({ · with length }) := by
  rcases List.eq_nil_or_concat' sink.tokens.toList with hnil | ⟨front, last, hfront⟩
  · rw [Array.toList_eq_nil_iff] at hnil
    simp [resizeLast, hnil]
  · rw [← Array.getLast?_toList, ← Array.getLast?_toList, toList_resizeLast sink length hfront,
      hfront, List.getLast?_concat, List.getLast?_concat]
    rfl

/-- The sink with its offsets read as numbers. -/
def value (sink : Sink (BitVec w)) : Sink := sink.map BitVec.toNat

theorem currentScan_value (sink : Sink (BitVec w)) :
    sink.value.currentScan.toList = sink.currentScan.toList.map Token.value := by
  rw [toList_currentScan, toList_currentScan]
  simp only [value, map, Array.toList_map, List.map_drop]
  rfl

/-- No token ends where the offsets do not reach. -/
def Exact (sink : Sink (BitVec w)) : Prop := ∀ token ∈ sink.tokens.toList, token.Exact

namespace Exact

variable {sink : Sink (BitVec w)} {token : Token (BitVec w)}

theorem empty : (Sink.empty : Sink (BitVec w)).Exact := by
  simp [Exact, Sink.empty]

theorem of_last? (h : sink.Exact) (hlast : sink.last? = some token) : token.Exact :=
  h token (Array.mem_toList_iff.2 (Array.mem_of_back? (back?_of_last? hlast)))

theorem push (h : sink.Exact) (htoken : token.Exact) : (sink.push token).Exact := by
  intro other hother
  rw [Sink.push, Array.toList_push, List.mem_append, List.mem_singleton] at hother
  rcases hother with hmem | rfl
  · exact h other hmem
  · exact htoken

theorem truncate (h : sink.Exact) (size : Nat) : (sink.truncate size).Exact := by
  intro other hother
  rw [toList_truncate] at hother
  exact h other (List.mem_of_mem_take hother)

/-- Only the last token has to be looked at when it has got another length. -/
theorem resizeLast (h : sink.Exact) {length : BitVec w}
    (hlast : ∀ last ∈ (sink.resizeLast length).tokens.back?, last.Exact) :
    (sink.resizeLast length).Exact := by
  rcases List.eq_nil_or_concat' sink.tokens.toList with hnil | ⟨front, last, hfront⟩
  · rw [Array.toList_eq_nil_iff] at hnil
    simp [Exact, Sink.resizeLast, hnil]
  · have htokens := toList_resizeLast sink length hfront
    intro other hother
    rw [htokens, List.mem_append, List.mem_singleton] at hother
    rcases hother with hmem | rfl
    · exact h other (by simp [hfront, hmem])
    · apply hlast
      rw [← Array.getLast?_toList, htokens, List.getLast?_concat]
      rfl

theorem rollback (h : sink.Exact) {mark : Mark (BitVec w)}
    (hlast : ∀ last ∈ (sink.rollback mark).tokens.back?, last.Exact) :
    (sink.rollback mark).Exact := by
  cases hlength : mark.lastLength with
  | none =>
    rw [rollback_of_none hlength]
    exact h.truncate _
  | some length =>
    rw [rollback_of_some hlength] at hlast ⊢
    exact (h.truncate _).resizeLast hlast

theorem toNat_stop (h : sink.Exact) : sink.stop.toNat = sink.value.stop := by
  unfold stop
  rw [value, last?_map]
  cases hlast : sink.last? with
  | none => rfl
  | some last => exact (h.of_last? hlast).toNat_stop

theorem merge (h : sink.Exact) (htoken : token.Exact) : (sink.merge token).Exact := by
  rcases merge_cases sink token with hmerge | ⟨last, hlast, -, hcontinues, hmerge⟩
  · rw [hmerge]
    exact h.push htoken
  · rw [hmerge]
    have hexact := ((h.of_last? hlast).toNat_length_add htoken hcontinues).2
    refine h.resizeLast fun other hother ↦ ?_
    rw [back?_resizeLast, back?_of_last? hlast] at hother
    obtain rfl := Option.some.inj hother
    exact hexact

theorem value_merge (h : sink.Exact) (htoken : token.Exact) :
    (sink.merge token).value = sink.value.merge token.value := by
  unfold Sink.merge
  rw [value, value, last?_map]
  cases hlast : sink.last? with
  | none => exact map_push _ _ _
  | some last =>
    have hstop := (h.of_last? hlast).toNat_stop
    by_cases hcontinues : last.kind = token.kind ∧ last.stop = token.begin
    · have hlength := ((h.of_last? hlast).toNat_length_add htoken hcontinues.2).1
      have hvalues : last.value.kind = token.value.kind ∧ last.value.stop = token.value.begin :=
        ⟨hcontinues.1, by rw [← hstop, hcontinues.2]; rfl⟩
      simp only [Option.map_some]
      rw [if_pos hcontinues, map_resizeLast, hlength]
      exact (if_pos hvalues).symm
    · have hvalues : ¬ (last.value.kind = token.value.kind ∧ last.value.stop = token.value.begin) :=
        fun hvalues ↦ hcontinues ⟨hvalues.1, BitVec.eq_of_toNat_eq (hstop.trans hvalues.2)⟩
      simp only [Option.map_some]
      rw [if_neg hcontinues, map_push]
      exact (if_neg hvalues).symm

theorem value_accept (h : sink.Exact) (token : Token (BitVec w))
    {store : Sink (BitVec w) → Sink (BitVec w)} {store' : Sink → Sink}
    (hstore : (store sink).value = store' sink.value) :
    (sink.accept token store).value = sink.value.accept token.value store' := by
  have hlength : token.length = 0 ↔ token.value.length = 0 := by
    rw [← BitVec.toNat_inj]
    rfl
  have horder : token.begin < sink.stop ↔ token.value.begin < sink.value.stop := by
    rw [← h.toNat_stop]
    exact BitVec.lt_def
  unfold Sink.accept
  simp only [← hlength, ← horder, ← hstore]
  split
  · rfl
  · split <;> rfl

theorem accept (h : sink.Exact) {store : Sink (BitVec w) → Sink (BitVec w)}
    (hstore : (store sink).Exact) : (sink.accept token store).Exact := by
  unfold Sink.accept
  split
  · exact h
  · split
    · exact h
    · exact hstore

end Exact

namespace Action

/-- The action with its offsets read as numbers. -/
def value : Action (BitVec w) → Action
  | .emit token => .emit token.value
  | .emitCoalescing token => .emitCoalescing token.value
  | .startScan => .startScan
  | .clear => .clear
  | .mark => .mark
  | .rollback number => .rollback number

theorem forgives_value (action : Action (BitVec w)) : action.value.Forgives ↔ action.Forgives := by
  cases action <;> simp [Forgives, value]

end Action

namespace Session

def value (session : Session (BitVec w)) : Session :=
  ⟨session.sink.value, session.marks.map (Mark.map BitVec.toNat)⟩

/-- The action makes no token end where the offsets do not reach: neither what it reports, nor the
last token when a rollback has given it a length. -/
def StaysExact (session : Session (BitVec w)) : Action (BitVec w) → Prop
  | .emit token | .emitCoalescing token => token.Exact
  | .rollback number =>
    ∀ last ∈ (session.perform (.rollback number)).sink.tokens.back?, last.Exact
  | .startScan | .clear | .mark => True

instance (session : Session (BitVec w)) (action : Action (BitVec w)) :
    Decidable (session.StaysExact action) :=
  match action with
  | .emit token | .emitCoalescing token => inferInstanceAs (Decidable token.Exact)
  | .rollback number => inferInstanceAs (Decidable (∀ last ∈
      (session.perform (.rollback number)).sink.tokens.back?, last.Exact))
  | .startScan | .clear | .mark => inferInstanceAs (Decidable True)

/-- None of the actions makes a token end where the offsets do not reach. -/
def AllExact (session : Session (BitVec w)) : List (Action (BitVec w)) → Prop
  | [] => True
  | action :: actions => session.StaysExact action ∧ (session.perform action).AllExact actions

instance AllExact.decidable (session : Session (BitVec w)) :
    (actions : List (Action (BitVec w))) → Decidable (session.AllExact actions)
  | [] => inferInstanceAs (Decidable True)
  | action :: actions =>
    have := AllExact.decidable (session.perform action) actions
    inferInstanceAs (Decidable (session.StaysExact action ∧ (session.perform action).AllExact actions))

/-- An action on offsets of a width is the action on their numbers, as long as no end goes beyond
it. -/
theorem value_perform {session : Session (BitVec w)} {action : Action (BitVec w)}
    (h : session.sink.Exact) (haction : session.StaysExact action) :
    (session.perform action).value = session.value.perform action.value := by
  cases action with
  | emit token =>
    have hsink := h.value_accept token (map_push _ session.sink token)
    exact congrArg (Session.mk · session.value.marks) hsink
  | emitCoalescing token =>
    have hsink := h.value_accept token (h.value_merge haction)
    exact congrArg (Session.mk · session.value.marks) hsink
  | startScan => exact congrArg (Session.mk · session.value.marks) (map_startScan _ session.sink)
  | clear => exact congrArg (Session.mk · session.value.marks) (map_empty _)
  | mark => simp [perform, value, Action.value, map_mark, Sink.value]
  | rollback number =>
    have hmark : session.value.marks[number]? =
        session.marks[number]?.map (Mark.map BitVec.toNat) := Array.getElem?_map
    cases hfound : session.marks[number]? with
    | none =>
      rw [hfound] at hmark
      rw [perform_rollback_of_none hfound]
      exact (perform_rollback_of_none hmark).symm
    | some mark =>
      rw [hfound] at hmark
      rw [perform_rollback_of_some hfound]
      refine Eq.trans ?_ (perform_rollback_of_some hmark).symm
      exact congrArg (Session.mk · session.value.marks) (map_rollback _ session.sink mark)

theorem exact_perform {session : Session (BitVec w)} {action : Action (BitVec w)}
    (h : session.sink.Exact) (haction : session.StaysExact action) :
    (session.perform action).sink.Exact := by
  cases action with
  | emit token => exact h.accept (h.push haction)
  | emitCoalescing token => exact h.accept (h.merge haction)
  | startScan => exact h
  | clear => exact Exact.empty
  | mark => exact h
  | rollback number =>
    cases hfound : session.marks[number]? with
    | none =>
      rw [perform_rollback_of_none hfound]
      exact h
    | some mark =>
      simp only [StaysExact] at haction
      rw [perform_rollback_of_some hfound] at haction ⊢
      exact h.rollback haction

theorem allExact_concat {session : Session (BitVec w)} {actions : List (Action (BitVec w))}
    {action : Action (BitVec w)} : session.AllExact (actions ++ [action]) ↔
      session.AllExact actions ∧ (session.performAll actions).StaysExact action := by
  induction actions generalizing session with
  | nil => simp [AllExact, performAll]
  | cons first actions ih =>
    simp only [List.cons_append, AllExact, ih, performAll, List.foldl_cons, and_assoc]

/-- As long as no end is too large, the words are as good as the numbers. -/
theorem value_performAll {actions : List (Action (BitVec w))}
    (h : AllExact ({} : Session (BitVec w)) actions) :
    (performAll {} actions).value = performAll {} (actions.map Action.value) ∧
      (performAll {} actions).sink.Exact := by
  induction actions using List.reverseRecOn with
  | nil => exact ⟨by simp [performAll, value, Sink.value], Exact.empty⟩
  | append_singleton actions action ih =>
    obtain ⟨hfront, haction⟩ := allExact_concat.1 h
    obtain ⟨hvalue, hexact⟩ := ih hfront
    rw [performAll_concat, List.map_append, List.map_singleton, performAll_concat, ← hvalue]
    exact ⟨value_perform hexact haction, exact_perform hexact haction⟩

/-- Among the actions there is one that was out of order where it was done, counted in numbers, and
nothing forgave it since. -/
def Offended (session : Session (BitVec w)) (actions : List (Action (BitVec w))) : Prop :=
  ∃ before action later, actions = before ++ action :: later ∧
    action.value.Offends (session.performAll before).sink.value ∧
      ∀ other ∈ later, ¬ other.Forgives

/-- After one more action there is an offence if the action is one, or if there was one before that
it does not forgive. -/
theorem offended_concat (session : Session (BitVec w)) (actions : List (Action (BitVec w)))
    (action : Action (BitVec w)) : session.Offended (actions ++ [action]) ↔
      action.value.Offends (session.performAll actions).sink.value ∨
        (session.Offended actions ∧ ¬ action.Forgives) := by
  constructor
  · rintro ⟨before, first, later, hactions, hoffends, hlater⟩
    rcases List.eq_nil_or_concat' later with rfl | ⟨later, last, rfl⟩
    · obtain ⟨rfl, hlast⟩ := List.append_inj' hactions rfl
      obtain ⟨rfl, -⟩ := List.cons_eq_cons.1 hlast
      exact .inl hoffends
    · rw [← List.cons_append, ← List.append_assoc] at hactions
      obtain ⟨rfl, hlast⟩ := List.append_inj' hactions rfl
      obtain ⟨rfl, -⟩ := List.cons_eq_cons.1 hlast
      exact .inr ⟨⟨before, first, later, rfl, hoffends,
        fun other hother ↦ hlater other (List.mem_append_left _ hother)⟩, hlater _ (by simp)⟩
  · rintro (hoffends | ⟨⟨before, first, later, rfl, hoffends, hlater⟩, hkept⟩)
    · exact ⟨actions, action, [], rfl, hoffends, by simp⟩
    · refine ⟨before, first, later ++ [action], by simp, hoffends, ?_⟩
      intro other hother
      rcases List.mem_append.1 hother with hmem | hmem
      · exact hlater other hmem
      · rw [List.mem_singleton.1 hmem]
        exact hkept

/-- After a history within the width the sink is poisoned just where an emission offended. -/
theorem poisoned_performAll {actions : List (Action (BitVec w))} (h : AllExact {} actions) :
    (performAll {} actions).sink.poisoned = true ↔ Offended {} actions := by
  induction actions using List.reverseRecOn with
  | nil => simp [performAll, Offended, Sink.empty]
  | append_singleton actions action ih =>
    obtain ⟨hfront, haction⟩ := allExact_concat.1 h
    have hvalue := value_perform (value_performAll hfront).2 haction
    calc
      _ ↔ ((performAll {} actions).value.perform action.value).sink.poisoned = true := by
        rw [performAll_concat, ← hvalue]
        rfl
      _ ↔ action.value.Offends (performAll {} actions).sink.value ∨
          ((performAll {} actions).sink.poisoned = true ∧ ¬ action.value.Forgives) :=
        poisoned_perform _ _
      _ ↔ _ := by rw [ih hfront, Action.forgives_value, offended_concat]

/-- After any history of a new sink its current scan is there to be read. If no token was made to
end where the offsets do not reach, no token is empty, the tokens of the scan are in order and do
not overlap, and the sink is poisoned exactly if an emission of the scan was out of order. -/
theorem performAll_sound (actions : List (Action (BitVec w))) :
    let sink := (performAll {} actions).sink
    sink.scanStart ≤ sink.tokens.size ∧
      sink.currentScan.toList = sink.tokens.toList.drop sink.scanStart ∧
      (AllExact {} actions →
        (∀ token ∈ sink.tokens, 0 < token.value.length ∧ token.value.stop < 2 ^ w) ∧
        (sink.currentScan.toList.Pairwise fun before after ↦
          before.value.begin < after.value.begin ∧ before.value.stop ≤ after.value.begin) ∧
        (sink.poisoned = true ↔ Offended {} actions)) := by
  intro sink
  refine ⟨wellFormed_performAll actions, toList_currentScan sink, fun h ↦ ?_⟩
  obtain ⟨hvalue, hexact⟩ := value_performAll h
  have hsound : sink.value.Sound := by
    have hnumbers := (sound_performAll (actions.map Action.value)).sink
    rwa [← hvalue] at hnumbers
  have hlength (token : Token (BitVec w)) (htoken : token ∈ sink.tokens.toList) :
      0 < token.value.length := by
    apply hsound.length_pos
    simpa [Sink.value, Sink.map] using ⟨token, Array.mem_toList_iff.1 htoken, rfl⟩
  refine ⟨fun token htoken ↦ ⟨hlength token htoken.val, hexact token htoken.val⟩, ?_,
    poisoned_performAll h⟩
  have hordered := hsound.ordered
  rw [currentScan_value, InOrder, List.pairwise_map] at hordered
  refine hordered.imp_of_mem fun {before after} hbefore _ hstop ↦ ⟨?_, hstop⟩
  have hpos := hlength before (by
    rw [toList_currentScan] at hbefore
    exact List.mem_of_mem_drop hbefore)
  unfold Token.stop at hstop
  omega

/-- A mark from before a clearing gives the token that begins at 2 the length 5. -/
theorem performAll_sound_stale :
    let actions : List (Action (BitVec 64)) :=
      [.emit ⟨0, 5, .comment⟩, .mark, .clear, .emit ⟨2, 1, .string⟩, .rollback 0,
        .emit ⟨3, 1, .string⟩]
    let sink := (performAll {} actions).sink
    AllExact {} actions ∧ sink.tokens = #[⟨2, 5, .string⟩] ∧ Offended {} actions := by
  intro actions sink
  have hexact : AllExact {} actions := by decide
  have hpoisoned := ((performAll_sound actions).2.2 hexact).2.2
  exact ⟨hexact, by decide, hpoisoned.1 (by decide)⟩

/-- Every emission ends in time, but the mark from before the clearing makes the token that begins
at 1 so long that its end is 0. -/
def staleLength : List (Action (BitVec 64)) :=
  [.emit ⟨0, BitVec.allOnes 64, .comment⟩, .mark, .clear, .emit ⟨1, 1, .comment⟩, .rollback 0]

/-- An emission that starts before the end of that token, and even before its begin, is stored and
does not poison the sink. One that merges makes the token an empty one. -/
theorem staleLength_unsound :
    let separate : Action (BitVec 64) := .emit ⟨0, 1, .comment⟩
    let merging : Action (BitVec 64) := .emitCoalescing ⟨0, 1, .comment⟩
    let sink := (performAll {} (staleLength ++ [separate])).sink
    (∀ action ∈ staleLength ++ [separate, merging], ∀ token ∈ action.token?, token.Exact) ∧
      sink.tokens = #[⟨1, BitVec.allOnes 64, .comment⟩, ⟨0, 1, .comment⟩] ∧
      (¬ sink.currentScan.toList.Pairwise fun before after ↦
        before.value.begin < after.value.begin) ∧
      sink.poisoned = false ∧ Offended {} (staleLength ++ [separate]) ∧
      (performAll {} (staleLength ++ [merging])).sink.tokens = #[⟨1, 0, .comment⟩] := by
  intro separate merging sink
  refine ⟨by decide, by decide, by decide, by decide, ?_, by decide⟩
  refine ⟨staleLength, separate, [], rfl, ?_, by simp⟩
  have hlast : (performAll {} staleLength).sink.currentScan.toList.getLast? =
      some ⟨1, BitVec.allOnes 64, .comment⟩ := by decide
  refine ⟨⟨0, 1, .comment⟩, Token.value ⟨1, BitVec.allOnes 64, .comment⟩, rfl, by decide, ?_,
    by decide⟩
  rw [currentScan_value, List.getLast?_map, hlast]
  rfl

end Session

end Sink

end Highlight
