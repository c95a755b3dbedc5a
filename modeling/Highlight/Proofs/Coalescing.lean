import Highlight.Proofs.Cursor.Reading
import Highlight.Run

/-!
# Merging while tokens are reported

Tokens may be merged as they are reported or afterwards. A cursor that merges and one that does not
see the same order of tokens, so they refuse the same ones, and a failed attempt undoes in both what
it had reported. Therefore the merged tokens are always those that merging afterwards gives.
-/

namespace Highlight

/-- The sink into which tokens are merged from the first one on. -/
def gathered (tokens : List Token) : Sink :=
  tokens.foldl (fun sink token ↦ sink.emitCoalescing token) .empty

theorem gathered_concat (tokens : List Token) (token : Token) :
    gathered (tokens ++ [token]) = (gathered tokens).emitCoalescing token := by
  rw [gathered, List.foldl_concat]
  rfl

theorem extends_gathered (tokens : List Token) : Sink.empty.Extends (gathered tokens) := by
  induction tokens using List.reverseRecOn with
  | nil => exact Sink.Extends.refl _
  | append_singleton tokens token ih =>
    rw [gathered_concat]
    exact ih.accept token (ih.merge token)

theorem wellFormed_gathered (tokens : List Token) : (gathered tokens).WellFormed :=
  (extends_gathered tokens).wellFormed (Nat.le_refl 0)

theorem currentScan_gathered (tokens : List Token) :
    (gathered tokens).currentScan.toList = coalesce tokens := by
  rw [Sink.toList_currentScan, (extends_gathered tokens).scanStart_eq]
  exact List.drop_zero

/-- A token that comes in order is merged into what was merged before. -/
theorem coalesce_concat {tokens : List Token} {token : Token} (hlength : token.length ≠ 0)
    (horder : (gathered tokens).stop ≤ token.begin) :
    coalesce (tokens ++ [token]) = Sink.merged (coalesce tokens) token :=
  calc
    _ = ((gathered tokens).emitCoalescing token).currentScan.toList := by
      rw [← currentScan_gathered, gathered_concat]
    _ = ((gathered tokens).merge token).currentScan.toList := by
      rw [Sink.emitCoalescing, Sink.accept_stored _ _ hlength horder]
    _ = Sink.merged (gathered tokens).currentScan.toList token :=
      Sink.currentScan_merge (wellFormed_gathered tokens) token
    _ = Sink.merged (coalesce tokens) token := by rw [currentScan_gathered]

namespace Sink

/-- The second sink holds what merging makes of the tokens of the first one, and both will refuse
the same tokens. -/
structure Coalesced (plain merging : Sink) : Prop where
  plain_wellFormed : plain.WellFormed
  merging_wellFormed : merging.WellFormed
  poisoned_eq : merging.poisoned = plain.poisoned
  stop_eq : merging.stop = plain.stop
  currentScan_eq : merging.currentScan.toList = coalesce plain.currentScan.toList

theorem coalesced_startScan (sink : Sink) : Coalesced sink.startScan sink.startScan where
  plain_wellFormed := wellFormed_startScan sink
  merging_wellFormed := wellFormed_startScan sink
  poisoned_eq := rfl
  stop_eq := rfl
  currentScan_eq := by
    rw [currentScan_startScan]
    rfl

theorem Coalesced.poison {plain merging : Sink} (h : Coalesced plain merging) (poisoned : Bool) :
    Coalesced { plain with poisoned } { merging with poisoned } :=
  ⟨h.plain_wellFormed, h.merging_wellFormed, rfl, h.stop_eq, h.currentScan_eq⟩

/-- A token that is added to the one sink and merged into the other leaves them in step. -/
theorem Coalesced.store {plain merging : Sink} (h : Coalesced plain merging) {token : Token}
    (hlength : token.length ≠ 0) (horder : plain.stop ≤ token.begin) :
    Coalesced (plain.push token) (merging.merge token) where
  plain_wellFormed := ((Extends.refl plain).push token).wellFormed h.plain_wellFormed
  merging_wellFormed := ((Extends.refl merging).merge token).wellFormed h.merging_wellFormed
  poisoned_eq := by
    rcases merge_cases merging token with hmerge | ⟨last, -, -, -, hmerge⟩ <;> rw [hmerge] <;>
      exact h.poisoned_eq
  stop_eq := by
    rw [stop_merge h.merging_wellFormed, stop_push h.plain_wellFormed]
  currentScan_eq := by
    have hgathered : (gathered plain.currentScan.toList).stop = plain.stop := by
      rw [← h.stop_eq]
      apply stop_of_currentScan_eq
      rw [currentScan_gathered, h.currentScan_eq]
    calc
      _ = merged merging.currentScan.toList token := currentScan_merge h.merging_wellFormed token
      _ = merged (coalesce plain.currentScan.toList) token := by rw [h.currentScan_eq]
      _ = coalesce (plain.currentScan.toList ++ [token]) :=
        (coalesce_concat hlength (by rw [hgathered]; exact horder)).symm
      _ = coalesce (plain.push token).currentScan.toList := by
        rw [currentScan_push h.plain_wellFormed]

/-- The same token is dropped, refused or stored in both sinks. -/
theorem Coalesced.emit {plain merging : Sink} (h : Coalesced plain merging) (token : Token) :
    Coalesced (plain.emit token) (merging.emitCoalescing token) := by
  unfold Sink.emit emitCoalescing
  by_cases hlength : token.length = 0
  · rw [accept_empty _ _ hlength, accept_empty _ _ hlength]
    exact h
  · rcases Nat.lt_or_ge token.begin plain.stop with horder | horder
    · rw [accept_refused _ _ hlength horder,
        accept_refused _ _ hlength (by rw [h.stop_eq]; exact horder)]
      exact h.poison true
    · rw [accept_stored _ _ hlength horder,
        accept_stored _ _ hlength (by rw [h.stop_eq]; exact horder)]
      exact h.store hlength horder

end Sink

namespace Cursor

/-- Two cursors at the same place of the same source, of which the second one merges. -/
structure Coalesced (plain merging : Cursor) : Prop where
  source_eq : merging.source = plain.source
  index_eq : merging.index = plain.index
  stop_eq : merging.stop = plain.stop
  plain_option : plain.options.coalescing = false
  merging_option : merging.options.coalescing = true
  sink : plain.sink.Coalesced merging.sink

theorem Coalesced.advance {plain merging : Cursor} (h : Coalesced plain merging) (length : Nat) :
    Coalesced (plain.advance length) (merging.advance length) where
  source_eq := h.source_eq
  index_eq := congrArg (· + length) h.index_eq
  stop_eq := h.stop_eq
  plain_option := h.plain_option
  merging_option := h.merging_option
  sink := h.sink

theorem Coalesced.emit {plain merging : Cursor} (h : Coalesced plain merging) (token : Token) :
    Coalesced (plain.emit token) (merging.emit token) where
  source_eq := h.source_eq
  index_eq := h.index_eq
  stop_eq := h.stop_eq
  plain_option := h.plain_option
  merging_option := h.merging_option
  sink := by
    unfold Cursor.emit
    rw [h.plain_option, h.merging_option]
    exact h.sink.emit token

mutual

/-- A piece leaves the two cursors in step, also where it is taken back. -/
theorem Coalesced.take [Text.IdentifierClasses]
    {plain merging : Cursor} (h : Coalesced plain merging) (piece : Piece Kind) :
    Coalesced (plain.take piece) (merging.take piece) := by
  match piece with
  | .gap text =>
    rw [take_gap, take_gap]
    exact h.advance _
  | .token kind text =>
    rw [take_token, take_token, emitAndAdvance, emitAndAdvance, h.index_eq]
    exact (h.emit _).advance _
  | .withdrawn reported =>
    -- Both attempts fail and take back all but the poison, which is the same in both.
    have hread := Coalesced.read h reported
    rw [take_withdrawn_eq h.sink.plain_wellFormed, take_withdrawn_eq h.sink.merging_wellFormed,
      hread.sink.poisoned_eq]
    exact ⟨h.source_eq, h.index_eq, h.stop_eq, h.plain_option, h.merging_option, h.sink.poison _⟩

theorem Coalesced.read [Text.IdentifierClasses]
    {plain merging : Cursor} (h : Coalesced plain merging)
    (pieces : List (Piece Kind)) : Coalesced (plain.read pieces) (merging.read pieces) := by
  match pieces with
  | [] =>
    rw [read_nil, read_nil]
    exact h
  | piece :: pieces =>
    rw [read_cons, read_cons]
    exact Coalesced.read (Coalesced.take h piece) pieces

end

end Cursor

/-- Merging as tokens are reported gives the same result as reading without merging, and leaves the
tokens that merging afterwards gives. -/
theorem highlight_coalescing [Text.IdentifierClasses]
    (language : Language) (strict : Bool) (source : List Char)
    (sink : Sink) :
    let plain := highlight language { coalescing := false, strict } source sink
    let merging := highlight language { coalescing := true, strict } source sink
    merging.2 = plain.2 ∧
      merging.1.currentScan.toList = coalesce plain.1.currentScan.toList := by
  intro plain merging
  have hstart : Cursor.Coalesced
      (.ofSource sink.startScan source { coalescing := false, strict })
      (.ofSource sink.startScan source { coalescing := true, strict }) :=
    ⟨rfl, rfl, rfl, rfl, rfl, Sink.coalesced_startScan sink⟩
  have hread := hstart.read (language.scan strict source)
  refine ⟨?_, hread.sink.currentScan_eq⟩
  simp only [plain, merging, highlight, Language.scanInto, Cursor.atEnd]
  rw [hread.sink.poisoned_eq, hread.stop_eq, hread.index_eq]

end Highlight
