import Highlight.Proofs.Cursor.Reading
import Highlight.Proofs.Frames
import Highlight.Run

/-!
# Tokens in place

A cursor in step stands on a boundary of its source, behind all the tokens of the scan, and no token
was refused. Pieces that fit what is left keep it in step, also inside attempts that fail. Since the
pieces of every language fit their source, the tokens of a scan lie one behind the other on
boundaries of the source, whatever the source and the options are.
-/

namespace Highlight

open Text (IsBoundary)

/-- The token is not empty and lies between boundaries of the source. -/
structure Token.IsPlaced (source : List Char) (token : Token) : Prop where
  length_pos : 0 < token.length
  begin_boundary : IsBoundary source token.begin
  stop_boundary : IsBoundary source token.stop
  stop_le : token.stop ≤ Text.byteLength source

/-- A token in place covers what stands between two ends of the source. -/
theorem Token.IsPlaced.exists_text {source : List Char} {token : Token}
    (h : token.IsPlaced source) : ∃ front behind,
      source = front ++ (token.text source ++ behind) ∧ Text.byteLength front = token.begin ∧
        Text.byteLength (token.text source) = token.length := by
  obtain ⟨front, hfront, hbegin⟩ := h.begin_boundary
  obtain ⟨whole, ⟨behind, hwhole⟩, hstop⟩ := h.stop_boundary
  have hsum : token.stop = token.begin + token.length := rfl
  have hpos := h.length_pos
  rw [← hwhole] at hfront
  rcases List.prefix_or_prefix_of_prefix hfront (List.prefix_append _ _) with hle | hle
  · obtain ⟨middle, rfl⟩ := hle
    rw [List.append_assoc] at hwhole
    have htext : token.text source = middle := by
      rw [Token.text, ← hwhole, hbegin, hstop, Text.slice_append]
    rw [Text.byteLength_append] at hstop
    refine ⟨front, behind, ?_, hbegin.symm, ?_⟩
    · rw [htext, hwhole]
    · rw [htext]
      omega
  · obtain ⟨rest, rfl⟩ := hle
    rw [Text.byteLength_append] at hbegin
    omega

/-- The tokens are in place, in order and without overlap. -/
structure WellPlaced (source : List Char) (tokens : List Token) : Prop where
  placed : ∀ token ∈ tokens, token.IsPlaced source
  ordered : tokens.Pairwise fun before after ↦
    before.begin < after.begin ∧ before.stop ≤ after.begin

namespace WellPlaced

variable {source : List Char} {tokens : List Token} {token : Token}

theorem nil : WellPlaced source [] := ⟨by simp, List.Pairwise.nil⟩

theorem concat (h : WellPlaced source tokens) (htoken : token.IsPlaced source)
    (horder : ∀ before ∈ tokens, before.stop ≤ token.begin) :
    WellPlaced source (tokens ++ [token]) where
  placed := by
    simp only [List.mem_append, List.mem_singleton]
    rintro t (ht | rfl)
    · exact h.placed t ht
    · exact htoken
  ordered := by
    rw [List.pairwise_append]
    refine ⟨h.ordered, List.pairwise_singleton _ _, ?_⟩
    intro before hbefore after hafter
    obtain rfl := List.mem_singleton.1 hafter
    have hstop := horder before hbefore
    have hpos := (h.placed before hbefore).length_pos
    unfold Token.stop at hstop ⊢
    omega

theorem of_concat (h : WellPlaced source (tokens ++ [token])) :
    WellPlaced source tokens ∧ token.IsPlaced source ∧
      ∀ before ∈ tokens, before.stop ≤ token.begin := by
  obtain ⟨hordered, -, hcross⟩ := List.pairwise_append.1 h.ordered
  refine ⟨⟨fun t ht ↦ h.placed t (by simp [ht]), hordered⟩, h.placed token (by simp), ?_⟩
  exact fun before hbefore ↦ (hcross before hbefore token (by simp)).2

/-- All tokens end at the end of the last one or before. -/
theorem stop_le_last (h : WellPlaced source tokens) :
    ∀ before ∈ tokens, before.stop ≤ (tokens.getLast?.map Token.stop).getD 0 :=
  Sink.InOrder.stop_le_last (h.ordered.imp And.right)

/-- A token behind the others may be added to them or merged into them. -/
theorem merged (h : WellPlaced source tokens) (htoken : token.IsPlaced source)
    (horder : (tokens.getLast?.map Token.stop).getD 0 ≤ token.begin) :
    WellPlaced source (Sink.merged tokens token) := by
  have hall (before : Token) (hbefore : before ∈ tokens) : before.stop ≤ token.begin :=
    Nat.le_trans (h.stop_le_last before hbefore) horder
  unfold Sink.merged
  split
  · next last hlast =>
    obtain ⟨front, rfl⟩ := List.getLast?_eq_some_iff.1 hlast
    split
    · next hcontinues =>
      obtain ⟨hfront, hplaced, horderLast⟩ := h.of_concat
      rw [List.dropLast_concat]
      have hstop : last.begin + (last.length + token.length) = token.stop :=
        calc
          _ = last.stop + token.length := (Nat.add_assoc _ _ _).symm
          _ = token.stop := by rw [hcontinues.2, Token.stop]
      refine hfront.concat ⟨Nat.add_pos_left hplaced.length_pos _, hplaced.begin_boundary, ?_, ?_⟩
        horderLast
      · rw [Token.stop, hstop]
        exact htoken.stop_boundary
      · rw [Token.stop, hstop]
        exact htoken.stop_le
    · exact h.concat htoken hall
  · next hnone =>
    rw [List.getLast?_eq_none_iff] at hnone
    subst hnone
    exact h.concat htoken hall

end WellPlaced

namespace Cursor

/-- The cursor stands on a boundary of its source, behind the tokens of the scan, which are in
place, and no token was refused. -/
structure InStep (cursor : Cursor) : Prop where
  between : ∃ front, cursor.IsBetween front cursor.remainder
  wellFormed : cursor.sink.WellFormed
  placed : WellPlaced cursor.source cursor.sink.currentScan.toList
  stop_le : cursor.sink.stop ≤ cursor.index
  accepted : cursor.sink.poisoned = false

theorem IsBetween.inStep {front rest : List Char} {cursor : Cursor}
    (h : cursor.IsBetween front rest) (hwellFormed : cursor.sink.WellFormed)
    (hplaced : WellPlaced cursor.source cursor.sink.currentScan.toList)
    (hstop : cursor.sink.stop ≤ cursor.index) (haccepted : cursor.sink.poisoned = false) :
    cursor.InStep :=
  ⟨⟨front, by rw [h.remainder_eq]; exact h⟩, hwellFormed, hplaced, hstop, haccepted⟩

/-- A token of the next characters is placed, or it is empty. -/
theorem IsBetween.isPlaced {front text rest : List Char} {cursor : Cursor}
    (h : cursor.IsBetween front (text ++ rest)) (kind : Kind) (htext : Text.byteLength text ≠ 0) :
    Token.IsPlaced cursor.source ⟨cursor.index, Text.byteLength text, kind⟩ := by
  have hstop : cursor.index + Text.byteLength text = Text.byteLength (front ++ text) := by
    rw [h.index_eq, Text.byteLength_append]
  have hboundary : IsBoundary cursor.source (cursor.index + Text.byteLength text) := by
    rw [hstop, h.source_eq, ← List.append_assoc]
    exact Text.isBoundary_append _ _
  refine ⟨Nat.pos_of_ne_zero htext, ?_, hboundary, hboundary.le⟩
  simp only
  rw [h.source_eq, h.index_eq]
  exact Text.isBoundary_append _ _

theorem InStep.emit {cursor : Cursor} {text rest front : List Char} (h : cursor.InStep)
    (hbetween : cursor.IsBetween front (text ++ rest)) (kind : Kind) :
    let token : Token := ⟨cursor.index, Text.byteLength text, kind⟩
    let after := cursor.emit token
    WellPlaced cursor.source after.sink.currentScan.toList ∧
      after.sink.stop ≤ token.stop ∧ after.sink.poisoned = false := by
  intro token after
  have horder : cursor.sink.stop ≤ token.begin := h.stop_le
  by_cases hlength : token.length = 0
  · have hsame : after.sink = cursor.sink := by
      simp only [after, Cursor.emit, Sink.emit, Sink.emitCoalescing]
      split
      · exact Sink.accept_empty _ _ hlength
      · exact Sink.accept_empty _ _ hlength
    rw [hsame]
    exact ⟨h.placed, Nat.le_trans horder (Nat.le_add_right _ _), h.accepted⟩
  · have hplaced := hbetween.isPlaced kind hlength
    have hlast := horder
    rw [Sink.stop_eq] at hlast
    simp only [after, Cursor.emit, Sink.emit, Sink.emitCoalescing]
    split
    · rw [Sink.accept_stored _ _ hlength horder, Sink.currentScan_merge h.wellFormed,
        Sink.stop_merge h.wellFormed]
      refine ⟨h.placed.merged hplaced hlast, Nat.le_refl _, ?_⟩
      rcases Sink.merge_cases cursor.sink token with hmerge | ⟨last, -, -, -, hmerge⟩ <;>
        rw [hmerge] <;> exact h.accepted
    · rw [Sink.accept_stored _ _ hlength horder, Sink.currentScan_push h.wellFormed,
        Sink.stop_push h.wellFormed]
      refine ⟨h.placed.concat hplaced ?_, Nat.le_refl _, h.accepted⟩
      exact fun before hbefore ↦ Nat.le_trans (h.placed.stop_le_last before hbefore) hlast

mutual

/-- The cursors that are passed within a piece, which are those of a failed attempt. -/
def passedIn (cursor : Cursor) (piece : Piece Kind) : List Cursor :=
  match piece with
  | .gap _ => []
  | .token _ _ => []
  | .withdrawn reported => cursor.passed reported

/-- The cursors that are passed while pieces are read, the first and the last one included. -/
def passed (cursor : Cursor) (pieces : List (Piece Kind)) : List Cursor :=
  match pieces with
  | [] => [cursor]
  | piece :: pieces => cursor :: (cursor.passedIn piece ++ (cursor.take piece).passed pieces)

end

theorem passed_nil (cursor : Cursor) : cursor.passed [] = [cursor] := by
  rw [passed]

theorem passed_cons (cursor : Cursor) (piece : Piece Kind) (pieces : List (Piece Kind)) :
    cursor.passed (piece :: pieces) =
      cursor :: (cursor.passedIn piece ++ (cursor.take piece).passed pieces) := by
  rw [passed]

theorem read_mem_passed (cursor : Cursor) (pieces : List (Piece Kind)) :
    cursor.read pieces ∈ cursor.passed pieces := by
  induction pieces generalizing cursor with
  | nil =>
    rw [read_nil, passed_nil]
    exact List.mem_singleton_self _
  | cons piece pieces ih =>
    rw [read_cons, passed_cons]
    exact List.mem_cons_of_mem _ (List.mem_append_right _ (ih _))

/-- Text that is passed over or shown keeps the cursor in step. -/
theorem InStep.take_text {cursor : Cursor} {front rest : List Char} (h : cursor.InStep)
    (piece : Piece Kind) (hbetween : cursor.IsBetween front (piece.text ++ rest))
    (hsink : WellPlaced cursor.source (cursor.take piece).sink.currentScan.toList ∧
      (cursor.take piece).sink.stop ≤ (cursor.take piece).index ∧
      (cursor.take piece).sink.poisoned = false) : (cursor.take piece).InStep := by
  have hfollows := (Follows.refl cursor).take h.wellFormed piece
  have hafter := hbetween.take
  obtain ⟨hplaced, hstop, haccepted⟩ := hsink
  refine hafter.inStep (hfollows.sink_extends.wellFormed h.wellFormed) ?_ hstop haccepted
  rw [hfollows.source_eq]
  exact hplaced

mutual

theorem InStep.take [Text.IdentifierClasses]
    {cursor : Cursor} {piece : Piece Kind} (h : cursor.InStep)
    (hstands : piece.Stands cursor.remainder) :
    (cursor.take piece).InStep ∧ ∀ passed ∈ cursor.passedIn piece, passed.InStep := by
  obtain ⟨front, hbetween⟩ := h.between
  match piece with
  | .gap text =>
    obtain ⟨rest, hrest⟩ := (Piece.stands_gap _ _).1 hstands
    rw [← hrest] at hbetween
    rw [passedIn]
    refine ⟨h.take_text (.gap text) hbetween ?_, by simp⟩
    rw [take_gap]
    exact ⟨h.placed, Nat.le_trans h.stop_le (Nat.le_add_right _ _), h.accepted⟩
  | .token kind text =>
    obtain ⟨rest, hrest⟩ := (Piece.stands_token _ _ _).1 hstands
    rw [← hrest] at hbetween
    rw [passedIn]
    refine ⟨h.take_text (.token kind text) hbetween ?_, by simp⟩
    rw [take_token]
    exact h.emit hbetween kind
  | .withdrawn reported =>
    have hread := InStep.read h ((Piece.stands_withdrawn _ _).1 hstands)
    have haccepted := (hread _ (read_mem_passed _ _)).accepted
    rw [take_withdrawn_eq h.wellFormed, passedIn]
    refine ⟨⟨⟨front, ?_⟩, h.wellFormed, h.placed, h.stop_le, haccepted⟩, hread⟩
    exact ⟨hbetween.source_eq, hbetween.index_eq, hbetween.stop_eq⟩

/-- Pieces that fit what is left are read in step, all the way. -/
theorem InStep.read [Text.IdentifierClasses]
    {cursor : Cursor} {pieces : List (Piece Kind)} (h : cursor.InStep)
    (hfits : Piece.Fits pieces cursor.remainder) :
    ∀ passed ∈ cursor.passed pieces, passed.InStep := by
  match pieces with
  | [] =>
    rw [passed_nil]
    simpa using h
  | piece :: pieces =>
    obtain ⟨hstands, hrest⟩ := (Piece.fits_cons _ _ _).1 hfits
    obtain ⟨htake, hin⟩ := InStep.take h hstands
    obtain ⟨front, hbetween⟩ := h.between
    rw [← List.prefix_iff_eq_append.1 hstands.text_front] at hbetween
    rw [← hbetween.take.remainder_eq] at hrest
    have hafter := InStep.read htake hrest
    rw [passed_cons]
    simp only [List.mem_cons, List.mem_append]
    rintro passed (rfl | hmem | hmem)
    · exact h
    · exact hin passed hmem
    · exact hafter passed hmem

end

theorem inStep_ofSource {sink : Sink} (hsink : sink.WellFormed)
    (hempty : sink.currentScan.toList = []) (haccepted : sink.poisoned = false)
    (source : List Char) (options : Options) : (ofSource sink source options).InStep := by
  refine (isBetween_ofSource sink source options).inStep hsink ?_ ?_ haccepted
  · change WellPlaced source sink.currentScan.toList
    rw [hempty]
    exact WellPlaced.nil
  · change sink.stop ≤ 0
    rw [Sink.stop_eq, hempty]
    exact Nat.le_refl 0

end Cursor

variable [Text.IdentifierClasses]

/-! ## Scans -/

/-- The pieces of a source fit it in every language. -/
theorem Language.fits_scan (language : Language) (strict : Bool) (source : List Char) :
    Piece.Fits (language.scan strict source) source := by
  cases language with
  | xml => exact Xml.fits_scan source
  | html => exact (Html.covers_scan source).1
  | c | cpp => exact (CFamily.covers_scan _ strict source).1
  | javaScript => exact (JavaScript.covers_scan strict source).1
  | json => exact (Json.covers_scan strict source).1

/-- On the way through a source every cursor is in step, also in attempts that fail. -/
theorem Language.inStep_passed (language : Language) (options : Options) (source : List Char)
    (sink : Sink) :
    ∀ passed ∈ (Cursor.ofSource sink.startScan source options).passed
      (language.scan options.strict source), passed.InStep := by
  have hstart := Cursor.inStep_ofSource (Sink.wellFormed_startScan sink)
    (Sink.currentScan_startScan sink) rfl source options
  apply hstart.read
  rw [(Cursor.isBetween_ofSource _ _ _).remainder_eq]
  exact language.fits_scan options.strict source

/-- Whatever the source, the language, the options and the sink are, the tokens of the scan are in
place and no token was refused. On the way the cursor is always in step, so that what is left of the
source can be cut off and every token is reported behind those before it. The lengths by which it is
cut lie within it and leave room for what is taken away from them, the parts that are reported of a
length are all of it, and no inside is read beyond its end. -/
theorem highlight_wellPlaced (language : Language) (options : Options) (source : List Char)
    (sink : Sink) :
    let after := highlight language options source sink
    WellPlaced source after.1.currentScan.toList ∧
      after.1.poisoned = false ∧
      (∀ other, after.2 ≠ .error (.badState other)) ∧
      (∀ passed ∈ (Cursor.ofSource sink.startScan source options).passed
        (language.scan options.strict source), passed.InStep) ∧
      (∀ entry ∈ language.lengths, Text.HasRoom entry.1 entry.2) ∧ LengthsCut ∧
      InsidesCovered := by
  intro after
  have hpassed := language.inStep_passed options source sink
  have hend := hpassed _ (Cursor.read_mem_passed _ _)
  have hsource := ((Cursor.Follows.refl (Cursor.ofSource sink.startScan source options)).read
    (Sink.wellFormed_startScan sink) (language.scan options.strict source)).source_eq
  have hplaced := hend.placed
  rw [hsource] at hplaced
  refine ⟨hplaced, hend.accepted, ?_, hpassed, language.hasRoom_lengths, lengthsCut,
    insidesCovered⟩
  intro other
  have hresult : after.2 = language.result after.1.poisoned
      (language.scanInto options source sink.startScan).2 := rfl
  have haccepted : after.1.poisoned = false := hend.accepted
  rw [hresult, haccepted, Language.result]
  simp only [Bool.false_eq_true, if_false]
  split <;> simp

end Highlight
