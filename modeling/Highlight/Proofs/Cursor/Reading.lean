import Highlight.Cursor.Basic
import Highlight.Proofs.Piece.Fits
import Highlight.Proofs.Sink.Emission
import Highlight.Proofs.Text.Bytes

/-!
# Cursors that read pieces

A cursor moves over the bytes of the pieces that it reads. What it withdraws moves it nowhere and
leaves no token, whatever was merged meanwhile and however deep the failed attempts are nested.
-/

namespace Highlight.Cursor

open Piece (textOf)

theorem read_nil (cursor : Cursor) : cursor.read [] = cursor := by
  rw [read]

theorem read_cons (cursor : Cursor) (piece : Piece Kind) (pieces : List (Piece Kind)) :
    cursor.read (piece :: pieces) = (cursor.take piece).read pieces := by
  rw [read]

theorem read_append (cursor : Cursor) (ps qs : List (Piece Kind)) :
    cursor.read (ps ++ qs) = (cursor.read ps).read qs := by
  induction ps generalizing cursor with
  | nil => rw [List.nil_append, read_nil]
  | cons piece ps ih => rw [List.cons_append, read_cons, read_cons, ih]

theorem take_gap (cursor : Cursor) (text : List Char) :
    cursor.take (.gap text) = cursor.advance (Text.byteLength text) := by
  rw [take]

theorem take_token (cursor : Cursor) (kind : Kind) (text : List Char) :
    cursor.take (.token kind text) = cursor.emitAndAdvance (Text.byteLength text) kind := by
  rw [take]

theorem take_withdrawn (cursor : Cursor) (reported : List (Piece Kind)) :
    cursor.take (.withdrawn reported) = (cursor.read reported).rollback cursor.checkpoint := by
  rw [take, attempt]

theorem index_take (cursor : Cursor) (piece : Piece Kind) :
    (cursor.take piece).index = cursor.index + Text.byteLength piece.text := by
  cases piece with
  | gap text => rw [take_gap]; rfl
  | token kind text => rw [take_token]; rfl
  | withdrawn reported => rw [take_withdrawn]; rfl

theorem index_read (cursor : Cursor) (pieces : List (Piece Kind)) :
    (cursor.read pieces).index = cursor.index + Text.byteLength (textOf pieces) := by
  induction pieces generalizing cursor with
  | nil => rw [read_nil]; rfl
  | cons piece pieces ih =>
    rw [read_cons, ih, index_take, Piece.textOf_cons, Text.byteLength_append, Nat.add_assoc]

mutual

/-- A cursor stays in the range where it is. -/
theorem range_take (cursor : Cursor) (piece : Piece Kind) :
    (cursor.take piece).source = cursor.source ∧ (cursor.take piece).stop = cursor.stop := by
  match piece with
  | .gap text =>
    rw [take_gap]
    exact ⟨rfl, rfl⟩
  | .token kind text =>
    rw [take_token]
    exact ⟨rfl, rfl⟩
  | .withdrawn reported =>
    rw [take_withdrawn]
    exact range_read cursor reported

theorem range_read (cursor : Cursor) (pieces : List (Piece Kind)) :
    (cursor.read pieces).source = cursor.source ∧ (cursor.read pieces).stop = cursor.stop := by
  match pieces with
  | [] =>
    rw [read_nil]
    exact ⟨rfl, rfl⟩
  | piece :: pieces =>
    obtain ⟨hsource, hstop⟩ := range_read (cursor.take piece) pieces
    rw [read_cons, hsource, hstop]
    exact range_take cursor piece

end

/-- The cursor with another source around its place. -/
def within (source : List Char) (stop : Nat) (cursor : Cursor) : Cursor :=
  { cursor with source, stop }

mutual

/-- What a cursor emits does not depend on the source around it. -/
theorem take_within (source : List Char) (stop : Nat) (cursor : Cursor) (piece : Piece Kind) :
    (cursor.within source stop).take piece = (cursor.take piece).within source stop := by
  match piece with
  | .gap text =>
    rw [take_gap, take_gap]
    rfl
  | .token kind text =>
    rw [take_token, take_token]
    rfl
  | .withdrawn reported =>
    rw [take_withdrawn, take_withdrawn, read_within]
    rfl

theorem read_within (source : List Char) (stop : Nat) (cursor : Cursor)
    (pieces : List (Piece Kind)) :
    (cursor.within source stop).read pieces = (cursor.read pieces).within source stop := by
  match pieces with
  | [] => rw [read_nil, read_nil]
  | piece :: pieces => rw [read_cons, read_cons, take_within, read_within]

end

/-- The cursor stands between `front` and `rest`, which are all of its source. -/
structure IsBetween (front rest : List Char) (cursor : Cursor) : Prop where
  source_eq : cursor.source = front ++ rest
  index_eq : cursor.index = Text.byteLength front
  stop_eq : cursor.stop = Text.byteLength cursor.source

theorem isBetween_ofSource (sink : Sink) (source : List Char) (options : Options) :
    IsBetween [] source (ofSource sink source options) :=
  ⟨rfl, rfl, rfl⟩

/-- What is left to be read is what stands behind the cursor. -/
theorem IsBetween.remainder_eq {front rest : List Char} {cursor : Cursor}
    (h : cursor.IsBetween front rest) : cursor.remainder = rest := by
  have hslice := Text.slice_append front rest []
  rw [List.append_nil] at hslice
  calc
    _ = Text.slice cursor.source cursor.index cursor.stop := rfl
    _ = Text.slice (front ++ rest) (Text.byteLength front) (Text.byteLength (front ++ rest)) := by
      rw [h.stop_eq, h.source_eq, h.index_eq]
    _ = rest := hslice

/-- The cursor was reached from `base` within the same range and the same scan. -/
structure Follows (base cursor : Cursor) : Prop where
  source_eq : cursor.source = base.source
  stop_eq : cursor.stop = base.stop
  options_eq : cursor.options = base.options
  sink_extends : base.sink.Extends cursor.sink

theorem Follows.refl (cursor : Cursor) : Follows cursor cursor :=
  ⟨rfl, rfl, rfl, Sink.Extends.refl _⟩

theorem Follows.advance {base cursor : Cursor} (h : Follows base cursor) (length : Nat) :
    Follows base (cursor.advance length) :=
  ⟨h.source_eq, h.stop_eq, h.options_eq, h.sink_extends⟩

theorem Follows.emit {base cursor : Cursor} (h : Follows base cursor) (token : Token) :
    Follows base (cursor.emit token) := by
  refine ⟨h.source_eq, h.stop_eq, h.options_eq, ?_⟩
  unfold Cursor.emit
  split
  · exact h.sink_extends.accept token (h.sink_extends.merge token)
  · exact h.sink_extends.accept token (h.sink_extends.push token)

theorem Follows.poison {base cursor : Cursor} (h : Follows base cursor) (poisoned : Bool) :
    Follows base { cursor with sink := { cursor.sink with poisoned } } :=
  ⟨h.source_eq, h.stop_eq, h.options_eq, h.sink_extends.poison poisoned⟩

/-- An attempt that fails leaves nothing but poison. -/
theorem Follows.rollback_eq {base cursor : Cursor} (h : Follows base cursor)
    (hbase : base.sink.WellFormed) :
    cursor.rollback base.checkpoint =
      { base with sink := { base.sink with poisoned := cursor.sink.poisoned } } := by
  unfold rollback checkpoint
  rw [h.sink_extends.rollback_eq hbase]
  cases cursor
  have hsource := h.source_eq
  have hstop := h.stop_eq
  have hoptions := h.options_eq
  simp only at hsource hstop hoptions
  rw [hsource, hstop, hoptions]

mutual

theorem Follows.take {base cursor : Cursor} (hbase : base.sink.WellFormed) (h : Follows base cursor)
    (piece : Piece Kind) : Follows base (cursor.take piece) := by
  match piece with
  | .gap text =>
    rw [take_gap]
    exact h.advance _
  | .token kind text =>
    rw [take_token]
    exact (h.emit _).advance _
  | .withdrawn reported =>
    have hcursor := h.sink_extends.wellFormed hbase
    have hread := Follows.read hcursor (Follows.refl cursor) reported
    rw [take_withdrawn, hread.rollback_eq hcursor]
    exact h.poison _

theorem Follows.read {base cursor : Cursor} (hbase : base.sink.WellFormed) (h : Follows base cursor)
    (pieces : List (Piece Kind)) : Follows base (cursor.read pieces) := by
  match pieces with
  | [] =>
    rw [read_nil]
    exact h
  | piece :: pieces =>
    rw [read_cons]
    exact Follows.read hbase (Follows.take hbase h piece) pieces

end

/-- Whatever was reported and withdrawn, the cursor and its tokens are as before. -/
theorem take_withdrawn_eq {cursor : Cursor} (h : cursor.sink.WellFormed)
    (reported : List (Piece Kind)) : cursor.take (.withdrawn reported) =
      { cursor with
        sink := { cursor.sink with poisoned := (cursor.read reported).sink.poisoned } } := by
  rw [take_withdrawn, (Follows.read h (Follows.refl cursor) reported).rollback_eq h]

theorem IsBetween.take {front rest : List Char} {cursor : Cursor} {piece : Piece Kind}
    (h : cursor.IsBetween front (piece.text ++ rest)) :
    (cursor.take piece).IsBetween (front ++ piece.text) rest := by
  obtain ⟨hsource, hstop⟩ := range_take cursor piece
  refine ⟨?_, ?_, ?_⟩
  · rw [hsource, h.source_eq, List.append_assoc]
  · calc
      _ = cursor.index + Text.byteLength piece.text := index_take cursor piece
      _ = Text.byteLength (front ++ piece.text) := by rw [h.index_eq, Text.byteLength_append]
  · rw [hstop, hsource, h.stop_eq]

/-- Pieces that fit what is left move the cursor behind the text that they cover. -/
theorem IsBetween.read {front rest : List Char} {cursor : Cursor} {pieces : List (Piece Kind)}
    (h : cursor.IsBetween front (textOf pieces ++ rest)) :
    (cursor.read pieces).IsBetween (front ++ textOf pieces) rest := by
  induction pieces generalizing cursor front with
  | nil =>
    rw [read_nil, Piece.textOf_nil, List.append_nil]
    exact h
  | cons piece pieces ih =>
    rw [Piece.textOf_cons, List.append_assoc] at h
    rw [read_cons, Piece.textOf_cons, ← List.append_assoc]
    exact ih h.take

end Highlight.Cursor
