import Highlight.Options
import Highlight.Piece.Basic
import Highlight.Sink.Basic

/-!
# Cursors

A cursor stands in a range of a source and reports tokens into a sink. Positions are bytes of the
whole source, also inside a nested range. An attempt that fails leaves the cursor where it was and
the sink without what was emitted meanwhile.
-/

namespace Highlight

/-- A place in the range of `source` that ends at byte `stop`. -/
structure Cursor where
  source : List Char
  /-- The byte at which the cursor stands. -/
  index : Nat
  stop : Nat
  sink : Sink
  options : Options
  deriving DecidableEq, Repr, Inhabited

namespace Cursor

/-- A cursor at byte `begin` of the source that may go up to byte `stop`. -/
def ofRange (sink : Sink) (source : List Char) (begin stop : Nat) (options : Options) : Cursor :=
  ⟨source, begin, stop, sink, options⟩

def ofSource (sink : Sink) (source : List Char) (options : Options) : Cursor :=
  ofRange sink source 0 (Text.byteLength source) options

def remainder (cursor : Cursor) : List Char := Text.slice cursor.source cursor.index cursor.stop

def atEnd (cursor : Cursor) : Bool := cursor.stop ≤ cursor.index

def advance (length : Nat) (cursor : Cursor) : Cursor :=
  { cursor with index := cursor.index + length }

def emit (token : Token) (cursor : Cursor) : Cursor :=
  { cursor with
    sink :=
      if cursor.options.coalescing then cursor.sink.emitCoalescing token
      else cursor.sink.emit token }

/-- Reports the next bytes as a token and passes over them. -/
def emitAndAdvance (length : Nat) (kind : Kind) (cursor : Cursor) : Cursor :=
  let token := ⟨cursor.index, length, kind⟩
  (cursor.emit token).advance length

/-- A state of a cursor to which it can return. -/
structure Checkpoint where
  index : Nat
  mark : Sink.Mark
  deriving DecidableEq, Repr, Inhabited

def checkpoint (cursor : Cursor) : Checkpoint := ⟨cursor.index, cursor.sink.mark⟩

/-- Goes back to a checkpoint and takes back what was emitted since. -/
def rollback (checkpoint : Checkpoint) (cursor : Cursor) : Cursor :=
  { cursor with index := checkpoint.index, sink := cursor.sink.rollback checkpoint.mark }

/-- A cursor on a range of the same source that reports into the same sink. -/
def nested (begin stop : Nat) (cursor : Cursor) : Cursor :=
  { cursor with index := begin, stop }

/-- Goes on with the sink that a nested cursor leaves. -/
def resume (cursor inner : Cursor) : Cursor :=
  { cursor with sink := inner.sink }

/-- Runs a construct that says whether it was found; if not, nothing of it remains. -/
def attempt (construct : Cursor → Cursor × Bool) (cursor : Cursor) : Cursor × Bool :=
  let checkpoint := cursor.checkpoint
  match construct cursor with
  | (cursor, true) => (cursor, true)
  | (cursor, false) => (cursor.rollback checkpoint, false)

mutual

/-- Carries a piece into the sink. What is withdrawn was reported in an attempt that fails. -/
def take (cursor : Cursor) (piece : Piece Kind) : Cursor :=
  match piece with
  | .gap text => cursor.advance (Text.byteLength text)
  | .token kind text => cursor.emitAndAdvance (Text.byteLength text) kind
  | .withdrawn reported => (cursor.attempt fun cursor ↦ (cursor.read reported, false)).1

/-- Carries pieces into the sink, front to back. -/
def read (cursor : Cursor) (pieces : List (Piece Kind)) : Cursor :=
  match pieces with
  | [] => cursor
  | piece :: pieces => (cursor.take piece).read pieces

end

end Cursor

end Highlight
