import Highlight.Token.Basic

/-!
# Token sinks

A sink collects the tokens of one scan after another. Within a scan tokens come in order and do not
overlap: an emission that starts before the end of the last token of the scan is refused and
poisons the sink. A mark allows everything emitted since to be taken back, including what merging
added to the last token.
-/

namespace Highlight

/-- The tokens collected so far. -/
structure Sink (ω : Type := Nat) where
  /-- All tokens, those of earlier scans first. -/
  tokens : Array (Token ω) := #[]
  /-- How many tokens belong to earlier scans. -/
  scanStart : Nat := 0
  /-- An emission of the current scan was out of order. -/
  poisoned : Bool := false
  deriving DecidableEq, Repr, Inhabited

namespace Sink

/-- A state of a sink to which it can return: its size, and the length of its last token. -/
structure Mark (ω : Type := Nat) where
  size : Nat
  lastLength : Option ω
  deriving DecidableEq, Repr, Inhabited

variable {ω : Type}

def empty : Sink ω := {}

/-- The sink with its offsets converted. -/
def map {ω' : Type} (f : ω → ω') (sink : Sink ω) : Sink ω' :=
  { sink with tokens := sink.tokens.map (Token.map f) }

def currentScan (sink : Sink ω) : Array (Token ω) := sink.tokens.extract sink.scanStart

def last? (sink : Sink ω) : Option (Token ω) :=
  if sink.scanStart < sink.tokens.size then sink.tokens.back? else none

def stop [Add ω] [OfNat ω 0] (sink : Sink ω) : ω := (sink.last?.map Token.stop).getD 0

/-- Opens a scan: the tokens so far are left alone, and nothing is held against the sink. -/
def startScan (sink : Sink ω) : Sink ω :=
  { sink with scanStart := sink.tokens.size, poisoned := false }

def clear (_ : Sink ω) : Sink ω := {}

@[inline] def push (token : Token ω) (sink : Sink ω) : Sink ω :=
  { sink with tokens := sink.tokens.push token }

@[inline] def resizeLast (length : ω) (sink : Sink ω) : Sink ω :=
  { sink with tokens := sink.tokens.modify (sink.tokens.size - 1) ({ · with length }) }

/-- The present state, to come back to. -/
def mark (sink : Sink ω) : Mark ω := ⟨sink.tokens.size, sink.tokens.back?.map Token.length⟩

/-- Takes back what was emitted since the mark. Poison stays. -/
def rollback (mark : Mark ω) (sink : Sink ω) : Sink ω :=
  let sink := { sink with
    tokens := sink.tokens.take mark.size
    scanStart := min sink.scanStart mark.size }
  match mark.lastLength with
  | some length => sink.resizeLast length
  | none => sink

variable [Add ω] [DecidableEq ω]

/-- Adds a token at the end, or lengthens the last token of the scan by it if that has the same kind
and ends where the new one begins. -/
def merge (token : Token ω) (sink : Sink ω) : Sink ω :=
  match sink.last? with
  | some last =>
    if last.kind = token.kind ∧ last.stop = token.begin then
      sink.resizeLast (last.length + token.length)
    else sink.push token
  | none => sink.push token

variable [LT ω] [DecidableLT ω] [OfNat ω 0]

/-- Takes a token in with `store`, unless it is empty or out of order. -/
@[inline] def accept (sink : Sink ω) (token : Token ω) (store : Sink ω → Sink ω) : Sink ω :=
  if token.length = 0 then sink
  else if token.begin < sink.stop then { sink with poisoned := true }
  else store sink

def emit (token : Token ω) (sink : Sink ω) : Sink ω := sink.accept token (push token)

/-- Reports a token, which is merged into the last token of the scan where it continues that. -/
def emitCoalescing (token : Token ω) (sink : Sink ω) : Sink ω := sink.accept token (merge token)

end Sink

variable {ω : Type} [Add ω] [DecidableEq ω] [LT ω] [DecidableLT ω] [OfNat ω 0] in
/-- Merges the touching tokens of one kind; tokens out of order and empty ones are left out. -/
def coalesce (tokens : List (Token ω)) : List (Token ω) :=
  (tokens.foldl (fun sink token ↦ sink.emitCoalescing token) Sink.empty).tokens.toList

end Highlight
