import Highlight.Sink.Basic

/-!
# Sink sessions

A session drives a sink by a list of actions. Every mark ever taken is kept, so that a rollback may
name one that is older than a later scan or a clearing.
-/

namespace Highlight.Sink

/-- One thing to do with a sink. -/
inductive Action (ω : Type := Nat) where
  | emit (token : Token ω)
  | emitCoalescing (token : Token ω)
  | startScan
  | clear
  /-- Takes a mark; marks are numbered from 0 in the order they were taken. -/
  | mark
  | rollback (number : Nat)
  deriving DecidableEq, Repr

/-- A sink with the marks taken from it so far. -/
structure Session (ω : Type := Nat) where
  sink : Sink ω := .empty
  marks : Array (Mark ω) := #[]
  deriving DecidableEq, Repr

namespace Session

variable {ω : Type} [Add ω] [DecidableEq ω] [LT ω] [DecidableLT ω] [OfNat ω 0]

/-- Does one action; a rollback to a mark that was never taken does nothing. -/
def perform (session : Session ω) : Action ω → Session ω
  | .emit token => { session with sink := session.sink.emit token }
  | .emitCoalescing token => { session with sink := session.sink.emitCoalescing token }
  | .startScan => { session with sink := session.sink.startScan }
  | .clear => { session with sink := session.sink.clear }
  | .mark => { session with marks := session.marks.push session.sink.mark }
  | .rollback number =>
    match session.marks[number]? with
    | some mark => { session with sink := session.sink.rollback mark }
    | none => session

def performAll (session : Session ω) (actions : List (Action ω)) : Session ω :=
  actions.foldl perform session

end Session

end Highlight.Sink
