import Hadar.Interface.Transactions
import Hadar.Model.Gate

/-!
# What the gate owes its clients

Any order of the steps of its clients, those of the gate taken one lock at a time, and when it is
that somebody could pass the gate.
-/

set_option autoImplicit false

namespace Hadar.Mem

open Hadar.Lib Hadar.Storage

namespace Gated

/-- Where the clients can come to in any order. -/
inductive Reachable : Gated → Prop where
  | start : Reachable new
  | performed {g g' : Gated} (event : Event) (before : Reachable g)
    (ran : g.perform event = some g') : Reachable g'

/-- Some steps, one after another. -/
def performs (g : Gated) : List Event → Option Gated
  | [] => some g
  | event :: rest =>
    match g.perform event with
    | none => none
    | some g' => performs g' rest

/-- What a step is at the gate. -/
def Event.atGate : Event → Option (Monitor.Event ℕ)
  | .gate event => some event
  | .acquired id => some (.enter id)
  | .released id _ => some (.clear id)
  | .act _ => none

/-- The action that the step is where each call of the gate is one. -/
def Event.action : Event → Option Action
  | .gate _ => none
  | .acquired id => some (.acquire id)
  | .released _ action | .act action => some action

/-- Taking the mutex of the gate, or notifying. -/
def Event.settles (event : Event) : Bool := event.atGate.any Monitor.Event.settles

/-- Passing the gate. -/
def Event.passes (event : Event) : Bool := event.atGate.any Monitor.Event.enters

/-- The flag is down, and somebody is in `acquire`. -/
def Open (g : Gated) : Prop := g.gate.data = false ∧ ∃ id, (g.gate.pc id).wants = true

end Gated

end Hadar.Mem
