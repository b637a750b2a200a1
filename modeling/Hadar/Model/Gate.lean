import Hadar.Lib.Monitor
import Hadar.Model.Mem

/-!
# The gate of the in-memory engine, lock by lock

`Gate` (crates/storage-api/src/mem.rs) is a flag behind a mutex, with a condition variable, and
`acquire` and `release` are several steps each: a client that finds the flag up lets go of the
mutex and waits, and one that is woken, be it for nothing, locks the mutex again and looks once
more. `Gated` is the engine with each of these steps taken on its own, in between those of other
clients. The model of the engine takes either call as one step of its client.
-/

set_option autoImplicit false

namespace Hadar.Mem

open Hadar.Lib Hadar.Storage

/-- The flag is ready to be put up while it is down.
SOURCE: crates/storage-api/src/mem.rs:33-36, 144-160 -/
def Gate.monitor : Monitor Bool where
  ready held := !held
  enter _ := true
  leave _ := false
  shuts _ := rfl
  opens _ := rfl

/-- The write transaction that an action is of. -/
def Action.writer : Action → Option ℕ
  | .beginRead _ | .readGet _ _ | .readRange _ _ _ | .dropRead _ => none
  | .acquire id | .copy id | .get id _ | .range id _ _ | .insert id _ _ | .remove id _
  | .replace id | .finish id | .abort id | .drop id => some id

def Action.acquires : Action → Bool
  | .acquire _ => true
  | _ => false

/-- What is left of a transaction after `finish` has released the gate, where the action calls it.
SOURCE: crates/storage-api/src/mem.rs:111-142 -/
def Stage.finishedBy : Stage → Action → Option Stage
  | .replaced txn, .finish _ => some (.ended { txn with finished := true })
  | .opened txn, .abort _ => some (.ended { txn with finished := true })
  | .opened _, .drop _ => some .dropped
  | .ended _, .drop _ => some .dropped
  | _, _ => none

/-- Whether the client can call `finish` in a way that releases the gate. -/
def Stage.finishable : Stage → Bool
  | .opened txn | .replaced txn | .ended txn => !txn.finished
  | .entered | .dropped => false

/-- The engine, with the gate as it is. -/
structure Gated where
  committed : Map
  reads : ℕ → Option MemRead
  writes : ℕ → Option Stage
  gate : Monitor.State Bool ℕ

namespace Gated

/-- A new engine, with nobody at the gate. -/
def new : Gated := ⟨.empty, fun _ => none, fun _ => none, .start false⟩

/-- The engine as it is when each call of the gate is one step. -/
def whole (g : Gated) : System := ⟨⟨g.committed, g.gate.data⟩, g.reads, g.writes⟩

inductive Event where
  /-- a step at the gate that leaves the flag as it is -/
  | gate (event : Monitor.Event ℕ)
  /-- the last line of `acquire` -/
  | acquired (id : ℕ)
  /-- the first line of `release`, past its lock -/
  | released (id : ℕ) (action : Action)
  /-- a step elsewhere -/
  | act (action : Action)
  deriving DecidableEq, Repr

/-- Whether a client is where it may take the step at the gate. `begin_write` is called once for a
transaction, and `release` by `finish` alone. -/
def admits (g : Gated) : Monitor.Event ℕ → Bool
  | .call id => (g.writes id).isNone
  | .leave id => (g.writes id).any fun stage => stage.finishable
  | .enter _ | .clear _ => false
  | .lock _ | .park _ | .wake _ | .notify _ _ => true

/-- Whether the client of a transaction is not at the gate. -/
def away (g : Gated) (id : ℕ) : Bool := g.gate.pc id == .outside || g.gate.pc id == .inside

/-- One step, where its client can take it. -/
def perform (g : Gated) : Event → Option Gated
  | .gate event =>
    if g.admits event then (Gate.monitor.perform g.gate event).map fun gate => { g with gate }
    else none
  | .acquired id =>
    (Gate.monitor.perform g.gate (.enter id)).map fun gate =>
      { g with gate, writes := Function.update g.writes id (some .entered) }
  | .released id action =>
    if action.writer = some id then
      match (g.writes id).bind fun stage => stage.finishedBy action with
      | none => none
      | some stage =>
        (Gate.monitor.perform g.gate (.clear id)).map fun gate =>
          { g with gate, writes := Function.update g.writes id (some stage) }
    else none
  | .act action =>
    if !action.acquires && action.writer.all g.away then
      match g.whole.perform action with
      | none => none
      -- `finish` releases the gate, and that is not a step elsewhere
      | some (_, .finished true) => none
      | some (s, _) =>
        some { g with committed := s.shared.committed, reads := s.reads, writes := s.writes }
    else none

end Gated

end Hadar.Mem
