import Hadar.Interface.Calls

/-!
# What a call waits for

A call of the log waits for room in the queue, for the thread, or for nobody. What it has to wait
for at most is counted in steps of the thread, and the steps that bring it to its end are the
thread's and its own, with no other caller's among them.
-/

set_option autoImplicit false

namespace Hadar.Wal

open Hadar.Lib Hadar.Storage Hadar.Mvcc

/-- Whether a call has still to return. -/
def Place.isLive : Place → Bool
  | .returned | .dropped => false
  | _ => true

/-- A step of the thread or of the call itself, whose engine calls turn out so. -/
inductive Action.Serves (id : ℕ) (calls : List Storage.Reply) : Action → Prop where
  | advance : Serves id calls .advance
  | send : Serves id calls (.send id)
  | read : Serves id calls (.read id calls)
  | ret : Serves id calls (.ret id)

/-- The steps of a turn of the thread's loop that are still to be taken. -/
def Stage.steps : Stage → ℕ
  | .receiving => 1
  | .draining _ => 4
  | .collected _ => 3
  | .retired _ => 2
  | _ => 0

/-- A bound on the steps the thread takes before it waits. -/
def System.work (s : System) : ℕ := 4 * s.queue.length + s.stage.steps

/-- The queue is no longer than it may be, and gone where the thread is. -/
structure System.Bounded (s : System) : Prop where
  depth : s.queue.length ≤ queueDepth
  dropped : s.stage.isOver = true → s.queue = []

/-- Whether a caller is told that the log is shut down. -/
def Outcome.isShutdown : Outcome → Bool
  | .write (.error .shutdown) | .checkpoint (.error .shutdown) => true
  | _ => false

end Hadar.Wal
