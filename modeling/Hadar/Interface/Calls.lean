import Hadar.Interface.Crash
import Hadar.Model.Calls

/-!
# The log as one object

What a log that is called by many at once is for, said as if they called it one after another:
a list of mutations, to which a write adds its own and is told their revisions, and which a read
at a revision looks at. A call that fails does nothing.
-/

set_option autoImplicit false

namespace Hadar.Wal

open Hadar.Lib Hadar.Storage Hadar.Mvcc

/-- What a call may return after some mutations, and which mutations there are then. -/
inductive LogStep : List Mutation → Ask → Outcome → List Mutation → Prop where
  | wrote (log mutations : List Mutation) :
    LogStep log (.write mutations)
      (.write (.ok ((stampedFrom log.length mutations).map (·.1)))) (log ++ mutations)
  | notWritten (log mutations : List Mutation) (e : Error) :
    LogStep log (.write mutations) (.write (.error e)) log
  | checkpointed (log : List Mutation) (result : Except Error ℕ) :
    LogStep log .checkpoint (.checkpoint result) log
  /-- the records at the revision asked for, or at the newest one -/
  | found {log : List Mutation} {bounds : Bounds} {at_ : Option ℕ} {records : List Record}
    (limit : Option ℕ) (past : at_.getD log.length ≤ log.length)
    (lists : Lists (stamped log) bounds (at_.getD log.length) records) :
    LogStep log (.range bounds at_ limit) (.range (.ok (capped limit records))) log
  | future {log : List Mutation} {at_ : ℕ} (bounds : Bounds) (limit : Option ℕ)
    (ahead : log.length < at_) :
    LogStep log (.range bounds (some at_) limit)
      (.range (.error (.error (.futureRevision at_ log.length)))) log
  /-- the start is past the end, and a key was put before -/
  | panicked {log : List Mutation} {bounds : Bounds} {at_ : Option ℕ} (limit : Option ℕ)
    (past : at_.getD log.length ≤ log.length) (crossed : bounds.panics = true)
    (filled : ∃ m ∈ log, m.isDelete = false) :
    LogStep log (.range bounds at_ limit) (.range (.error .panic)) log
  | notRead (log : List Mutation) (bounds : Bounds) (at_ limit : Option ℕ) (e : Storage.Error) :
    LogStep log (.range bounds at_ limit) (.range (.error (.error (.storage e)))) log

/-- The object, from some mutations on. -/
def logObject (base : List Mutation) : Sequential (List Mutation) Ask Outcome := ⟨base, LogStep⟩

/-- The mutations that a call added. -/
def addedBy : Effect Ask Outcome → List Mutation
  | ⟨_, .write mutations, .write (.ok _)⟩ => mutations
  | _ => []

/-- The mutations that some calls added, one call after another. -/
def added (order : List (Effect Ask Outcome)) : List Mutation := order.flatMap addedBy

variable [Crc32]

/-- What the parties can do in any order, with what is seen of it. -/
inductive Interleaving (checkpointInterval : ℕ) (s₀ : System) :
    List (Mark Ask Outcome) → System → Prop where
  | start : Interleaving checkpointInterval s₀ [] s₀
  | performed {history : List (Mark Ask Outcome)} {s s' : System}
    {mark : Option (Mark Ask Outcome)} (action : Action)
    (before : Interleaving checkpointInterval s₀ history s)
    (ran : s.perform checkpointInterval action = some (s', mark)) :
    Interleaving checkpointInterval s₀ (history ++ mark.toList) s'

/-- Takes some steps one after another, where each of them can be taken. -/
def System.performs (checkpointInterval : ℕ) (s : System) :
    List Action → Option (System × List (Mark Ask Outcome))
  | [] => some (s, [])
  | action :: rest =>
    match s.perform checkpointInterval action with
    | none => none
    | some (s', mark) =>
      match performs checkpointInterval s' rest with
      | none => none
      | some (s'', marks) => some (s'', mark.toList ++ marks)

/-- A log that is opened over a writer, whatever is to become of the operations and the calls that
the thread makes. -/
def System.opened (w : Writer) (replies : List Reply) (calls : List Storage.Reply)
    (spawned : Bool) : System := System.start (w.given replies calls) spawned

end Hadar.Wal
