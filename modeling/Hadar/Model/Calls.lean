import Hadar.Interface.Mailbox
import Hadar.Lib.Linearizability

/-!
# The log and its callers

`Wal` and `Writer` (crates/wal/src/wal.rs, crates/wal/src/writer.rs) with the futures that are
made of them at once, the bounded queue between these and the writer thread, and reads of the
store the log protects.

A step of `System` is what one party does between two points where another may run. The thread
shares nothing but the queue and the store, and the store is touched in one section of its lock by
`apply` and in one by `checkpoint`; so a batch is retired in one step, and so is a checkpoint
taken. What a future does up to its next `await` is a step too. A call waits where it has no step.
A number stands for a call and for the channel it is answered on.
-/

set_option autoImplicit false

namespace Hadar.Wal

open Hadar.Lib Hadar.Storage Hadar.Mvcc

/-- How many writes may be queued before callers are made to wait. -/
def queueDepth : ℕ := 1024

/-- A call of the log, or a read of the store it protects. -/
inductive Ask where
  | write (mutations : List Mutation)
  | checkpoint
  | range (bounds : Bounds) (at_ limit : Option ℕ)

/-- What a call returned. -/
inductive Outcome where
  | write (result : Except Error (List Revision))
  | checkpoint (result : Except Error ℕ)
  | range (result : Except (Stop Mvcc.Error) (List Record))

/-! ## Messages -/

namespace Message

/-- The call that sent a message. -/
def ask : Message → Ask
  | .write _ request => .write request.mutations
  | .checkpoint _ => .checkpoint

/-- What its sender is told where nobody is left to answer.
SOURCE: crates/wal/src/writer.rs:83-88, 98-103 -/
def refused : Message → Outcome
  | .write _ _ => .write (.error .shutdown)
  | .checkpoint _ => .checkpoint (.error .shutdown)

end Message

/-- What a deed tells the sender of a message. -/
def Deed.tells (message : Message) : Deed → Option Outcome
  | .answered respond result =>
    match message with
    | .write id _ => if respond = id then some (.write result) else none
    | .checkpoint _ => none
  | .checkpointed respond result =>
    match message with
    | .write _ _ => none
    | .checkpoint id => if respond = id then some (.checkpoint result) else none
  | _ => none

/-- What its channel holds for the sender of a message. -/
def Message.answer (message : Message) (deeds : List Deed) : Option Outcome :=
  deeds.findSome? (Deed.tells message)

/-! ## The parties -/

/-- How far a call is. -/
inductive Place where
  /-- at `self.submit.send(..).await` -/
  | sending (message : Message)
  /-- at `response.await` -/
  | awaiting (message : Message)
  /-- in `KvStore::range` -/
  | reading (bounds : Bounds) (at_ limit : Option ℕ)
  | told (outcome : Outcome)
  | returned
  /-- its future was dropped -/
  | dropped

/-- Where a call begins. A write of nothing is answered without the thread.
SOURCE: crates/wal/src/wal.rs:149-155, 174-176, crates/wal/src/writer.rs:81-104 -/
def Ask.first (id : ℕ) : Ask → Place
  | .write [] => .told (.write (.ok []))
  | .write mutations => .sending (.write id ⟨mutations⟩)
  | .checkpoint => .sending (.checkpoint id)
  | .range bounds at_ limit => .reading bounds at_ limit

/-- Who has borrowed the log: any number of writes, or one call that takes it alone. -/
inductive Loan where
  | shared (writes : List ℕ)
  | checkpoint (id : ℕ)
  | shutdown

namespace Loan

/-- Lends the log to a call; `none` where the borrow checker refuses it. A read goes to the store
and needs no loan. -/
def lend (loan : Loan) (id : ℕ) : Ask → Option Loan
  | .write _ =>
    match loan with
    | shared writes => some (shared (id :: writes))
    | _ => none
  | .checkpoint =>
    match loan with
    | shared [] => some (checkpoint id)
    | _ => none
  | .range _ _ _ => some loan

/-- The loan once a call has ended. -/
def giveBack (loan : Loan) (id : ℕ) : Loan :=
  match loan with
  | shared writes => shared (writes.erase id)
  | checkpoint holder => if holder = id then shared [] else loan
  | shutdown => shutdown

end Loan

/-- Where the writer thread is in `run`. -/
inductive Stage where
  /-- at `queue.blocking_recv()` -/
  | receiving
  /-- in the inner loop -/
  | draining (pending : Pending)
  /-- past the inner loop -/
  | collected (pending : Pending)
  /-- past the answers -/
  | retired (requested : Option ℕ)
  /-- it has returned -/
  | finished
  /-- it has panicked, or was never started -/
  | dead
  /-- the process has stopped -/
  | crashed

namespace Stage

/-- Whether the thread holds the channel, to answer on it later. -/
def holds (id : ℕ) : Stage → Bool
  | draining pending | collected pending =>
    pending.batch.any (fun p => p.1 == id) || pending.requested == some id
  | retired requested => requested == some id
  | _ => false

/-- Whether the thread's end of the queue is gone. -/
def isOver : Stage → Bool
  | finished | dead => true
  | _ => false

def isCrashed : Stage → Bool
  | crashed => true
  | _ => false

end Stage

/-- The log, its store and the calls that were made. -/
structure System where
  places : ℕ → Option Place
  loan : Loan
  /-- whether the sender was replaced by one of a closed channel -/
  closed : Bool
  queue : List Message
  stage : Stage
  thread : Thread

/-- What happens next. -/
inductive Action where
  | call (id : ℕ) (ask : Ask)
  | send (id : ℕ)
  /-- a read, with how the calls it makes of the engine turn out -/
  | read (id : ℕ) (calls : List Storage.Reply)
  | ret (id : ℕ)
  /-- a future is dropped where it waits -/
  | drop (id : ℕ)
  /-- the first half of `shutdown`, up to the join -/
  | shutdown
  | join
  /-- the thread's next step -/
  | advance

namespace System

/-- `Writer::start`; `spawned` tells whether the thread could be started.
SOURCE: crates/wal/src/writer.rs:55-72 -/
def start (writer : Writer) (spawned : Bool) : System :=
  ⟨fun _ => none, .shared [], false, [], if spawned then .receiving else .dead, ⟨writer, []⟩⟩

def setPlace (s : System) (id : ℕ) (place : Place) : System :=
  { s with places := Function.update s.places id (some place) }

/-- The call returns. -/
def giving (s : System) (id : ℕ) (outcome : Outcome) : System × Option (Mark Ask Outcome) :=
  ({ s with loan := s.loan.giveBack id }.setPlace id .returned, some (.returned id outcome))

/-- Whether somebody holds the channel of a call, to answer on it later. -/
def held (s : System) (id : ℕ) : Bool :=
  s.queue.any (fun m => m.respond == id) || s.stage.holds id

/-- The store, for a read whose engine calls turn out so. -/
def storeFor (s : System) (calls : List Storage.Reply) : KvStore :=
  { s.thread.writer.host.store with
    engine := { s.thread.writer.host.store.engine with replies := calls } }

/-- The store is left as a read left it; how the calls of others turn out is not its business. -/
def withStore (s : System) (store : KvStore) : System :=
  { s with thread := { s.thread with writer := { s.thread.writer with
      host := { s.thread.writer.host with store :=
        { store with engine :=
          { store.engine with replies := s.thread.writer.host.store.engine.replies } } } } } }

/-- A read of the store.
SOURCE: crates/mvcc/src/store.rs:225-261 -/
def read (s : System) (id : ℕ) (bounds : Bounds) (at_ limit : Option ℕ)
    (calls : List Storage.Reply) : System :=
  match (range bounds at_ limit).exec (s.storeFor calls) with
  | (.error .crash, store) => { s.withStore store with stage := .crashed }
  | (result, store) => (s.withStore store).setPlace id (.told (.range result))

section Thread

variable [Crc32]

/-- A part of `run` that is cut short takes the process with it, or the thread: its end of the
queue is dropped, with the channels of what is still in it. -/
def after (s : System) (stage : Stage) (p : Prog Thread Error Unit) : System :=
  match p.exec s.thread with
  | (.ok (), thread) => { s with stage := stage, thread := thread }
  | (.error .crash, thread) => { s with stage := .crashed, thread := thread }
  | (.error _, thread) => { s with stage := .dead, queue := [], thread := thread }

def taking (s : System) (pending : Pending) (message : Message) (rest : List Message) : System :=
  { s with
    queue := rest
    stage := .draining (pending.receive message)
    thread := { s.thread with deeds := s.thread.deeds ++ [.received message] } }

/-- The thread's next step; `none` where it waits or is no more.
SOURCE: crates/wal/src/writer.rs:126-172 -/
def advance (checkpointInterval : ℕ) (s : System) : Option System :=
  match s.stage with
  | .receiving =>
    match s.queue with
    | message :: rest => some (s.taking .start message rest)
    | [] => if s.closed then some { s with stage := .finished } else none
  | .draining pending =>
    if pending.batch.length < maxBatch then
      match s.queue with
      | message :: rest => some (s.taking pending message rest)
      | [] => some { s with stage := .collected pending }
    else some { s with stage := .collected pending }
  | .collected pending => some (s.after (.retired pending.requested) (retireBatch pending.batch))
  | .retired requested => some (s.after .receiving (checkpointIfDue checkpointInterval requested))
  | .finished | .dead | .crashed => none

/-- One step, where its party can take it, with what is seen of it.
SOURCE: crates/wal/src/wal.rs:149-176, crates/wal/src/writer.rs:81-123 -/
def perform (checkpointInterval : ℕ) (s : System) (action : Action) :
    Option (System × Option (Mark Ask Outcome)) :=
  if s.stage.isCrashed then none
  else
    match action with
    | .call id ask =>
      match s.places id, s.loan.lend id ask with
      | none, some loan => some ({ s with loan := loan }.setPlace id (ask.first id),
          some (.called id ask))
      | _, _ => none
    | .send id =>
      match s.places id with
      | some (.sending message) =>
        if s.closed || s.stage.isOver then some (s.setPlace id (.told message.refused), none)
        else if s.queue.length < queueDepth then
          some ({ s with queue := s.queue ++ [message] }.setPlace id (.awaiting message), none)
        else none
      | _ => none
    | .read id calls =>
      match s.places id with
      | some (.reading bounds at_ limit) => some (s.read id bounds at_ limit calls, none)
      | _ => none
    | .ret id =>
      match s.places id with
      | some (.told outcome) => some (s.giving id outcome)
      | some (.awaiting message) =>
        match message.answer s.thread.deeds with
        | some outcome => some (s.giving id outcome)
        | none => if s.held id then none else some (s.giving id message.refused)
      | _ => none
    | .drop id =>
      match s.places id with
      | some (.sending _) | some (.awaiting _) =>
        some ({ s with loan := s.loan.giveBack id }.setPlace id .dropped, none)
      | _ => none
    | .shutdown =>
      match s.loan with
      | .shared [] => some ({ s with closed := true, loan := .shutdown }, none)
      | _ => none
    | .join =>
      match s.loan with
      | .shutdown => if s.stage.isOver then some ({ s with loan := .shared [] }, none) else none
      | _ => none
    | .advance => (s.advance checkpointInterval).map (·, none)

end Thread

end System

end Hadar.Wal
