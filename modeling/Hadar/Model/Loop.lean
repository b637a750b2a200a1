import Hadar.Model.Writer

/-!
# The writer's loop

`run` (crates/wal/src/writer.rs): two receive loops that share a batch and a slot for the
checkpoint requested last. The messages that are sent before the channel closes are a list, in
the order of the queue; whether a `try_recv` finds the next of them there already is not the
thread's to say, so each poll is an answer taken from a second list.

A number stands for the channel a message is answered on. What the thread receives, calls and
answers is noted as it happens.
-/

set_option autoImplicit false

namespace Hadar.Wal

open Hadar.Lib Hadar.Storage Hadar.Mvcc

/-- What the writer thread accepts.
SOURCE: crates/wal/src/writer.rs:31-38 -/
inductive Message where
  | write (respond : ℕ) (request : Request)
  | checkpoint (respond : ℕ)

/-- Something the thread did. -/
inductive Deed where
  | received (message : Message)
  /-- `retire` returned -/
  | retired (batch : List (ℕ × Request)) (outcome : Except Error (List Revision))
  | answered (respond : ℕ) (result : Except Error (List Revision))
  /-- `compact` returned -/
  | compacted (outcome : Except Error ℕ)
  | checkpointed (respond : ℕ) (result : Except Error ℕ)

/-- The writer thread: what it works on, and what it did so far. -/
structure Thread where
  writer : Writer
  deeds : List Deed

namespace Thread

variable {α : Type}

def onWriter (p : Prog Writer Error α) : Prog Thread Error α :=
  Prog.zoom (·.writer) (fun w t => { t with writer := w }) id p

def note (deeds : List Deed) : Prog Thread Error Unit :=
  modify fun t => { t with deeds := t.deeds ++ deeds }

end Thread

/-- The variables of `run` that outlive a turn of its loop.
SOURCE: crates/wal/src/writer.rs:133-134 -/
structure Pending where
  batch : List (ℕ × Request)
  requested : Option ℕ

namespace Pending

def start : Pending := ⟨[], none⟩

/-- Takes in a message, of either receive loop; of two checkpoints the later one stays.
SOURCE: crates/wal/src/writer.rs:141-144, 148-149 -/
def receive (pending : Pending) : Message → Pending
  | .write respond request => { pending with batch := pending.batch ++ [(respond, request)] }
  | .checkpoint respond => { pending with requested := some respond }

end Pending

/-- What the inner loop leaves. -/
structure Drained where
  pending : Pending
  received : List Message
  queue : List Message
  polls : List Bool

/-- The inner loop: takes what is waiting, until the batch is full or a poll finds nothing. A poll
past the end of the list finds nothing.
SOURCE: crates/wal/src/writer.rs:146-152 -/
def drain : List Message → List Bool → Pending → Drained
  | [], polls, pending => ⟨pending, [], [], polls⟩
  | message :: rest, polls, pending =>
    if pending.batch.length < maxBatch then
      match polls with
      | true :: polls =>
        let drained := drain rest polls (pending.receive message)
        { drained with received := message :: drained.received }
      | false :: polls => ⟨pending, [], message :: rest, polls⟩
      | [] => ⟨pending, [], message :: rest, []⟩
    else ⟨pending, [], message :: rest, polls⟩

theorem length_drain (queue : List Message) (polls : List Bool) (pending : Pending) :
    (drain queue polls pending).queue.length ≤ queue.length := by
  fun_induction drain queue polls pending with
  | case1 => exact Nat.le_refl _
  | case2 message rest pending hroom polls drained ih => exact Nat.le_succ_of_le ih
  | case3 => exact Nat.le_refl _
  | case4 => exact Nat.le_refl _
  | case5 => exact Nat.le_refl _

section Run

variable [Crc32]

/-- Retires a batch that is not empty, and answers it.
SOURCE: crates/wal/src/writer.rs:154-157 -/
def retireBatch (batch : List (ℕ × Request)) : Prog Thread Error Unit :=
  if batch.isEmpty then pure () else do
    let requests := batch.map (·.2)
    let outcome ← (Thread.onWriter (retire requests)).attempt
    Thread.note [.retired batch outcome]
    Thread.note (((batch.map (·.1)).zip (answer requests outcome)).map fun p => .answered p.1 p.2)

/-- Takes the checkpoint that was requested, or one that is due.
SOURCE: crates/wal/src/writer.rs:159-170 -/
def checkpointIfDue (checkpointInterval : ℕ) (requested : Option ℕ) : Prog Thread Error Unit := do
  let reset := fun w : Writer => { w with appended := 0 }
  match requested with
  | some respond =>
    let outcome ← (Thread.onWriter (Writer.onHost compact)).attempt
    Thread.note [.compacted outcome]
    if outcome.isOk then Thread.onWriter (modify reset)
    Thread.note [.checkpointed respond outcome]
  | none =>
    let t ← get
    if t.writer.appended ≥ checkpointInterval then
      let outcome ← (Thread.onWriter (Writer.onHost compact)).attempt
      Thread.note [.compacted outcome]
      if outcome.isOk then Thread.onWriter (modify reset)

/-- The outer loop, which ends when the queue is drained and closed. A turn of it leaves the batch
empty and no checkpoint requested, as `answer` drains the one and `take` the other.
SOURCE: crates/wal/src/writer.rs:126-172 -/
def run (checkpointInterval : ℕ) (queue : List Message) (polls : List Bool) (pending : Pending) :
    Prog Thread Error Unit :=
  match queue with
  | [] => pure ()
  | message :: rest => do
    let drained := drain rest polls (pending.receive message)
    Thread.note ((message :: drained.received).map .received)
    retireBatch drained.pending.batch
    checkpointIfDue checkpointInterval drained.pending.requested
    run checkpointInterval drained.queue drained.polls .start
termination_by queue.length
decreasing_by exact Nat.lt_succ_of_le (length_drain rest polls _)

end Run

end Hadar.Wal
