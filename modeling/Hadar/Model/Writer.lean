import Hadar.Model.Wal

/-!
# The writer

`retire`, `answer` and one turn of `run` (crates/wal/src/writer.rs). The writer thread
owns the append target and the count of bytes appended since the last checkpoint; the
store and the directory are shared with nobody while it runs.
-/

set_option autoImplicit false

namespace Hadar.Wal

open Hadar.Lib Hadar.Storage Hadar.Mvcc

variable [Crc32]

/-- Most writes folded into a single flush. -/
def maxBatch : ℕ := 256

/-- One caller's write. -/
structure Request where
  mutations : List Mutation

/-- What the writer thread works on. -/
structure Writer where
  host : Host
  segment : Segment
  appended : ℕ

variable {α : Type}

namespace Writer

def onHost (p : Prog Host Error α) : Prog Writer Error α :=
  Prog.zoom (·.host) (fun h w => { w with host := h }) id p

def onDisk (p : Prog Disk Error α) : Prog Writer Error α := onHost (Host.onDisk p)

/-- Runs a method of the active segment. -/
def onSegment (p : Prog Target Error α) : Prog Writer Error α :=
  Prog.zoom (fun w => ⟨w.segment, w.host.disk⟩)
    (fun t w => { w with segment := t.segment, host := { w.host with disk := t.disk } }) id p

end Writer

/-- The first loop of `retire`: the batch's records end to end, and its mutations.
SOURCE: crates/wal/src/writer.rs:182-189 -/
def encodeBatch : List Mutation → Bytes → Except Error Bytes
  | [], bytes => .ok bytes
  | mutation :: rest, bytes =>
    match encode mutation bytes with
    | .error e => .error e
    | .ok bytes => encodeBatch rest bytes

def mutationsOf (batch : List Request) : List Mutation := batch.flatMap (·.mutations)

/-- Rolls over first when the active segment is full, so a batch is never split. -/
def rollIfFull : Prog Writer Error Unit := do
  let w ← get
  if w.segment.isFull then
    let next ← Writer.onDisk (w.segment.rollOver w.host.store.state.applied)
    modify fun w => { w with segment := next }
  else pure ()

/-- Writes a batch to the log, flushes it, and applies it to the store.
SOURCE: crates/wal/src/writer.rs:175-208 -/
def retire (batch : List Request) : Prog Writer Error (List Revision) := do
  match encodeBatch (mutationsOf batch) [] with
  | .error e => Prog.fail e
  | .ok bytes =>
    rollIfFull
    Writer.onSegment (Segment.append bytes)
    modify fun w => { w with appended := w.appended + bytes.length }
    let w ← get
    let applied := w.host.store.state.applied + (mutationsOf batch).length
    Writer.onHost (Host.onStore (Mvcc.apply (mutationsOf batch) applied))

/-- Splits a batch's revisions among its callers, or tells them all that it failed.
SOURCE: crates/wal/src/writer.rs:211-226 -/
def answer : List Request → Except Error (List Revision) → List (Except Error (List Revision))
  | [], _ => []
  | request :: rest, .ok revisions =>
    .ok (revisions.take request.mutations.length) ::
      answer rest (.ok (revisions.drop request.mutations.length))
  | _ :: rest, .error e => .error e :: answer rest (.error e)

/-- What one turn of the writer's loop tells its callers. -/
structure Answers where
  writes : List (Except Error (List Revision))
  checkpoint : Option (Except Error ℕ)

/-- One turn of `run`, once the batch is collected: it is retired and answered, and then a
checkpoint runs if one was requested or if enough was appended.
SOURCE: crates/wal/src/writer.rs:140-171 -/
def turn (checkpointInterval : ℕ) (batch : List Request) (requested : Bool) :
    Prog Writer Error Answers := do
  let writes ← if batch.isEmpty then pure [] else do
    let outcome ← (retire batch).attempt
    pure (answer batch outcome)
  if requested then
    let outcome ← (Writer.onHost compact).attempt
    if outcome.isOk then modify fun w => { w with appended := 0 }
    pure ⟨writes, some outcome⟩
  else
    let w ← get
    if w.appended ≥ checkpointInterval then
      let outcome ← (Writer.onHost compact).attempt
      if outcome.isOk then modify fun w => { w with appended := 0 }
      pure ⟨writes, none⟩
    else pure ⟨writes, none⟩

end Hadar.Wal
