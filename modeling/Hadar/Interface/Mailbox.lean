import Hadar.Model.Loop

/-!
# What the writer's loop owes its callers

Read off what the thread noted, in order: which messages it received, which batches it retired,
whom it answered. `Served` is the contract of the loop: nobody is answered twice or left out,
nobody overtakes, and a checkpoint comes after the writes queued before it.
-/

set_option autoImplicit false

namespace Hadar.Wal

open Hadar.Lib Hadar.Storage Hadar.Mvcc

/-! ## Messages -/

/-- The channel a message is answered on. -/
def Message.respond : Message → ℕ
  | write respond _ => respond
  | checkpoint respond => respond

def writesOf (messages : List Message) : List (ℕ × Request) :=
  messages.filterMap fun
    | .write respond request => some (respond, request)
    | .checkpoint _ => none

def checkpointsOf (messages : List Message) : List ℕ :=
  messages.filterMap fun
    | .write _ _ => none
    | .checkpoint respond => some respond

/-! ## Deeds -/

/-- The batches that were retired, each with the outcome. -/
def batchesIn (deeds : List Deed) : List (List (ℕ × Request) × Except Error (List Revision)) :=
  deeds.filterMap fun
    | .retired batch outcome => some (batch, outcome)
    | _ => none

/-- The writes that were retired, in the order of their batches. -/
def retiredIn (deeds : List Deed) : List (ℕ × Request) := ((batchesIn deeds).map (·.1)).flatten

/-- The answers to writes. -/
def answersIn (deeds : List Deed) : List (ℕ × Except Error (List Revision)) :=
  deeds.filterMap fun
    | .answered respond result => some (respond, result)
    | _ => none

/-- The channels on which checkpoints were answered. -/
def checkpointsIn (deeds : List Deed) : List ℕ :=
  deeds.filterMap fun
    | .checkpointed respond _ => some respond
    | _ => none

/-- What the callers of a batch are to be told of its outcome. Of revisions each caller is told its
own, one caller after another, as many as its write has mutations and all of them together; of an
error each is told the error. -/
def Tells (batch : List (ℕ × Request)) (told : List (ℕ × Except Error (List Revision))) :
    Except Error (List Revision) → Prop
  | .ok revisions => ∃ shares : List (List Revision), shares.flatten = revisions ∧
    shares.map List.length = batch.map (fun b => b.2.mutations.length) ∧
    told = (batch.map (·.1)).zip (shares.map .ok)
  | .error e => told = batch.map fun b => (b.1, .error e)

/-- Of the checkpoints whose callers wait for their answers, one is outstanding at a time: when a
checkpoint is received, every earlier one whose caller waits has been answered. -/
def OneWaiting (waits : ℕ → Prop) (deeds : List Deed) : Prop :=
  ∀ before respond after, deeds = before ++ .received (.checkpoint respond) :: after →
    ∀ earlier, waits earlier → .received (.checkpoint earlier) ∈ before →
      earlier ∈ checkpointsIn before

/-- The deeds serve the messages. -/
structure Served (messages : List Message) (deeds : List Deed) : Prop where
  /-- the batches are the writes, cut into pieces -/
  partitioned : retiredIn deeds = writesOf messages
  sized : ∀ b ∈ batchesIn deeds, b.1 ≠ [] ∧ b.1.length ≤ maxBatch
  /-- each caller is told its part of the outcome of its own batch -/
  answered : ∃ told, answersIn deeds = told.flatten ∧
    List.Forall₂ (fun b answers => Tells b.1 answers b.2) (batchesIn deeds) told
  once : (answersIn deeds).map (·.1) = (writesOf messages).map (·.1)
  /-- a checkpoint is answered with the outcome of a compaction that ran just before, and after
  the writes queued before it were retired -/
  ordered : ∀ before respond result after, deeds = before ++ .checkpointed respond result :: after →
    ∃ done, before = done ++ [.compacted result] ∧
      ∀ earlier later, messages = earlier ++ .checkpoint respond :: later →
        writesOf earlier <+: retiredIn done
  atMostOnce : (checkpointsIn deeds).Nodup
  /-- where one waits at a time, each that waits is answered -/
  waiting : ∀ waits, OneWaiting waits deeds →
    ∀ respond, waits respond → .checkpoint respond ∈ messages →
      (checkpointsIn deeds).count respond = 1

end Hadar.Wal
