import Hadar.Interface.Failures

/-!
# Cutting a queue into batches

Writers do not see how their writes are cut into batches. What they do see is what each of them
is answered, and what the store holds in the end. A write that cannot be encoded is to be refused,
and nobody else is to notice.
-/

set_option autoImplicit false

namespace Hadar.Wal

open Hadar.Lib Hadar.Storage Hadar.Mvcc

/-- Whether some mutation of a batch cannot be encoded. -/
def spoiled (batch : List Request) : Bool := !decide (∀ m ∈ mutationsOf batch, Encodable m)

/-- Whether every mutation of a write can be encoded. -/
def fits (request : Request) : Bool := decide (∀ m ∈ request.mutations, Encodable m)

/-- Whether a batch has a write that can be encoded and one that cannot. -/
def mixed (batch : List Request) : Bool := batch.any fits && batch.any fun request => !fits request

/-- For each write of a queue that was cut into batches, whether its batch has a mutation that
cannot be encoded. -/
def spoiledBy (batches : List (List Request)) : List Bool :=
  batches.flatMap fun batch => batch.map fun _ => spoiled batch

/-- What each write was answered: its revisions, or that it failed. -/
def outcomesOf (told : List Exchange) : List (Option (List Revision)) :=
  told.map fun x => x.2.toOption

/-- Two stores are in the same state over the same records and the same recorded position, where
a position that was never recorded is the beginning. -/
structure SameStore (s s' : KvStore) : Prop where
  state : s.state = s'.state
  records : ∀ key, compare appliedKey key ≠ .eq →
    s.engine.committed[key]? = s'.engine.committed[key]?
  position : (s.engine.committed[appliedKey]?.bind decodePosition).getD 0 =
    (s'.engine.committed[appliedKey]?.bind decodePosition).getD 0

variable [Crc32]

/-- A run in which nothing is refused. -/
abbrev CalmRun (checkpointInterval : ℕ) (w₀ : Writer) (turns : List Turn) (w : Writer)
    (told : List Exchange) : Prop :=
  Run checkpointInterval (fun _ t => t.replies = [] ∧ t.calls = []) w₀ turns w told

/-- Writes that cannot be encoded are refused alone. Each of them is refused; the others are
answered, and leave the store, as they would be without them, in whatever batches they come then. -/
structure RefusedAlone (checkpointInterval : ℕ) (w₀ w : Writer) (told : List Exchange) : Prop where
  refused : ∀ x ∈ told, fits x.1 = false → x.2.toOption = none
  others : ∀ turns, (∀ t ∈ turns, t.replies = [] ∧ t.calls = []) →
    turns.flatMap (·.batch) = (told.map (·.1)).filter fits →
      ∃ w' told', CalmRun checkpointInterval w₀ turns w' told' ∧
        outcomesOf (told.filter fun x => fits x.1) = outcomesOf told' ∧
        SameStore w.host.store w'.host.store

end Hadar.Wal
