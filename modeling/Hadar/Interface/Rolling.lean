import Hadar.Interface.Failures

/-!
# Leaving a full segment

A full segment is left for a new one, which is named after the store's position. There is room
for that name as long as the store has moved past the segment's own, and the store moves only
when it takes a batch, while the segment fills up when a batch is written.
-/

set_option autoImplicit false

namespace Hadar.Wal

open Hadar.Lib Hadar.Lib.Prog Hadar.Storage Hadar.Mvcc

variable [Crc32]

/-- What the segment a batch goes to counts before it: a full one is left for an empty one. -/
def Writer.counted (w : Writer) : ℕ := if w.segment.isFull then 0 else w.segment.written

/-- The batch is written in full to a segment that is named after the store's position, which it
fills. -/
structure Overfills (w : Writer) (batch : List Request) : Prop where
  appends : Appends w batch
  written : w.appending.headD .done = .done
  named : w.segment.isFull = true ∨ w.segment.sink = w.host.store.state.applied
  full : w.segment.limit ≤ w.counted + (recordsOf (mutationsOf batch)).length

/-- A batch that fills a segment named after the store's position is flushed and applied: neither
the flush nor any call of the store is refused. -/
def Passing (w : Writer) (batch : List Request) : Prop :=
  Overfills w batch → (∀ cut, w.appending.tail.headD .done ≠ .refused cut) ∧
    Granted ((mutationsOf batch).length + 3) w.host.store.engine.replies

/-- A full segment can be left: the store's position is past its name and is the name of no file,
so a new segment is created there as soon as the operation succeeds. And where the segment is not
poisoned no batch that can be encoded is refused once everything succeeds. -/
structure RollsOver (w : Writer) : Prop where
  ahead : w.segment.isFull = true → w.segment.sink < w.host.store.state.applied
  free : w.segment.isFull = true →
    w.host.disk.files.contains w.host.store.state.applied = false
  leaves : ∀ replies calls, replies.headD .done = .done →
    rollIfFull.returnsFrom (w.given replies calls) = true
  writes : w.segment.poisoned = false → ∀ batch, (∀ m ∈ mutationsOf batch, Encodable m) →
    ∀ e, ((retire batch).exec (w.given [] [])).1 ≠ .error (.error e)

end Hadar.Wal
