import Hadar.Interface.Backlog
import Hadar.Interface.Grouping
import Hadar.Interface.Ordering

/-!
# What a checkpoint nobody asked for frees

Without being asked the writer runs a checkpoint once the bytes appended since the last one come
to the interval. An interval of two segments is meant to make sure that there is a sealed segment
behind the active one by then. A segment is left before a batch and not within one, though, so
one batch may bring the bytes to the interval all alone.
-/

set_option autoImplicit false

namespace Hadar.Wal

open Hadar.Lib Hadar.Storage Hadar.Mvcc

variable [Crc32]

/-- Nothing is refused in the turn, and nothing cuts it short. -/
def Turn.Calm (t : Turn) : Prop := t.replies = [] ∧ t.calls = []

/-- The turn comes to a checkpoint that nobody asked for.
SOURCE: crates/wal/src/writer.rs:165-169 -/
def Automatic (checkpointInterval : ℕ) (w : Writer) (t : Turn) : Prop :=
  t.requested = false ∧ checkpointInterval ≤ (w.settled t.batch).appended

/-- If the turn comes to a checkpoint that nobody asked for, there is a segment behind the active
one by then, and the checkpoint, which the turn ends with, succeeds and removes one at least. -/
def Frees (checkpointInterval : ℕ) (w : Writer) (t : Turn) : Prop :=
  Automatic checkpointInterval w t →
    (∃ name, name < (w.settled t.batch).segment.sink ∧
      (w.settled t.batch).host.disk.files.contains name = true) ∧
    ∃ removed, 1 ≤ removed ∧ compact.exec (w.settled t.batch).host =
      (.ok removed, ((turn checkpointInterval t.batch t.requested).exec w).2.host)

/-- Nobody asks for a checkpoint, and the batch goes to the only segment there is and brings the
bytes appended since the last checkpoint to the interval. -/
structure Leaps (checkpointInterval : ℕ) (w : Writer) (t : Turn) : Prop where
  unrequested : t.requested = false
  only : w.host.disk.files.size = 1
  room : w.segment.isFull = false
  reached : ∃ bytes, encodeBatch (mutationsOf t.batch) [] = .ok bytes ∧
    checkpointInterval ≤ w.appended + bytes.length

end Hadar.Wal
