import Hadar.Interface.Shortening
import Hadar.Model.Counting

/-!
# Holes in a directory

What recovery is to refuse, whatever the names of the segments are and whatever is in them.
-/

set_option autoImplicit false

namespace Hadar.Wal

open Hadar.Lib Hadar.Storage Hadar.Mvcc

/-- The names of the segments and the store's position are `u64`s. -/
structure Sized (h : Host) : Prop where
  names : ∀ p ∈ h.disk.segments, p.1 ≤ u64Max
  applied : h.store.state.applied ≤ u64Max

variable [Crc32]

/-- The oldest segment begins past the position, or some segment before the last one holds a
number of records that is not the next one's name less its own. -/
def Holed (segments : List (ℕ × Bytes)) (applied : ℕ) : Prop :=
  (∃ p ∈ segments.head?, applied < p.1) ∨
    ∃ before p q after, segments = before ++ p :: q :: after ∧ p.1 + (complete p.2).length ≠ q.1

end Hadar.Wal
