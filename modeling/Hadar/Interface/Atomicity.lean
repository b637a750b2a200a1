import Hadar.Interface.Crash

/-!
# Writes cut in two

A batch is appended as its records end to end, with nothing to say where one caller's write
stops and the next one begins. What a crash leaves of it is a number of bytes, and what a
reader then sees of each write is a matter of where in the batch that number falls.
-/

set_option autoImplicit false

namespace Hadar.Wal

open Hadar.Lib Hadar.Storage Hadar.Mvcc

/-! ## What a reader sees -/

/-- The mutation is visible as the one that has the number: a read of its key at that revision
returns what was put there and then, or nothing where the key was deleted. -/
def Visible (s : KvStore) (number : ℕ) (mutation : Mutation) : Prop :=
  ∃ records, ((range (Bounds.point mutation.key) (some number) none).exec
      (KvStore.calmed s)).1 = .ok records ∧
    match mutation with
    | .put _ value => ∃ r ∈ records, r.modified.main = number ∧ r.value = value
    | .delete _ => records = []

/-- Of each write of a batch whose first mutation is numbered one past `first`, either all
mutations are visible or none is. -/
def AllOrNone (s : KvStore) (first : ℕ) (batch : List Request) : Prop :=
  ∀ before request after, batch = before ++ request :: after →
    (∀ p ∈ numberedFrom (first + (mutationsOf before).length) request.mutations,
      Visible s p.1 p.2) ∨
    ∀ p ∈ numberedFrom (first + (mutationsOf before).length) request.mutations,
      ¬ Visible s p.1 p.2

/-! ## Where the crash falls -/

variable [Crc32]

/-- `cut` bytes of the batch's records reach past the first record of some write but not to the
end of its last one. -/
def CutsWrite (batch : List Request) (cut : ℕ) : Prop :=
  ∃ before request after, batch = before ++ request :: after ∧
    (recordsOf (mutationsOf before ++ request.mutations.take 1)).length ≤ cut ∧
    cut < (recordsOf (mutationsOf before ++ request.mutations)).length

/-- A crash of `retire` while it appends the batch: the batch was encoded and a roll-over, if
one was due, is done, and of the batch's bytes the first `cut` are left in the active segment. -/
structure TornAppend (w : Writer) (batch : List Request) (cut : ℕ) (w' : Writer) (disk : Disk)
    (engine : Engine) : Prop where
  crashed : ∃ bytes rolled file, encodeBatch (mutationsOf batch) [] = .ok bytes ∧
    rollIfFull.exec w = (.ok (), rolled) ∧
    (Writer.onSegment (Segment.append bytes)).exec rolled = (.error .crash, w') ∧
    rolled.host.disk.files[rolled.segment.sink]? = some file ∧
    disk.files[rolled.segment.sink]? =
      some ⟨file.data ++ bytes.take cut, file.data ++ bytes.take cut⟩
  onDisk : w'.host.disk.Crashed disk
  inEngine : EngineCrashed w'.host.store.engine engine

end Hadar.Wal
