import Hadar.Interface.Serving

/-!
# Compactions that fail

What a compaction that returns an error is to leave: every range returns what it did before or is
refused as compacted, and a retry that succeeds leaves the records that the compaction would have
left had it not failed.
-/

set_option autoImplicit false

namespace Hadar.Storage

/-- How the first of the next `n` calls turns out that does not succeed, if there is one. -/
def firstFailure (n : ℕ) (replies : List Reply) : Option Reply :=
  (replies.take n).find? fun r => r ≠ .done

/-- The first of the next `n` calls that does not succeed is refused. -/
def RefusedWithin (n : ℕ) (replies : List Reply) : Prop :=
  ∃ e applied, firstFailure n replies = some (.refused e applied)

end Hadar.Storage

namespace Hadar.Mvcc

open Hadar.Lib Hadar.Lib.Prog Hadar.Storage

/-- How many calls a compaction makes that removes some revisions, if all of them succeed: two for
each revision, and a beginning and a commit for each chunk.
SOURCE: crates/mvcc/src/store.rs:284-295 -/
def callsToRemove (chunk : ℕ) (dropped : List Revision) : ℕ :=
  2 * dropped.length + 2 * (chunks chunk dropped).length

/-- Every range returns what it did before, or is refused as compacted. -/
def KeepsReads (s s' : KvStore) : Prop :=
  ∀ bounds requested limit, s'.shown bounds requested limit = s.shown bounds requested limit ∨
    ∃ at_ oldest, s'.shown bounds requested limit = .error (.error (.compacted at_ oldest))

/-- However the calls of a retry turn out, if it succeeds it leaves the records that the compaction
leaves of the store as it was where no call is refused. -/
def RetryCompletes (chunk at_ : ℕ) (s s' : KvStore) : Prop :=
  ∀ replies n s'' m t, (compactBy chunk at_).exec (s'.facing replies) = (.ok n, s'') →
    (compactBy chunk at_).exec (s.facing []) = (.ok m, t) →
    SameRecords s''.engine.committed t.engine.committed

/-- A compaction that returns an error leaves the store as it was. -/
def FailsCleanly (chunk at_ : ℕ) (s : KvStore) : Prop :=
  ∀ e s', (compactBy chunk at_).exec s = (.error (.error e), s') →
    KeepsReads s s' ∧ RetryCompletes chunk at_ s s'

end Hadar.Mvcc
