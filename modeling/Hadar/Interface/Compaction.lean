import Hadar.Interface.Reopening

/-!
# What a compaction is to leave

A compaction at a revision is to leave the records that some read at or past it can come to, and
no others. And one that is cut short, between two of its commits, is to leave records from which
an opened store reads at and past that revision what the live one read.
-/

set_option autoImplicit false

namespace Hadar.Mvcc

open Hadar.Lib Hadar.Lib.Prog Hadar.Storage

/-- A store over an empty engine, however its calls turn out. -/
def freshOver (replies : List Reply) : KvStore := ⟨⟨[], 0, replies⟩, KvStore.fresh.state⟩

/-! ## Records that may go -/

/-- The stores that runs of calls that succeed lead to, with the mutations applied. -/
inductive Worked : KvStore → List Mutation → Prop where
  | fresh (replies : List Reply) : Worked (freshOver replies) []
  | applied {s s' : KvStore} {mutations batch : List Mutation} {upto : ℕ}
    {revisions : List Revision} (before : Worked s mutations)
    (ran : (Mvcc.apply batch upto).exec s = (.ok revisions, s')) :
    Worked s' (mutations ++ batch)
  | compacted {s s' : KvStore} {mutations : List Mutation} {at_ n : ℕ}
    (before : Worked s mutations) (ran : (compact at_).exec s = (.ok n, s')) :
    Worked s' mutations

/-- The event's key is visible at a revision, with the event's record. -/
def VisibleAt (events : List Event) (at_ : ℕ) (e : Event) : Prop :=
  ∃ record, view events at_ e.2.key = some record ∧ record.modified = e.1

/-- The revision records are those past `at_`, and of each key visible there the one that is. -/
def Reclaimed (mutations : List Mutation) (at_ : ℕ) (contents : Keyspace) : Prop :=
  ∀ rev tombstone raw, contents[backendKey rev tombstone]? = some raw ↔
    ∃ e ∈ stamped mutations, e.1 = rev ∧ e.dies = tombstone ∧
      encodeRecord e.2.key e.2.value = raw ∧
      (at_ < e.date ∨ VisibleAt (stamped mutations) at_ e)

/-- An event that deletes a key that does not exist just before it. -/
def Vacuous (events : List Event) (e : Event) : Prop :=
  e.dies = true ∧ view events (e.date - 1) e.2.key = none

/-! ## Compactions that are cut short -/

/-- The stores that runs lead to in which any call may fail, with the revision last compacted and
whether a compaction has failed after it began. `again` tells whether another one may begin after
that. A compaction removes its records in chunks of any size. -/
inductive Ran (again : Prop) : KvStore → ℕ → Bool → Prop where
  | fresh (replies : List Reply) : Ran again (freshOver replies) 0 false
  | applied {s : KvStore} {watermark : ℕ} {failed : Bool} (batch : List Mutation) (upto : ℕ)
    (before : Ran again s watermark failed) (keys : ∀ m ∈ batch, m.key.length ≤ u32Max) :
    Ran again ((Mvcc.apply batch upto).exec s).2 watermark failed
  | compacted {s s' : KvStore} {watermark chunk at_ n : ℕ} {failed : Bool}
    (before : Ran again s watermark failed) (anew : failed = true → again)
    (ran : (compactBy chunk at_).exec s = (.ok n, s')) : Ran again s' at_ failed
  | failed {s s' : KvStore} {watermark chunk at_ : ℕ} {failed : Bool} {e : Stop Error}
    (before : Ran again s watermark failed) (anew : failed = true → again)
    (begun : s.state.compacted ≤ at_ ∧ at_ ≤ s.state.current.main)
    (ran : (compactBy chunk at_).exec s = (.error e, s')) : Ran again s' at_ true

/-- What the engine holds after some of the commits of a run, with the store alive then and the
revision of the last compaction begun: all those of the calls so far, or also the first ones of a
compaction, which are the oldest. -/
inductive Reached (again : Prop) : KvStore → ℕ → Keyspace → Prop where
  | between {s : KvStore} {watermark : ℕ} {failed : Bool} (run : Ran again s watermark failed) :
    Reached again s watermark s.engine.committed
  | within {s s' : KvStore} {watermark chunk at_ : ℕ} {failed : Bool}
    {outcome : Except (Stop Error) ℕ} {commits : List Keyspace}
    (run : Ran again s watermark failed) (anew : failed = true → again)
    (begun : s.state.compacted ≤ at_ ∧ at_ ≤ s.state.current.main)
    (ran : (compactBy chunk at_).exec s = (outcome, s'))
    (since : s.engine.commits <:+ commits) (upto : commits <:+ s'.engine.commits) :
    Reached again s at_ (commits.headD ∅)

/-- An engine that holds some contents, whose calls all succeed. -/
def Engine.holding (contents : Keyspace) : Engine := ⟨[contents], 1, []⟩

/-- What a read tells of each key but how old it is: its value and where that is from. -/
def Record.told (r : Record) : Bytes × Bytes × Revision := (r.key, r.value, r.modified)

/-- Reads at a revision, the newest one where none is given, return the same keys with the same
values and modified revisions from both stores. No call of the engine is refused meanwhile. -/
def SameReads (live opened : KvStore) (at_ : Option ℕ) : Prop :=
  ∀ bounds limit, Bounds.Built bounds → ∃ records records',
    ((range bounds at_ limit).exec ⟨Engine.calmed live.engine, live.state⟩).1 = .ok records ∧
    ((range bounds at_ limit).exec opened).1 = .ok records' ∧
    records.map Record.told = records'.map Record.told

/-- A store opened over some contents reads at its newest revision what the live store reads at
its own, and from a revision up to its newest one what the live store reads. -/
def Continues (live : KvStore) (watermark : ℕ) (contents : Keyspace) : Prop :=
  ∃ state, openStore (Engine.holding contents) = (.ok state, Engine.holding contents) ∧
    SameReads live ⟨Engine.holding contents, state⟩ none ∧
    ∀ at_, watermark ≤ at_ → at_ ≤ state.current.main →
      SameReads live ⟨Engine.holding contents, state⟩ (some at_)

end Hadar.Mvcc
