import Hadar.Interface.Reopening

/-!
# Stores over any run

The stores that calls and restarts lead to, where any call of the engine may be refused or be where
the process stops, keys may be of any length and revisions may run out. With each goes what it
tells of: the events since it was opened, on top of those its records told then, and the revision up
to which a compaction may have taken some of them away.
-/

set_option autoImplicit false

namespace Hadar.Mvcc

open Hadar.Lib Hadar.Lib.Prog Hadar.Storage

/-- The event a record tells, where it is one.
SOURCE: crates/mvcc/src/record.rs:30-67 -/
def recordedBy (p : Bytes × Bytes) : Option Event := do
  let (revision, tombstone) ← parseKey p.1
  let (key, value) ← decodeRecord p.2
  pure (revision, if tombstone then .delete key else .put key value)

/-- The events that the revision records among some contents tell, oldest first. -/
def recordedIn (contents : Keyspace) : List Event :=
  (entriesIn contents allRecords).filterMap recordedBy

/-- Whether a compaction passes the checks it begins with.
SOURCE: crates/mvcc/src/store.rs:274-279 -/
def State.accepts (state : State) (at_ : ℕ) : Prop :=
  state.compacted ≤ at_ ∧ at_ ≤ state.current.main

instance (state : State) (at_ : ℕ) : Decidable (state.accepts at_) :=
  inferInstanceAs (Decidable (_ ∧ _))

/-- The store with other replies to come from its engine. -/
def KvStore.facing (s : KvStore) (replies : List Reply) : KvStore :=
  ⟨{ s.engine with replies := replies }, s.state⟩

/-- The stores that runs lead to, the events they tell of, and the largest revision a compaction was
begun at since they were opened. How the next calls turn out may change at any time, compactions
remove their records in chunks of any size, and a restart finds any of the commits that the engine
may have kept. A store whose process has stopped counts as if it were still there. -/
inductive Lived : KvStore → List Event → ℕ → Prop where
  | fresh : Lived KvStore.fresh [] 0
  | faced {s : KvStore} {events : List Event} {high : ℕ} (before : Lived s events high)
    (replies : List Reply) : Lived (s.facing replies) events high
  | applied {s s' : KvStore} {events : List Event} {high upto : ℕ} {batch : List Mutation}
    {revisions : List Revision} (before : Lived s events high)
    (ran : (Mvcc.apply batch upto).exec s = (.ok revisions, s')) :
    Lived s' (events ++ revisions.zip batch) high
  | refused {s s' : KvStore} {events : List Event} {high upto : ℕ} {batch : List Mutation}
    {stop : Stop Error} (before : Lived s events high)
    (ran : (Mvcc.apply batch upto).exec s = (.error stop, s')) : Lived s' events high
  | checkpointed {s : KvStore} {events : List Event} {high : ℕ} (before : Lived s events high) :
    Lived (checkpoint.exec s).2 events high
  | compacted {s : KvStore} {events : List Event} {high : ℕ} (before : Lived s events high)
    (chunk at_ : ℕ) :
    Lived ((compactBy chunk at_).exec s).2 events
      (if s.state.accepts at_ then max high at_ else high)
  | reopened {s : KvStore} {events : List Event} {high : ℕ} {commits : List Keyspace}
    {replies : List Reply} {state : State} {e : Engine} (before : Lived s events high)
    (kept : commits <:+ s.engine.commits) (durable : s.engine.durable ≤ commits.length)
    (ran : openState.exec ⟨commits, s.engine.durable, replies⟩ = (.ok state, e)) :
    Lived ⟨e, state⟩ (recordedIn (commits.headD ∅)) 0

/-- What a range returns or fails with where no call of the engine is refused. -/
def KvStore.shown (s : KvStore) (bounds : Bounds) (requested limit : Option ℕ) :
    Except (Stop Error) (List Record) :=
  ((range bounds requested limit).exec (s.facing [])).1

end Hadar.Mvcc
