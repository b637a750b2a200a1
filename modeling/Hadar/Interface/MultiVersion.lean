import Hadar.Lib.Lifetimes
import Hadar.Model.Store

/-!
# The multi-version map

What the store is for, stated without generations, indices or records: the list of every
mutation ever applied, each with the revision it was given. A key is visible at a revision
when its last mutation up to there is a put, and its record tells of the life that put
belongs to: the value and revision of the last put, the revision of the first one, and how
many there were.
-/

set_option autoImplicit false

namespace Hadar.Mvcc

open Hadar.Lib Hadar.Storage

/-- A mutation and the revision it was given. -/
abbrev Event := Revision × Mutation

namespace Event

/-- The number of the event's revision. -/
def date (e : Event) : ℕ := e.1.main

/-- Whether the event deletes its key. -/
def dies (e : Event) : Bool := e.2.isDelete

end Event

/-- The revision after `n` mutations. -/
def revisionOf (n : ℕ) : Revision := ⟨min n i64Max, 0, Nat.min_le_right _ _, Nat.zero_le _⟩

/-- Mutations in the order they are applied, each at the next revision after `n` others. -/
def stampedFrom (n : ℕ) (mutations : List Mutation) : List Event :=
  (mutations.zipIdx n).map fun p => (revisionOf (p.2 + 1), p.1)

/-- The mutations in the order they were applied, the `i`-th of them at revision `i`. -/
def stamped (mutations : List Mutation) : List Event := stampedFrom 0 mutations

/-- A key's own events. -/
def eventsOf (events : List Event) (key : Bytes) : List Event :=
  events.filter fun e => e.2.key = key

/-- The puts of the life a key is in at `at_`; none where the key does not exist there. -/
def lifeAt (events : List Event) (at_ : ℕ) (key : Bytes) : List Event :=
  life Event.dies (upTo Event.date at_ (eventsOf events key))

/-- A key's record at `at_`. -/
def view (events : List Event) (at_ : ℕ) (key : Bytes) : Option Record :=
  match (lifeAt events at_ key).head?, (lifeAt events at_ key).getLast? with
  | some first, some last =>
    some ⟨key, last.2.value, first.1, last.1, (lifeAt events at_ key).length⟩
  | _, _ => none

/-- The records of the keys within bounds visible at `at_`, in ascending key order. -/
structure Lists (events : List Event) (bounds : Bounds) (at_ : ℕ) (records : List Record) :
    Prop where
  ascending : records.Pairwise fun a b => compare a.key b.key = .lt
  mem_iff : ∀ r, r ∈ records ↔ bounds.contains r.key = true ∧ view events at_ r.key = some r

/-- The map a store refines: what was applied, and up to where reads are refused. -/
structure MultiVersion where
  mutations : List Mutation
  watermark : ℕ

namespace MultiVersion

def empty : MultiVersion := ⟨[], 0⟩

def events (m : MultiVersion) : List Event := stamped m.mutations

/-- The number of the newest revision. -/
def current (m : MultiVersion) : ℕ := m.mutations.length

end MultiVersion

/-! ## Runs of a store -/

/-- A call that changes the store. -/
inductive Call where
  | apply (batch : List Mutation) (upto : ℕ)
  | compact (at_ : ℕ)
  deriving DecidableEq, Repr

/-- What a call does to the store, whatever it returns. -/
def KvStore.after (s : KvStore) : Call → KvStore
  | .apply batch upto => ((Mvcc.apply batch upto).exec s).2
  | .compact at_ => ((Mvcc.compact at_).exec s).2

/-- What a call does to the map: a batch is appended, and a compaction within the two
revisions it may lie between moves the watermark. -/
def MultiVersion.after (m : MultiVersion) : Call → MultiVersion
  | .apply batch _ => { m with mutations := m.mutations ++ batch }
  | .compact at_ =>
    if m.watermark ≤ at_ ∧ at_ ≤ m.current then { m with watermark := at_ } else m

/-- A store opened over an empty engine whose calls all succeed. -/
def KvStore.fresh : KvStore := ⟨Engine.empty, ⟨Index.empty, Revision.zero, 0, 0⟩⟩

/-- The store after a run of calls. -/
def KvStore.run (calls : List Call) : KvStore := calls.foldl KvStore.after KvStore.fresh

/-- The map after the same run. -/
def MultiVersion.run (calls : List Call) : MultiVersion :=
  calls.foldl MultiVersion.after MultiVersion.empty

/-- A run that deletes a key, puts it again, and compacts in between. -/
def recreated : List Call := [.apply [.put [107] [1], .delete [107], .put [107] [2]] 3, .compact 2]

/-- The keys fit the record format and the revisions fit the wire format. -/
structure Fits (mutations : List Mutation) : Prop where
  keys : ∀ m ∈ mutations, m.key.length ≤ u32Max
  count : mutations.length ≤ i64Max

/-- The bounds the constructors of `Bounds` build, where a start and an end given together
are in order.
SOURCE: crates/storage-api/src/bounds.rs:14-88 -/
inductive Bounds.Built : Bounds → Prop where
  | all : Built Bounds.all
  | point (key : Bytes) : Built (Bounds.point key)
  | between (start stop : Bytes) (h : (compare start stop).isLE) : Built (Bounds.between start stop)
  | startAt (start : Bytes) : Built (Bounds.startAt start)
  | endBefore (stop : Bytes) : Built (Bounds.endBefore stop)
  | withPrefix (lead : Bytes) : Built (Bounds.withPrefix lead)

/-- The store answers as the map does: what the next calls return, and what a read of any
bounds at any revision does. -/
structure Answers (m : MultiVersion) (s : KvStore) : Prop where
  apply_ok : ∀ batch upto, Fits (m.mutations ++ batch) →
    ((apply batch upto).exec s).1 = .ok ((stampedFrom m.current batch).map (·.1))
  compact_ok : ∀ at_, (∃ n, ((compact at_).exec s).1 = .ok n) ↔
    m.watermark ≤ at_ ∧ at_ ≤ m.current
  range_future : ∀ bounds at_ limit, m.current < at_ →
    (range bounds (some at_) limit).exec s =
      (.error (.error (.futureRevision at_ m.current)), s)
  range_compacted : ∀ bounds at_ limit, at_ ≤ m.current → at_ < m.watermark →
    (range bounds (some at_) limit).exec s =
      (.error (.error (.compacted at_ m.watermark)), s)
  range_ok : ∀ bounds at_ limit, Bounds.Built bounds → m.watermark ≤ at_ → at_ ≤ m.current →
    ∃ records, Lists m.events bounds at_ records ∧
      (range bounds (some at_) limit).exec s = (.ok (capped limit records), s)
  range_newest : ∀ bounds limit,
    (range bounds none limit).exec s = (range bounds (some m.current) limit).exec s

end Hadar.Mvcc
