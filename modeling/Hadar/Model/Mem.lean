import Hadar.Model.Storage
import Mathlib.Logic.Function.Basic

/-!
# The in-memory engine and its clients

`MemEngine` (crates/storage-api/src/mem.rs): one committed map behind a mutex, copied whole
by every transaction, and a gate that lets one write transaction through at a time.

A step of `System` is what one client does between two points where another may run, which
are the lock-guarded sections of the source. So `begin_write` is two steps, the gate and
the copy, and so is `commit`, which replaces the map and then calls `finish`; both `commit`
and `abort` take `self` by value, so that `Drop` runs after them as a step of its own. A
client that waits at the gate is one that has not taken its step yet. Which steps a
transaction offers is what ownership leaves its client: nothing but the drop is left once
`commit` or `abort` has taken it.
-/

set_option autoImplicit false

namespace Hadar.Mem

open Hadar.Storage

/-- A `BTreeMap`: its entries, and whether it has a root, which it gets with the first entry and
keeps when the last one goes.
SOURCE: crates/storage-api/src/mem.rs:7 -/
structure Map where
  entries : Keyspace
  rooted : Bool
  unrooted : rooted = false → entries = ∅

namespace Map

def empty : Map := ⟨∅, false, fun _ => rfl⟩

/-- A copy has a root only where there is an entry to copy. -/
def clone (map : Map) : Map := if map.entries.isEmpty then empty else map

def insert (map : Map) (key value : Bytes) : Map where
  entries := map.entries.insert key value
  rooted := true
  unrooted := Bool.noConfusion

def remove (map : Map) (key : Bytes) : Map where
  entries := map.entries.erase key
  rooted := map.rooted
  unrooted hnone := by rw [map.unrooted hnone]; rfl

end Map

/-- What the clones of an engine share, with the flag of the gate.
SOURCE: crates/storage-api/src/mem.rs:26-36 -/
structure Shared where
  committed : Map
  held : Bool

/-- SOURCE: crates/storage-api/src/mem.rs:40-42 -/
structure MemRead where
  snapshot : Map

/-- SOURCE: crates/storage-api/src/mem.rs:46-50 -/
structure MemWrite where
  working : Map
  finished : Bool

/-- SOURCE: crates/storage-api/src/mem.rs:55-57 -/
def MemEngine.new : Shared := ⟨.empty, false⟩

namespace Gate

/-- Takes the gate; `none` where the caller waits.
SOURCE: crates/storage-api/src/mem.rs:145-154 -/
def acquire (shared : Shared) : Option Shared :=
  if shared.held then none else some { shared with held := true }

/-- SOURCE: crates/storage-api/src/mem.rs:156-159 -/
def release (shared : Shared) : Shared := { shared with held := false }

end Gate

/-- The pairs within bounds; `none` where `BTreeMap::range` panics.
SOURCE: crates/storage-api/src/mem.rs:170-179 -/
def collect (map : Map) (bounds : Bounds) (limit : Option ℕ) : Option (List (Bytes × Bytes)) :=
  if map.rooted && bounds.panics then none else some (capped limit (entriesIn map.entries bounds))

/-- SOURCE: crates/storage-api/src/mem.rs:64-68 -/
def MemEngine.beginRead (shared : Shared) : MemRead := ⟨shared.committed.clone⟩

/-- What `begin_write` does once it holds the gate.
SOURCE: crates/storage-api/src/mem.rs:72-77 -/
def MemEngine.copy (shared : Shared) : MemWrite := ⟨shared.committed.clone, false⟩

namespace MemWrite

/-- SOURCE: crates/storage-api/src/mem.rs:102-105 -/
def insert (txn : MemWrite) (key value : Bytes) : MemWrite :=
  { txn with working := txn.working.insert key value }

/-- SOURCE: crates/storage-api/src/mem.rs:107-109 -/
def remove (txn : MemWrite) (key : Bytes) : MemWrite × Option Bytes :=
  ({ txn with working := txn.working.remove key }, txn.working.entries[key]?)

/-- The first line of `commit`, which leaves an empty map behind.
SOURCE: crates/storage-api/src/mem.rs:112 -/
def replace (txn : MemWrite) (shared : Shared) : MemWrite × Shared :=
  ({ txn with working := .empty }, { shared with committed := txn.working })

/-- Releases the gate unless it was released before, and tells whether it did.
SOURCE: crates/storage-api/src/mem.rs:130-135 -/
def finish (txn : MemWrite) (shared : Shared) : MemWrite × Shared × Bool :=
  if txn.finished then (txn, shared, false)
  else ({ txn with finished := true }, Gate.release shared, true)

end MemWrite

/-! ## The clients -/

/-- How far a write transaction is. -/
inductive Stage where
  /-- inside `begin_write`, past the gate and before the copy -/
  | entered
  /-- with its client -/
  | opened (txn : MemWrite)
  /-- inside `commit`, between the two lines -/
  | replaced (txn : MemWrite)
  /-- at the end of `commit` or `abort`, before the drop -/
  | ended (txn : MemWrite)
  | dropped

/-- The engine and the transactions its clients have begun. -/
structure System where
  shared : Shared
  reads : ℕ → Option MemRead
  writes : ℕ → Option Stage

/-- A new engine, with no transaction begun. -/
def System.new : System := ⟨MemEngine.new, fun _ => none, fun _ => none⟩

/-- A step of the client of a transaction. -/
inductive Action where
  | beginRead (id : ℕ)
  | readGet (id : ℕ) (key : Bytes)
  | readRange (id : ℕ) (bounds : Bounds) (limit : Option ℕ)
  | dropRead (id : ℕ)
  | acquire (id : ℕ)
  | copy (id : ℕ)
  | get (id : ℕ) (key : Bytes)
  | range (id : ℕ) (bounds : Bounds) (limit : Option ℕ)
  | insert (id : ℕ) (key value : Bytes)
  | remove (id : ℕ) (key : Bytes)
  /-- the first line of `commit` -/
  | replace (id : ℕ)
  /-- the call of `finish` in `commit` -/
  | finish (id : ℕ)
  | abort (id : ℕ)
  | drop (id : ℕ)
  deriving DecidableEq, Repr

/-- What the client sees of a step, and whether the step released the gate. -/
inductive Answer where
  | nothing
  | value (found : Option Bytes)
  | pairs (found : Option (List (Bytes × Bytes)))
  | finished (released : Bool)
  deriving DecidableEq, Repr

namespace System

def setWrite (s : System) (id : ℕ) (stage : Stage) : System :=
  { s with writes := Function.update s.writes id (some stage) }

/-- What follows a call of `finish` by the transaction `id`. -/
def finishing (s : System) (id : ℕ) (txn : MemWrite) (stage : MemWrite → Stage) :
    System × Answer :=
  let (txn, shared, released) := txn.finish s.shared
  ({ s with shared := shared }.setWrite id (stage txn), .finished released)

/-- One step, where its client can take it. -/
def perform (s : System) : Action → Option (System × Answer)
  | .beginRead id =>
    match s.reads id with
    | none =>
      some ({ s with reads := Function.update s.reads id (some (MemEngine.beginRead s.shared)) },
        .nothing)
    | some _ => none
  | .readGet id key =>
    match s.reads id with
    | some txn => some (s, .value txn.snapshot.entries[key]?)
    | none => none
  | .readRange id bounds limit =>
    match s.reads id with
    | some txn => some (s, .pairs (collect txn.snapshot bounds limit))
    | none => none
  | .dropRead id =>
    match s.reads id with
    | some _ => some ({ s with reads := Function.update s.reads id none }, .nothing)
    | none => none
  | .acquire id =>
    match s.writes id, Gate.acquire s.shared with
    | none, some shared => some ({ s with shared := shared }.setWrite id .entered, .nothing)
    | _, _ => none
  | .copy id =>
    match s.writes id with
    | some .entered => some (s.setWrite id (.opened (MemEngine.copy s.shared)), .nothing)
    | _ => none
  | .get id key =>
    match s.writes id with
    | some (.opened txn) => some (s, .value txn.working.entries[key]?)
    | _ => none
  | .range id bounds limit =>
    match s.writes id with
    | some (.opened txn) => some (s, .pairs (collect txn.working bounds limit))
    | _ => none
  | .insert id key value =>
    match s.writes id with
    | some (.opened txn) => some (s.setWrite id (.opened (txn.insert key value)), .nothing)
    | _ => none
  | .remove id key =>
    match s.writes id with
    | some (.opened txn) =>
      let (txn, previous) := txn.remove key
      some (s.setWrite id (.opened txn), .value previous)
    | _ => none
  | .replace id =>
    match s.writes id with
    | some (.opened txn) =>
      let (txn, shared) := txn.replace s.shared
      some ({ s with shared := shared }.setWrite id (.replaced txn), .nothing)
    | _ => none
  | .finish id =>
    match s.writes id with
    | some (.replaced txn) => some (s.finishing id txn .ended)
    | _ => none
  | .abort id =>
    match s.writes id with
    | some (.opened txn) => some (s.finishing id txn .ended)
    | _ => none
  | .drop id =>
    match s.writes id with
    | some (.opened txn) | some (.ended txn) => some (s.finishing id txn fun _ => .dropped)
    | _ => none

end System

end Hadar.Mem
