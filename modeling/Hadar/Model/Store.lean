import Hadar.Model.Index

/-!
# The store

`KvStore` (crates/mvcc/src/store.rs): a revision-indexed keyspace over a storage engine.
Each method holds the store's lock from its first line to its last, so a method is one
program over the store.
-/

set_option autoImplicit false

namespace Hadar.Mvcc

open Hadar.Lib Hadar.Storage

/-- Records read per page when rebuilding the index at startup. -/
def scanPage : ℕ := 1024

/-- Records removed per backend transaction during compaction. -/
def compactChunk : ℕ := 1024

/-- A key/value pair as observed at some revision. -/
structure Record where
  key : Bytes
  value : Bytes
  created : Revision
  modified : Revision
  version : ℕ
  deriving DecidableEq

structure State where
  index : Index
  current : Revision
  compacted : ℕ
  applied : ℕ

structure KvStore where
  engine : Engine
  state : State

variable {α : Type}

/-- `map_err(Error::storage)` on a call made while the store is being opened. -/
def opening (p : Prog Engine Storage.Error α) : Prog Engine Error α :=
  Prog.zoom id (fun e _ => e) Error.storage p

/-- `map_err(Error::storage)` on a call made by a method of the store. -/
def onEngine (p : Prog Engine Storage.Error α) : Prog KvStore Error α :=
  Prog.zoom (·.engine) (fun e s => { s with engine := e }) Error.storage p

/-! ## Opening -/

/-- One page of `open`'s loop: the records are parsed and entered in the index.
SOURCE: crates/mvcc/src/store.rs:91-105 -/
def indexPage : List (Bytes × Bytes) → Index → Revision → Except Error (Index × Revision)
  | [], index, current => .ok (index, current)
  | (rawKey, rawValue) :: rest, index, current =>
    match parseKey rawKey with
    | none => .error (.corrupt "unrecognized revision record key")
    | some (revision, tombstone) =>
      match decodeRecord rawValue with
      | none => .error (.corrupt "truncated revision record")
      | some (key, _) =>
        let index := if tombstone then (index.tombstone key revision).2 else index.put key revision
        indexPage rest index (current.max revision)

/-- The paging loop of `open`. A page that is not empty moves the bounds past an entry, so
one round more than there are entries is never used up (`noPanic_openState`), and the panic that
stands for it is not reached.
SOURCE: crates/mvcc/src/store.rs:82-106 -/
def scanPages (txn : ReadTxn) : ℕ → Bounds → Index → Revision → Prog Engine Error (Index × Revision)
  | 0, _, _, _ => Prog.panicking
  | rounds + 1, bounds, index, current => do
    let page ← opening (scan txn.snapshot bounds (some scanPage))
    match page.getLast? with
    | none => pure (index, current)
    | some (lastKey, _) =>
      match indexPage page index current with
      | .error e => Prog.fail e
      | .ok (index, current) => scanPages txn rounds (bounds.advancePast lastKey) index current

/-- `KvStore::open`: the state rebuilt from the engine's contents.
SOURCE: crates/mvcc/src/store.rs:66-117 -/
def openState : Prog Engine Error State := do
  let txn ← opening beginRead
  let raw ← opening (lookup txn.snapshot appliedKey)
  let applied ← match raw with
    | none => pure 0
    | some raw =>
      match decodePosition raw with
      | none => Prog.fail (.corrupt "applied-position marker is malformed")
      | some applied => pure applied
  let (index, current) ←
    scanPages txn (txn.snapshot.toList.length + 1) allRecords Index.empty Revision.zero
  pure ⟨index, current, 0, applied⟩

/-- Opens a store over an engine. -/
def openStore (engine : Engine) : Except (Stop Error) State × Engine := openState.exec engine

/-! ## Writing -/

/-- `checkpoint`: a durable commit of the applied position.
SOURCE: crates/mvcc/src/store.rs:148-160 -/
def checkpoint : Prog KvStore Error ℕ := do
  let s ← get
  let txn ← onEngine beginWrite
  let txn ← onEngine (txn.insert appliedKey (encodePosition s.state.applied))
  onEngine txn.commitDurable
  pure s.state.applied

/-- The first loop of `apply`: every mutation takes the next revision and is written under
it. `next_main` panics where the counter is exhausted.
SOURCE: crates/mvcc/src/store.rs:178-192 -/
def writeBatch : List Mutation → WriteTxn → Revision → List Revision →
    Prog KvStore Error (WriteTxn × Revision × List Revision)
  | [], txn, revision, revisions => pure (txn, revision, revisions)
  | mutation :: rest, txn, revision, revisions =>
    match revision.nextMain with
    | none => Prog.panicking
    | some revision => do
      let txn ← onEngine (txn.insert (backendKey revision mutation.isDelete)
        (encodeRecord mutation.key mutation.value))
      writeBatch rest txn revision (revisions ++ [revision])

/-- One turn of the second loop of `apply`. -/
def Index.enter (index : Index) (mutation : Mutation) (revision : Revision) : Index :=
  match mutation with
  | .put key _ => index.put key revision
  | .delete key => (index.tombstone key revision).2

/-- Applies `batch` as one backend transaction, recording `upto` with it. The index is
updated only once the backend has accepted the batch.
SOURCE: crates/mvcc/src/store.rs:171-213 -/
def apply (batch : List Mutation) (upto : ℕ) : Prog KvStore Error (List Revision) := do
  let s ← get
  let txn ← onEngine beginWrite
  let (txn, revision, revisions) ← writeBatch batch txn s.state.current []
  let txn ← onEngine (txn.insert appliedKey (encodePosition upto))
  onEngine txn.commit
  modify fun s => { s with state := { s.state with
    index := (batch.zip revisions).foldl (fun index p => index.enter p.1 p.2) s.state.index
    current := revision
    applied := upto } }
  pure revisions

/-! ## Reading -/

/-- SOURCE: crates/mvcc/src/store.rs:301-310 -/
def resolve (state : State) (at_ : Option ℕ) : Except Error ℕ :=
  let at_ := at_.getD state.current.main
  if at_ > state.current.main then .error (.futureRevision at_ state.current.main)
  else if at_ < state.compacted then .error (.compacted at_ state.compacted)
  else .ok at_

/-- The loop of `range`: what the index found is fetched until the limit is reached.
SOURCE: crates/mvcc/src/store.rs:237-258 -/
def fetch (txn : WriteTxn) (limit : Option ℕ) :
    List (Bytes × Found) → List Record → Prog KvStore Error (List Record)
  | [], records => pure records
  | (key, found) :: rest, records =>
    if limit.any (records.length ≥ ·) then pure records
    else do
      match ← onEngine (lookup txn.working (backendKey found.modified false)) with
      | none => Prog.fail (.corrupt "index references a missing revision record")
      | some raw =>
        match decodeRecord raw with
        | none => Prog.fail (.corrupt "truncated revision record")
        | some (_, value) =>
          fetch txn limit rest (records ++
            [⟨key, value, found.created, found.modified, found.version⟩])

/-- The keys within `bounds` as they were at `at_`. The range over the index panics on bounds that
its map does not accept.
SOURCE: crates/mvcc/src/store.rs:225-261 -/
def range (bounds : Bounds) (at_ : Option ℕ) (limit : Option ℕ) :
    Prog KvStore Error (List Record) := do
  let s ← get
  match resolve s.state at_ with
  | .error e => Prog.fail e
  | .ok at_ =>
    if s.state.index.refuses bounds then Prog.panicking
    else
      let visible := s.state.index.range bounds at_
      let txn ← onEngine beginWrite
      fetch txn limit visible []

/-! ## Compaction -/

/-- The inner loop of `compact`: a revision's record goes under either key it may have. -/
def removeRecords : List Revision → WriteTxn → Prog KvStore Error WriteTxn
  | [], txn => pure txn
  | revision :: rest, txn => do
    let (txn, _) ← onEngine (txn.remove (backendKey revision false))
    let (txn, _) ← onEngine (txn.remove (backendKey revision true))
    removeRecords rest txn

/-- `slice::chunks`, for a chunk of `n + 1`. -/
def chunks {β : Type} (n : ℕ) : List β → List (List β)
  | [] => []
  | x :: xs => (x :: xs.take n) :: chunks n (xs.drop n)
  termination_by l => l.length
  decreasing_by simp only [List.length_drop, List.length_cons]; omega

/-- The outer loop of `compact`: one transaction a chunk. -/
def removeChunks : List (List Revision) → Prog KvStore Error Unit
  | [] => pure ()
  | chunk :: rest => do
    let txn ← onEngine beginWrite
    let txn ← removeRecords chunk txn
    onEngine txn.commit
    removeChunks rest

/-- Discards history below `at_`, removing `chunk + 1` records a transaction.
SOURCE: crates/mvcc/src/store.rs:272-299 -/
def compactBy (chunk : ℕ) (at_ : ℕ) : Prog KvStore Error ℕ := do
  let s ← get
  if at_ > s.state.current.main then
    Prog.fail (.futureRevision at_ s.state.current.main)
  else if at_ < s.state.compacted then
    Prog.fail (.compacted at_ s.state.compacted)
  else
    let (index, dropped) := s.state.index.compact at_
    modify fun s => { s with state := { s.state with index } }
    removeChunks (chunks chunk dropped)
    modify fun s => { s with state := { s.state with compacted := at_ } }
    pure dropped.length

def compact (at_ : ℕ) : Prog KvStore Error ℕ := compactBy (compactChunk - 1) at_

end Hadar.Mvcc
