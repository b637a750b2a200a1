import Hadar.Lib.Sharing
import Hadar.Model.Store

/-!
# The store, section by section

`KvStore` (crates/mvcc/src/store.rs) is shared by threads. Each of its methods takes the lock of the
state, shared or alone, and a `begin_write` lets one of them through at a time; between two calls of
the engine the methods of other threads may run. Here the methods are written as scripts, with a
section for each call of the engine and one for each look at the state.

`commit` and `commit_durable` take the transaction by value, so that it is gone after them, refused
or not; any other transaction is dropped when its method returns.
-/

set_option autoImplicit false

namespace Hadar.Mvcc

open Hadar.Lib Hadar.Lib.Script Hadar.Storage

namespace Sections

/-- `begin_write`, which waits for the transaction of another.
SOURCE: crates/storage-api/src/engine.rs:50-59 -/
def beginWrite : Script KvStore Error WriteTxn := taking (onEngine Storage.beginWrite)

/-- SOURCE: crates/mvcc/src/store.rs:148-160 -/
def checkpoint : Script KvStore Error ℕ := do
  let s ← section_ get
  let txn ← beginWrite
  let txn ← section_ (onEngine (txn.insert appliedKey (encodePosition s.state.applied)))
  giving (onEngine txn.commitDurable)
  pure s.state.applied

/-- SOURCE: crates/mvcc/src/store.rs:178-192 -/
def writeBatch : List Mutation → WriteTxn → Revision → List Revision →
    Script KvStore Error (WriteTxn × Revision × List Revision)
  | [], txn, revision, revisions => pure (txn, revision, revisions)
  | mutation :: rest, txn, revision, revisions =>
    match revision.nextMain with
    | none => panic
    | some revision => do
      let txn ← section_ (onEngine (txn.insert (backendKey revision mutation.isDelete)
        (encodeRecord mutation.key mutation.value)))
      writeBatch rest txn revision (revisions ++ [revision])

/-- SOURCE: crates/mvcc/src/store.rs:171-213 -/
def apply (batch : List Mutation) (upto : ℕ) : Script KvStore Error (List Revision) := do
  let s ← section_ get
  let txn ← beginWrite
  let (txn, revision, revisions) ← writeBatch batch txn s.state.current []
  let txn ← section_ (onEngine (txn.insert appliedKey (encodePosition upto)))
  giving (onEngine txn.commit)
  section_ (modify fun s => { s with state := { s.state with
    index := (batch.zip revisions).foldl (fun index p => index.enter p.1 p.2) s.state.index
    current := revision
    applied := upto } })
  pure revisions

/-- SOURCE: crates/mvcc/src/store.rs:237-258 -/
def fetch (txn : WriteTxn) (limit : Option ℕ) :
    List (Bytes × Found) → List Record → Script KvStore Error (List Record)
  | [], records => pure records
  | (key, found) :: rest, records =>
    if limit.any (records.length ≥ ·) then pure records
    else do
      match ← section_ (onEngine (lookup txn.working (backendKey found.modified false))) with
      | none => fail (.corrupt "index references a missing revision record")
      | some raw =>
        match decodeRecord raw with
        | none => fail (.corrupt "truncated revision record")
        | some (_, value) =>
          fetch txn limit rest (records ++
            [⟨key, value, found.created, found.modified, found.version⟩])

/-- SOURCE: crates/mvcc/src/store.rs:225-261 -/
def range (bounds : Bounds) (at_ : Option ℕ) (limit : Option ℕ) :
    Script KvStore Error (List Record) := do
  let s ← section_ get
  match resolve s.state at_ with
  | .error e => fail e
  | .ok at_ =>
    if s.state.index.refuses bounds then panic
    else
      let visible := s.state.index.range bounds at_
      let txn ← beginWrite
      fetch txn limit visible []

def removeRecords : List Revision → WriteTxn → Script KvStore Error WriteTxn
  | [], txn => pure txn
  | revision :: rest, txn => do
    let (txn, _) ← section_ (onEngine (txn.remove (backendKey revision false)))
    let (txn, _) ← section_ (onEngine (txn.remove (backendKey revision true)))
    removeRecords rest txn

def removeChunks : List (List Revision) → Script KvStore Error Unit
  | [] => pure ()
  | chunk :: rest => do
    let txn ← beginWrite
    let txn ← removeRecords chunk txn
    giving (onEngine txn.commit)
    removeChunks rest

/-- SOURCE: crates/mvcc/src/store.rs:272-299 -/
def compact (at_ : ℕ) : Script KvStore Error ℕ := do
  let s ← section_ get
  if at_ > s.state.current.main then
    fail (.futureRevision at_ s.state.current.main)
  else if at_ < s.state.compacted then
    fail (.compacted at_ s.state.compacted)
  else
    let (index, dropped) := s.state.index.compact at_
    section_ (modify fun s => { s with state := { s.state with index } })
    removeChunks (chunks (compactChunk - 1) dropped)
    section_ (modify fun s => { s with state := { s.state with compacted := at_ } })
    pure dropped.length

/-- SOURCE: crates/mvcc/src/store.rs:121-123 -/
def currentRevision : Script KvStore Error Revision := do
  let s ← section_ get
  pure s.state.current

/-- SOURCE: crates/mvcc/src/store.rs:130-132 -/
def applied : Script KvStore Error ℕ := do
  let s ← section_ get
  pure s.state.applied

end Sections

/-- A call of the store. -/
inductive Op where
  | apply (batch : List Mutation) (upto : ℕ)
  | checkpoint
  | range (bounds : Bounds) (at_ limit : Option ℕ)
  | compact (at_ : ℕ)
  | currentRevision
  | applied

/-- What a call of the store returns where it succeeds. -/
inductive Returned where
  | revisions (revisions : List Revision)
  | records (records : List Record)
  | removed (records : ℕ)
  | revision (revision : Revision)
  | position (position : ℕ)
  deriving DecidableEq

/-- Which lock a method takes, and what it does with it. -/
def Op.method : Op → Method KvStore Error Returned
  | .apply batch upto => ⟨true, .revisions <$> Sections.apply batch upto⟩
  | .checkpoint => ⟨true, .position <$> Sections.checkpoint⟩
  | .range bounds at_ limit => ⟨false, .records <$> Sections.range bounds at_ limit⟩
  | .compact at_ => ⟨true, .removed <$> Sections.compact at_⟩
  | .currentRevision => ⟨false, .revision <$> Sections.currentRevision⟩
  | .applied => ⟨false, .position <$> Sections.applied⟩

/-- What the threads share of a store: the contents of its engine, and its state. How the calls that
a method makes of the engine turn out is its own. -/
structure Contents where
  commits : List Keyspace
  durable : ℕ
  state : State

def Contents.view : View KvStore Contents (List Storage.Reply) where
  join contents replies := ⟨⟨contents.commits, contents.durable, replies⟩, contents.state⟩
  seen store := ⟨store.engine.commits, store.engine.durable, store.state⟩
  own store := store.engine.replies
  seen_join _ _ := rfl
  join_eta _ := rfl

end Hadar.Mvcc
