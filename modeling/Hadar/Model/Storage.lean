import Hadar.Lib.Prog
import Mathlib.Data.List.Basic
import Std.Data.ExtTreeMap

/-!
# The storage contract

`Bounds` (crates/storage-api/src/bounds.rs) and the transactions of `StorageEngine`
(crates/storage-api/src/engine.rs), with the reads of the reference engine
(crates/storage-api/src/mem.rs).

The backend is what the contract says and no more: commits are atomic and totally ordered,
any call may be refused, a refused commit applies nothing, a refused durable commit may or
may not have applied its writes, and durability is promised by `commitDurable` alone. How
the coming calls turn out is a list of replies held with the engine, so that a statement
about every list of replies is a statement about every pattern of failures and about a
crash at any call. `commits` keeps the contents after each commit, since a crash goes back
to one of them.
-/

set_option autoImplicit false

namespace Hadar.Storage

open Hadar.Lib Std

abbrev Bytes := List UInt8

/-- A keyspace: `BTreeMap<Vec<u8>, Vec<u8>>`, ordered by unsigned bytes. -/
abbrev Keyspace := ExtTreeMap Bytes Bytes

/-- `std::ops::Bound`. -/
inductive Bound where
  | unbounded
  | included (key : Bytes)
  | excluded (key : Bytes)
  deriving DecidableEq, Repr

/-- A key range to scan.
SOURCE: crates/storage-api/src/bounds.rs:9-12 -/
structure Bounds where
  start : Bound
  stop : Bound
  deriving DecidableEq, Repr

namespace Bounds

def all : Bounds := ⟨.unbounded, .unbounded⟩

def point (key : Bytes) : Bounds := ⟨.included key, .included key⟩

def between (start stop : Bytes) : Bounds := ⟨.included start, .excluded stop⟩

def startAt (start : Bytes) : Bounds := ⟨.included start, .unbounded⟩

def endBefore (stop : Bytes) : Bounds := ⟨.unbounded, .excluded stop⟩

/-- The loop of `Bounds::prefix`, on the reversed string: trailing `0xff` bytes are
popped and the last one below is incremented. -/
def successor : Bytes → Option Bytes
  | [] => none
  | last :: rest => if last < 255 then some ((last + 1) :: rest).reverse else successor rest

/-- Covers every key beginning with `lead`.
SOURCE: crates/storage-api/src/bounds.rs:70-88 -/
def withPrefix (lead : Bytes) : Bounds :=
  match successor lead.reverse with
  | some stop => ⟨.included lead, .excluded stop⟩
  | none => ⟨.included lead, .unbounded⟩

/-- Moves the start bound past `key`. -/
def advancePast (b : Bounds) (key : Bytes) : Bounds := { b with start := .excluded key }

/-- Whether the key is at or past the start bound. -/
def admitsStart (b : Bounds) (key : Bytes) : Bool :=
  match b.start with
  | .unbounded => true
  | .included s => (compare s key).isLE
  | .excluded s => (compare s key).isLT

/-- Whether the key is at or before the end bound. -/
def admitsStop (b : Bounds) (key : Bytes) : Bool :=
  match b.stop with
  | .unbounded => true
  | .included e => (compare key e).isLE
  | .excluded e => (compare key e).isLT

def contains (b : Bounds) (key : Bytes) : Bool := b.admitsStart key && b.admitsStop key

/-- When `BTreeMap::range` panics on a map that has a root: the start is past the end, or the two
are equal and both excluded. A map gets its root with its first entry and keeps it; one without a
root is not searched, whatever the bounds. -/
def panics (b : Bounds) : Bool :=
  match b.start, b.stop with
  | .excluded s, .excluded e => (compare s e).isGE
  | .included s, .included e => (compare s e).isGT
  | .included s, .excluded e => (compare s e).isGT
  | .excluded s, .included e => (compare s e).isGT
  | _, _ => false

end Bounds

/-- `BTreeMap::range`, where it does not panic: the entries within bounds, ascending. -/
def entriesIn {β : Type} (m : ExtTreeMap Bytes β) (b : Bounds) : List (Bytes × β) :=
  m.toList.filter fun p => b.contains p.1

/-- The first `limit` of a list, or all of it. -/
def capped {α : Type} (limit : Option ℕ) (l : List α) : List α :=
  match limit with
  | some n => l.take n
  | none => l

/-! ## The engine -/

inductive Kind where
  | io
  | corrupt
  | conflict
  | other
  deriving DecidableEq, Repr

/-- Failure returned by a storage operation.
SOURCE: crates/storage-api/src/error.rs:13-27 -/
structure Error where
  kind : Kind
  context : String
  deriving DecidableEq, Repr

/-- How one call of the engine turns out. The flag on a refusal says whether a durable
commit had applied its writes when it failed; no other call looks at it. -/
inductive Reply where
  | done
  | refused (e : Error) (applied : Bool)
  | crash
  deriving DecidableEq, Repr

/-- The backend: the contents after each commit, the newest first; how many of the oldest
commits are on stable storage; and how the coming calls turn out, where calls past the end
of the list succeed. -/
structure Engine where
  commits : List Keyspace
  durable : ℕ
  replies : List Reply

/-- What a transaction opened now reads. -/
def Engine.committed (e : Engine) : Keyspace := e.commits.headD ∅

/-- A backend nothing was ever committed to. -/
def Engine.empty : Engine := ⟨[], 0, []⟩

structure ReadTxn where
  snapshot : Keyspace

structure WriteTxn where
  working : Keyspace

variable {α : Type}

/-- Takes the reply to the next call. -/
def nextReply : Prog Engine Error Reply := do
  let e ← get
  match e.replies with
  | [] => pure .done
  | r :: rest =>
    set { e with replies := rest }
    pure r

/-- A call that takes effect only when it succeeds. -/
def call (effect : Prog Engine Error α) : Prog Engine Error α := do
  match ← nextReply with
  | .done => effect
  | .refused e _ => Prog.fail e
  | .crash => Prog.crashing

def beginRead : Prog Engine Error ReadTxn :=
  call do
    let e ← get
    pure ⟨e.committed⟩

def beginWrite : Prog Engine Error WriteTxn :=
  call do
    let e ← get
    pure ⟨e.committed⟩

/-- `ReadTxn::get`, of either kind of transaction. -/
def lookup (view : Keyspace) (key : Bytes) : Prog Engine Error (Option Bytes) :=
  call (pure view[key]?)

/-- `ReadTxn::range`, of a read transaction. Its map is a copy, which has a root only where it has
an entry.
SOURCE: crates/storage-api/src/mem.rs:64-68, 170-179 -/
def scan (view : Keyspace) (bounds : Bounds) (limit : Option ℕ) :
    Prog Engine Error (List (Bytes × Bytes)) :=
  call (if !view.isEmpty && bounds.panics then Prog.panicking
    else pure (capped limit (entriesIn view bounds)))

def WriteTxn.insert (txn : WriteTxn) (key value : Bytes) : Prog Engine Error WriteTxn :=
  call (pure ⟨txn.working.insert key value⟩)

def WriteTxn.remove (txn : WriteTxn) (key : Bytes) : Prog Engine Error (WriteTxn × Option Bytes) :=
  call (pure (⟨txn.working.erase key⟩, txn.working[key]?))

def WriteTxn.commit (txn : WriteTxn) : Prog Engine Error Unit :=
  call (modify fun e => { e with commits := txn.working :: e.commits })

/-- SOURCE: crates/storage-api/src/engine.rs:134-152 -/
def WriteTxn.commitDurable (txn : WriteTxn) : Prog Engine Error Unit := do
  match ← nextReply with
  | .done =>
    modify fun e =>
      { e with commits := txn.working :: e.commits, durable := e.commits.length + 1 }
  | .refused err applied =>
    if applied then modify fun e => { e with commits := txn.working :: e.commits }
    Prog.fail err
  | .crash => Prog.crashing

end Hadar.Storage
