import Hadar.Lib.BigEndian
import Hadar.Model.Storage

/-!
# Revisions and the backend record format

`Revision` (crates/mvcc/src/revision.rs), `Mutation` (crates/mvcc/src/mutation.rs), the
keys and values the store writes to its backend (crates/mvcc/src/record.rs,
crates/mvcc/src/meta.rs) and the errors of the store (crates/mvcc/src/error.rs).
-/

set_option autoImplicit false

namespace Hadar.Mvcc

open Hadar.Lib Hadar.Storage

/-- `i64::MAX`. -/
abbrev i64Max : ℕ := 2 ^ 63 - 1

/-- `u32::MAX`. -/
abbrev u32Max : ℕ := 2 ^ 32 - 1

/-- A point in the store's history. `Revision::new` is the only way to build one, and it
refuses what the wire format cannot carry, so the bounds are fields.
SOURCE: crates/mvcc/src/revision.rs:11-42 -/
@[ext] structure Revision where
  main : ℕ
  sub : ℕ
  main_le : main ≤ i64Max
  sub_le : sub ≤ i64Max
  deriving DecidableEq

namespace Revision

/-- SOURCE: crates/mvcc/src/revision.rs:27-33 -/
def new (main sub : ℕ) : Option Revision :=
  if h : main > i64Max ∨ sub > i64Max then none
  else some ⟨main, sub, by omega, by omega⟩

/-- The revision of an empty store. -/
def zero : Revision := ⟨0, 0, by decide, by decide⟩

/-- `next_main`, where `none` stands for its panic.
SOURCE: crates/mvcc/src/revision.rs:63-70 -/
def nextMain (r : Revision) : Option Revision := new (r.main + 1) 0

/-- `Ord::max`, by `main` and then `sub`, as derived. -/
def max (a b : Revision) : Revision :=
  if a.main < b.main ∨ (a.main = b.main ∧ a.sub ≤ b.sub) then b else a

def encodedLen : ℕ := 17

/-- The byte `_`. -/
def separator : UInt8 := 95

/-- SOURCE: crates/mvcc/src/revision.rs:90-97 -/
def encode (r : Revision) : Bytes := toBE 8 r.main ++ separator :: toBE 8 r.sub

/-- SOURCE: crates/mvcc/src/revision.rs:104-113 -/
def decode (bytes : Bytes) : Option Revision :=
  if bytes.length ≠ encodedLen ∨ bytes[8]? ≠ some separator then none
  else new (ofBE (bytes.take 8)) (ofBE (bytes.drop 9))

end Revision

/-- A single resolved change to the keyspace.
SOURCE: crates/mvcc/src/mutation.rs:11-35 -/
inductive Mutation where
  | put (key value : Bytes)
  | delete (key : Bytes)
  deriving DecidableEq, Repr

namespace Mutation

def key : Mutation → Bytes
  | put key _ => key
  | delete key => key

/-- `matches!(mutation, Mutation::Delete { .. })` -/
def isDelete : Mutation → Bool
  | put _ _ => false
  | delete _ => true

/-- The value stored with the mutation; a deletion stores none. -/
def value : Mutation → Bytes
  | put _ value => value
  | delete _ => []

end Mutation

/-! ## Backend records -/

/-- The byte `t`. -/
def revisionPrefix : UInt8 := 116

def tombstoneMark : UInt8 := 1

/-- SOURCE: crates/mvcc/src/record.rs:10-19 -/
def backendKey (revision : Revision) (tombstone : Bool) : Bytes :=
  revisionPrefix :: (revision.encode ++ if tombstone then [tombstoneMark] else [])

/-- Bounds covering every revision record. -/
def allRecords : Bounds := Bounds.withPrefix [revisionPrefix]

/-- SOURCE: crates/mvcc/src/record.rs:30-45 -/
def parseKey (key : Bytes) : Option (Revision × Bool) :=
  match key with
  | [] => none
  | lead :: rest =>
    if lead ≠ revisionPrefix then none
    else if rest.length = Revision.encodedLen then
      (Revision.decode rest).map (·, false)
    else if rest.length = Revision.encodedLen + 1 ∧
        rest[Revision.encodedLen]? = some tombstoneMark then
      (Revision.decode (rest.take Revision.encodedLen)).map (·, true)
    else none

/-- The user key and value stored at a revision. A length past `u32::MAX` saturates.
SOURCE: crates/mvcc/src/record.rs:48-56 -/
def encodeRecord (key value : Bytes) : Bytes :=
  toBE 4 (if key.length ≤ u32Max then key.length else u32Max) ++ (key ++ value)

/-- `split_at_checked` -/
def splitAtChecked (bytes : Bytes) (n : ℕ) : Option (Bytes × Bytes) :=
  if n ≤ bytes.length then some (bytes.take n, bytes.drop n) else none

/-- SOURCE: crates/mvcc/src/record.rs:62-67 -/
def decodeRecord (bytes : Bytes) : Option (Bytes × Bytes) :=
  match splitAtChecked bytes 4 with
  | none => none
  | some (len, rest) => splitAtChecked rest (ofBE len)

/-- The key of the applied-position marker.
SOURCE: crates/mvcc/src/meta.rs:1-8 -/
def appliedKey : Bytes := [0, 1]

def encodePosition (position : ℕ) : Bytes := toBE 8 position

def decodePosition (bytes : Bytes) : Option ℕ :=
  if bytes.length = 8 then some (ofBE bytes) else none

/-! ## Errors -/

/-- Failure returned by a store operation.
SOURCE: crates/mvcc/src/error.rs:6-17 -/
inductive Error where
  | compacted (requested watermark : ℕ)
  | futureRevision (requested current : ℕ)
  | corrupt (detail : String)
  | storage (source : Storage.Error)
  deriving DecidableEq, Repr

/-- `Display` of the error's kind.
SOURCE: crates/mvcc/src/error.rs:70-88 -/
def Error.display : Error → String
  | .compacted requested watermark =>
    "revision " ++ toString requested ++ " has been compacted away; oldest readable is " ++
      toString watermark
  | .futureRevision requested current =>
    "revision " ++ toString requested ++ " is ahead of the current revision " ++ toString current
  | .corrupt detail => "corrupt store state: " ++ detail
  | .storage _ => "storage backend failure"

end Hadar.Mvcc
