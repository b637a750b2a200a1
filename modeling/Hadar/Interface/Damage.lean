import Hadar.Interface.Log

/-!
# Damage

A log that was written whole and then had one bit of one segment flipped.
-/

set_option autoImplicit false

namespace Hadar.Wal

open Hadar.Lib Hadar.Storage Hadar.Mvcc

/-- The bytes with one bit of one of them flipped. -/
def flipBit (bytes : Bytes) (at_ bit : ℕ) : Bytes :=
  bytes.modify at_ fun b => b ^^^ UInt8.ofNat (2 ^ bit)

/-- The directory with one bit of a segment flipped. -/
def Disk.damage (d : Disk) (first at_ bit : ℕ) : Disk :=
  d.update first fun f => { f with data := flipBit f.data at_ bit }

/-- The length a frame claims to have. -/
def claimed (frame : Bytes) : ℕ := ofBE ((frame.drop 4).take 4)

/-- What a reader hashes to check the frame the bytes begin with: the length and as many bytes
as it claims. -/
def hashed (bytes : Bytes) : Bytes := (bytes.drop 4).take 4 ++ (bytes.drop 8).take (claimed bytes)

variable [Crc32]

/-- Where the record with `k` others before it begins in its segment. -/
def offsetOf (mutations : List Mutation) (k : ℕ) : ℕ := (recordsOf (mutations.take k)).length

/-- On the frames compared, those that begin where the records of the original did, the
checksum tells different bytes apart. -/
def NoCollision (original damaged : Bytes) : Prop :=
  ∀ k < (complete original).length,
    Crc32.hash (hashed (damaged.drop (offsetOf (complete original) k))) =
        Crc32.hash (hashed (original.drop (offsetOf (complete original) k))) →
      hashed (damaged.drop (offsetOf (complete original) k)) =
        hashed (original.drop (offsetOf (complete original) k))

/-- The flip falls in the length of a record of the last segment and makes that record claim,
plausibly, to go on past the end of the segment, and the store has applied no more than the
records before it. -/
def Mistaken (start : ℕ) (older : List (List Mutation)) (active : List Mutation)
    (applied first at_ bit : ℕ) : Prop :=
  first = start + older.flatten.length ∧
    ∃ k < active.length, applied ≤ first + k ∧
      offsetOf active k + 4 ≤ at_ ∧ at_ < offsetOf active k + 8 ∧
      claimed ((flipBit (recordsOf active) at_ bit).drop (offsetOf active k)) ≤ maxPayloadLen ∧
      (recordsOf active).length < offsetOf active k + headerLen +
        claimed ((flipBit (recordsOf active) at_ bit).drop (offsetOf active k))

end Hadar.Wal
