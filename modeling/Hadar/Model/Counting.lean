import Hadar.Model.Wal

/-!
# Recovery as it counts

`recover` counts records in a `u64` (crates/wal/src/wal.rs), from a name that may be anything. A
build with overflow checks panics where the count would pass the end of the type, and one without
them goes on from zero. `none` stands for the panic.
-/

set_option autoImplicit false

namespace Hadar.Wal

open Hadar.Lib Hadar.Storage Hadar.Mvcc

/-- `u64::MAX` -/
def u64Max : ℕ := 2 ^ 64 - 1

/-- `seen += 1` -/
def increment (overflowChecks : Bool) (seen : ℕ) : Option ℕ :=
  if seen < u64Max then some (seen + 1)
  else if overflowChecks then none
  else some 0

variable [Crc32] (overflowChecks : Bool)

/-- The record loop of `recover` over what is left of one segment.
SOURCE: crates/wal/src/wal.rs:212-239 -/
def replayRecordsCounted (applied : ℕ) (isLast : Bool) (rest : Bytes) (seen valid : ℕ)
    (pending : List Mutation) : Option (Except Error (ℕ × ℕ × List Mutation)) :=
  if rest.isEmpty then some (.ok (seen, valid, pending))
  else
    match _h : decode rest with
    | .ok (mutation, width) =>
      match increment overflowChecks seen with
      | none => none
      | some seen =>
        replayRecordsCounted applied isLast (rest.drop width) seen (valid + width)
          (if seen > applied then pending ++ [mutation] else pending)
    | .error error =>
      if error.isTruncated && isLast then some (.ok (seen, valid, pending))
      else if error.isTruncated then some (.error (.corrupt "a sealed segment ends mid-record"))
      else some (.error error)
  termination_by rest.length
  decreasing_by
    have := decode_width ‹_›
    simp only [List.length_drop]
    omega

/-- The segment loop of `recover`.
SOURCE: crates/wal/src/wal.rs:205-242 -/
def replaySegmentsCounted (applied last : ℕ) : List (ℕ × ℕ) → ℕ → List Mutation → Option Tail →
    Prog Disk Error (ℕ × List Mutation × Option Tail)
  | [], seen, pending, tail => pure (seen, pending, tail)
  | (first, index) :: rest, _, pending, _ => do
    let bytes ← readSegment first
    match replayRecordsCounted overflowChecks applied (index == last) bytes first 0 pending with
    | none => Prog.panicking
    | some (.error e) => Prog.fail e
    | some (.ok (seen, valid, pending)) =>
      replaySegmentsCounted applied last rest seen pending (some ⟨first, valid⟩)

/-- SOURCE: crates/wal/src/wal.rs:197-257 -/
def recoverCounted : Prog Host Error (Option Tail) := do
  let h ← get
  let applied := h.store.state.applied
  let segments ← Host.onDisk list
  let (seen, pending, tail) ← Host.onDisk
    (replaySegmentsCounted overflowChecks applied (segments.length - 1) segments.zipIdx 0 [] none)
  if seen < applied then
    Prog.fail (.corrupt "log holds fewer records than the store has applied")
  else if pending.isEmpty then pure tail
  else do
    let _ ← Host.onStore (Mvcc.apply pending seen)
    pure tail

end Hadar.Wal
