import Hadar.Model.Segment
import Hadar.Model.Store

/-!
# Recovery and compaction of the log

`recover`, `compact` and the opening of a `Wal` (crates/wal/src/wal.rs).
-/

set_option autoImplicit false

namespace Hadar.Wal

open Hadar.Lib Hadar.Storage Hadar.Mvcc

variable [Crc32]

/-- How a log is opened.
SOURCE: crates/wal/src/wal.rs:31-45 -/
structure Options where
  segmentLimit : ℕ
  checkpointInterval : ℕ

/-- `segment::SEGMENT_LIMIT` -/
def segmentLimitDefault : ℕ := 64 * 1024 * 1024

/-- `Options::default` -/
def Options.default : Options := ⟨segmentLimitDefault, 2 * segmentLimitDefault⟩

/-- The directory of the log and the store it protects. -/
structure Host where
  disk : Disk
  store : KvStore

variable {α : Type}

def Host.onDisk (p : Prog Disk Error α) : Prog Host Error α :=
  Prog.zoom (·.disk) (fun d h => { h with disk := d }) id p

/-- `map_err(|e| Error::apply(e.to_string()))` on a call of the store. -/
def Host.onStore (p : Prog KvStore Mvcc.Error α) : Prog Host Error α :=
  Prog.zoom (·.store) (fun s h => { h with store := s }) (fun e => .apply e.display) p

/-- Where the log ends: the last segment, and the bytes of it that hold complete records. -/
structure Tail where
  first : ℕ
  valid : ℕ
  deriving DecidableEq, Repr

/-! ## Recovery -/

/-- A decoded frame takes at least its header off the bytes. -/
theorem decodeFrame_width {bytes payload : Bytes} {width : ℕ}
    (h : decodeFrame bytes = .ok (payload, width)) : 0 < width ∧ width ≤ bytes.length := by
  unfold decodeFrame at h
  split at h
  · cases h
  · rename_i header rest hsplit
    unfold splitAtChecked headerLen at hsplit
    split at hsplit
    · simp only [Option.some.injEq, Prod.mk.injEq] at hsplit
      obtain ⟨-, rfl⟩ := hsplit
      dsimp only at h
      split at h
      · cases h
      · split at h
        · cases h
        · split at h
          · cases h
          · rename_i p q hrest
            split at h
            · cases h
            · simp only [Except.ok.injEq, Prod.mk.injEq, headerLen] at h
              unfold splitAtChecked at hrest
              split at hrest
              · rename_i hle
                rw [List.length_drop] at hle
                omega
              · cases hrest
    · cases hsplit

theorem decode_width {bytes : Bytes} {mutation : Mutation} {width : ℕ}
    (h : decode bytes = .ok (mutation, width)) : 0 < width ∧ width ≤ bytes.length := by
  unfold decode at h
  split at h
  · cases h
  · rename_i payload w hframe
    split at h
    · cases h
    · simp only [Except.ok.injEq, Prod.mk.injEq] at h
      obtain ⟨-, rfl⟩ := h
      exact decodeFrame_width hframe

/-- The record loop of `recover` over what is left of one segment, counting without an end to the
type; `replayRecordsCounted` counts in a `u64`.
SOURCE: crates/wal/src/wal.rs:212-239 -/
def replayRecords (applied : ℕ) (isLast : Bool) (rest : Bytes) (seen valid : ℕ)
    (pending : List Mutation) : Except Error (ℕ × ℕ × List Mutation) :=
  if rest.isEmpty then .ok (seen, valid, pending)
  else
    match _h : decode rest with
    | .ok (mutation, width) =>
      replayRecords applied isLast (rest.drop width) (seen + 1) (valid + width)
        (if seen + 1 > applied then pending ++ [mutation] else pending)
    | .error error =>
      -- in the last segment a record that ends early was interrupted mid-append
      if error.isTruncated && isLast then .ok (seen, valid, pending)
      else if error.isTruncated then .error (.corrupt "a sealed segment ends mid-record")
      else .error error
  termination_by rest.length
  decreasing_by
    have := decode_width ‹_›
    simp only [List.length_drop]
    omega

/-- The segment loop of `recover`. Each segment's name restarts the count.
SOURCE: crates/wal/src/wal.rs:205-242 -/
def replaySegments (applied last : ℕ) : List (ℕ × ℕ) → ℕ → List Mutation → Option Tail →
    Prog Disk Error (ℕ × List Mutation × Option Tail)
  | [], seen, pending, tail => pure (seen, pending, tail)
  | (first, index) :: rest, _, pending, _ => do
    let bytes ← readSegment first
    match replayRecords applied (index == last) bytes first 0 pending with
    | .error e => Prog.fail e
    | .ok (seen, valid, pending) =>
      replaySegments applied last rest seen pending (some ⟨first, valid⟩)

/-- Replays records the store has not applied and locates the end of the log.
SOURCE: crates/wal/src/wal.rs:197-257 -/
def recover : Prog Host Error (Option Tail) := do
  let h ← get
  let applied := h.store.state.applied
  let segments ← Host.onDisk list
  let (seen, pending, tail) ←
    Host.onDisk (replaySegments applied (segments.length - 1) segments.zipIdx 0 [] none)
  if seen < applied then
    Prog.fail (.corrupt "log holds fewer records than the store has applied")
  else if pending.isEmpty then pure tail
  else do
    let _ ← Host.onStore (Mvcc.apply pending seen)
    pure tail

/-! ## Compaction -/

/-- The loop of `compact` over neighbouring segments: one is removed while the next begins
at or below the checkpoint. -/
def removeCovered (durable : ℕ) : List ℕ → ℕ → Prog Disk Error ℕ
  | first :: next :: rest, removed =>
    if next > durable then pure removed
    else do
      removeSegment first
      removeCovered durable (next :: rest) (removed + 1)
  | _, removed => pure removed

/-- Flushes the store and removes the segments it has made redundant.
SOURCE: crates/wal/src/wal.rs:265-285 -/
def compact : Prog Host Error ℕ := do
  let durable ← Host.onStore checkpoint
  let segments ← Host.onDisk list
  Host.onDisk (removeCovered durable segments 0)

/-! ## Opening -/

/-- `Wal::open_with`, up to the start of the writer thread.
SOURCE: crates/wal/src/wal.rs:113-139 -/
def openWith (options : Options) : Prog Host Error Segment := do
  Host.onDisk createDir
  match ← recover with
  | some tail => Host.onDisk (Segment.reopen tail.first tail.valid options.segmentLimit)
  | none => Host.onDisk (Segment.create 0 options.segmentLimit)

end Hadar.Wal
