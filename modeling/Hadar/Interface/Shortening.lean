import Hadar.Interface.Log

/-!
# Logs that lose their oldest segments

What compaction is to leave of a log, wherever it stops: the log without some of its oldest
segments, none of them with a record past the checkpoint, and still a log that recovery
accepts.
-/

set_option autoImplicit false

namespace Hadar.Wal

open Hadar.Lib Hadar.Lib.Prog Hadar.Storage Hadar.Mvcc

variable [Crc32]

/-- Each segment begins where the one before it ends. -/
def Contiguous (segments : List (ℕ × Bytes)) : Prop :=
  segments.IsChain fun p q => segmentEnd p = q.1

/-- Over the segments, and a store that is at a position of the log, recovery replays the log from
there exactly; it never fails, and nothing but the end of the revisions can stop it. -/
def Recoverable (segments : List (ℕ × Bytes)) (s : KvStore) : Prop :=
  ∀ d : Disk, d.segments = segments → d.replies = [] → s.engine.replies = [] →
    Ends recover ⟨d, s⟩ (fun _ h' => ReplaysExactly ⟨d, s⟩ h') (fun _ _ => False)
      fun _ => i64Max < s.state.current.main + (logEnd segments - s.state.applied)

/-- From a log some of the oldest segments are gone, whose records are numbered up to `position`
at most, and the rest goes on from there or from before. -/
structure Shortened (segments segments' : List (ℕ × Bytes)) (position : ℕ) : Prop where
  removed : ∃ k, segments' = segments.drop k ∧
    ∀ p ∈ numbered (segments.take k), p.1 ≤ position
  active : segments'.getLast? = segments.getLast?
  joined : Contiguous segments'
  begins : ∀ p ∈ segments'.head?, p.1 ≤ position
  accepted : Readable segments → ∀ s : KvStore, position ≤ s.state.applied →
    s.state.applied ≤ logEnd segments → Recoverable segments' s

end Hadar.Wal
