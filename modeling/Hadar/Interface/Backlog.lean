import Hadar.Interface.Crash

/-!
# How much log is left to replay

A writer that serves batches and checkpoints and may be restarted between them, over the store as
it is or an earlier commit of it, with nothing refused. What a restart has to read is the bytes
of all segment files.
-/

set_option autoImplicit false

namespace Hadar.Wal

open Hadar.Lib Hadar.Storage Hadar.Mvcc

/-- The bytes of all segment files. -/
def Disk.bytes (d : Disk) : ℕ := (d.segments.map fun p => p.2.length).sum

variable [Crc32]

/-- A batch comes to no more than some number of bytes, if it can be encoded. -/
def AtMost (largest : ℕ) (batch : List Request) : Prop :=
  ∀ bytes, encodeBatch (mutationsOf batch) [] = .ok bytes → bytes.length ≤ largest

/-- The writers there can be, from an empty directory and an empty engine, after any number of
turns and restarts with nothing refused, where batches are no larger than some number of bytes
and the directories found by a restart are among those `allowed`. -/
inductive Service (options : Options) (largest : ℕ) (allowed : Disk → Prop) : Writer → Prop where
  | opened {w : Writer} {m : Disk × Engine}
    (ran : (boot options).exec (Disk.empty, Engine.empty) = (.ok w, m)) :
    Service options largest allowed w
  | turned {w w' : Writer} {batch : List Request} {requested : Bool} {answers : Answers}
    (before : Service options largest allowed w) (small : AtMost largest batch)
    (ran : (turn options.checkpointInterval batch requested).exec (w.given [] []) =
      (.ok answers, w')) :
    Service options largest allowed w'
  | restarted {w w' : Writer} {engine : Engine} {m : Disk × Engine}
    (before : Service options largest allowed w) (permitted : allowed w.host.disk)
    (inEngine : EngineCrashed w.host.store.engine engine)
    (ran : (boot options).exec ({ w.host.disk with replies := [] },
      { engine with replies := [] }) = (.ok w', m)) :
    Service options largest allowed w'

end Hadar.Wal
