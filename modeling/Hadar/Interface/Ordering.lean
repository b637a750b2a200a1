import Hadar.Interface.Failures

/-!
# Writing ahead

What the log is for: a mutation is applied only when its record is on stable storage, and the
record stays there until the store's own contents are. The lives in which this is to hold are all
those from an empty directory and an empty engine in which operations and calls are refused in any
pattern, restarts and turns are cut short anywhere, and a process goes on after whatever failed.
-/

set_option autoImplicit false

namespace Hadar.Wal

open Hadar.Lib Hadar.Storage Hadar.Mvcc

variable [Crc32]

/-! ## Lives in which anything may fail -/

/-- The lives a log and its store can have. A restart or a turn may end in whatever it ends in;
where the process is over, a crash decides what is left. -/
inductive Career (options : Options) : Machine → Prop where
  | fresh : Career options (.down Disk.empty Engine.empty)
  | opened {disk disk' : Disk} {engine engine' : Engine} {replies : List Reply}
    {calls : List Storage.Reply} {w : Writer} (before : Career options (.down disk engine))
    (ran : (boot options).exec ({ disk with replies := replies },
      { engine with replies := calls }) = (.ok w, disk', engine')) : Career options (.up w)
  | unopened {disk disk' disk'' : Disk} {engine engine' engine'' : Engine} {replies : List Reply}
    {calls : List Storage.Reply} {stop : Stop Error} (before : Career options (.down disk engine))
    (ran : (boot options).exec ({ disk with replies := replies },
      { engine with replies := calls }) = (.error stop, disk', engine'))
    (onDisk : disk'.Crashed disk'') (inEngine : EngineCrashed engine' engine'') :
    Career options (.down disk'' engine'')
  | turned {w w' : Writer} {t : Turn} {answers : Answers} (before : Career options (.up w))
    (ran : (turn options.checkpointInterval t.batch t.requested).exec (w.given t.replies t.calls) =
      (.ok answers, w')) : Career options (.up w')
  | stopped {w : Writer} {t : Turn} {disk : Disk} {engine : Engine}
    (before : Career options (.up w))
    (onDisk : (w.after options.checkpointInterval t).host.disk.Crashed disk)
    (inEngine : EngineCrashed (w.after options.checkpointInterval t).host.store.engine engine) :
    Career options (.down disk engine)

/-! ## Where records are -/

/-- A mutation that was applied, under its revision, and where its record was written. -/
structure Entry where
  event : Event
  segment : ℕ
  offset : ℕ

namespace Entry

/-- Where the record ends. -/
def stop (x : Entry) : ℕ := x.offset + (recordOf x.event.2).length

/-- One record lies before another: in an older segment, or in the same one and clear of it. -/
def Before (x y : Entry) : Prop := x.segment < y.segment ∨ x.segment = y.segment ∧ x.stop ≤ y.offset

/-- The whole record is in its segment, and was when the segment was flushed last. -/
def Logged (x : Entry) (d : Disk) : Prop :=
  ∃ file, d.files[x.segment]? = some file ∧ recordOf x.event.2 <+: file.data.drop x.offset ∧
    recordOf x.event.2 <+: file.flushed.drop x.offset

/-- The mutation is part of what the engine was last made to keep, which a checkpoint does when it
returns and nothing else does. -/
def Saved (x : Entry) (e : Engine) : Prop :=
  ∃ kept, kept <:+ e.commits ∧ kept.length = e.durable ∧
    (kept.headD ∅)[backendKey x.event.1 x.event.dies]? =
      some (encodeRecord x.event.2.key x.event.2.value)

end Entry

/-- Every mutation the store holds past a revision has its own record, in a flushed part of the
log or else no longer needed; and what was answered is among these mutations. -/
structure WritesAhead (since : ℕ) (told : List Exchange) (w : Writer) (entries : List Entry) :
    Prop where
  applied : ∀ rev tombstone raw, since < rev.main ∧
    w.host.store.engine.committed[backendKey rev tombstone]? = some raw ↔
      ∃ x ∈ entries, x.event.1 = rev ∧ x.event.dies = tombstone ∧
        encodeRecord x.event.2.key x.event.2.value = raw
  answered : ∀ e ∈ acknowledged told, ∃ x ∈ entries, x.event = e
  apart : entries.Pairwise Entry.Before
  covered : ∀ x ∈ entries, x.Logged w.host.disk ∨ x.Saved w.host.store.engine

/-! ## What goes -/

/-- The writer once a batch, if there is one, was dealt with. -/
def Writer.settled (w : Writer) (batch : List Request) : Writer :=
  if batch.isEmpty then w else ((retire batch).exec w).2

/-- A checkpoint has returned in a turn that began once the turn had dealt with its batch; nothing
was applied after that. -/
def Secured (checkpointInterval : ℕ) (w : Writer) (t : Turn) : Prop :=
  ∃ position, checkpoint.exec ((w.given t.replies t.calls).settled t.batch).host.store =
    (.ok position, (w.after checkpointInterval t).host.store)

/-- However a turn ends, it takes away no record of `entries` that was in the log before it and
none of `more`, the records it wrote itself, and makes nothing durable, unless a checkpoint has
returned. -/
structure Withholds (checkpointInterval : ℕ) (w : Writer) (t : Turn) (entries more : List Entry) :
    Prop where
  records : ∀ x, x ∈ more ∨ x ∈ entries ∧ x.Logged w.host.disk →
    x.Logged (w.after checkpointInterval t).host.disk ∨ Secured checkpointInterval w t
  durable : (w.after checkpointInterval t).host.store.engine.durable =
    w.host.store.engine.durable ∨ Secured checkpointInterval w t

end Hadar.Wal
