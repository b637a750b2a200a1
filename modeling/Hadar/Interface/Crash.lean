import Hadar.Interface.Log
import Hadar.Interface.MultiVersion

/-!
# Crashes and restarts

The life of a log and its store over any number of processes: opening, writing and
checkpointing, each of which a crash may cut short at any of its operations, and crashes in
between. A run here is one in which no operation on the directory and no call of the engine is
refused. What a crash keeps is what the filesystem and the storage contract promise: the files
that exist, the bytes of each that were flushed with any part of what was not, and the contents
of some commit no older than the last durable one.
-/

set_option autoImplicit false

namespace Hadar.Wal

open Hadar.Lib Hadar.Storage Hadar.Mvcc

/-! ## Crashes -/

/-- What a crash may leave of a file: what was flushed and any part of what was written since,
or, where the file was cut and the cut not flushed, any part of what was cut. -/
def File.Survives (file : File) (rest : Bytes) : Prop :=
  file.flushed <+: rest ∧ rest <+: file.data ∨ file.data <+: rest ∧ rest <+: file.flushed

/-- The directory after a crash. -/
def Disk.Crashed (d d' : Disk) : Prop :=
  List.Forall₂ (fun p q => p.1 = q.1 ∧ ∃ rest, p.2.Survives rest ∧ q.2 = ⟨rest, rest⟩)
    d.files.toList d'.files.toList

/-- The engine after a crash: back at some commit, no older than the last durable one. -/
structure EngineCrashed (e e' : Engine) : Prop where
  commits : e'.commits <:+ e.commits
  durable : e'.durable = e.durable
  kept : e.durable ≤ e'.commits.length

/-- No operation and no call among those to come is refused. -/
def Obliging (replies : List Reply) (calls : List Storage.Reply) : Prop :=
  (∀ cut, .refused cut ∉ replies) ∧ ∀ e applied, .refused e applied ∉ calls

/-- A writer with its coming operations and calls replaced. -/
def Writer.given (w : Writer) (replies : List Reply) (calls : List Storage.Reply) : Writer :=
  { w with host := ⟨{ w.host.disk with replies := replies },
    { w.host.store with engine := { w.host.store.engine with replies := calls } }⟩ }

/-- A writer all of whose operations and calls to come succeed. -/
def Writer.Calm (w : Writer) : Prop :=
  w.host.disk.replies = [] ∧ w.host.store.engine.replies = []

/-! ## Restarts -/

variable [Crc32]

/-- A restart, over a directory and an engine: the store is opened over the engine and then the
log over the store. -/
def boot (options : Options) : Prog (Disk × Engine) Error Writer := do
  let state ← Prog.zoom (·.2) (fun e m => (m.1, e)) (fun e => .apply e.display) openState
  Prog.zoom (fun m => ⟨m.1, ⟨m.2, state⟩⟩) (fun h _ => (h.disk, h.store.engine)) id do
    let segment ← openWith options
    let host ← get
    pure ⟨host, segment, 0⟩

/-- Between processes there is a directory and an engine; in a process there is a writer. -/
inductive Machine where
  | down (disk : Disk) (engine : Engine)
  | up (writer : Writer)

/-- The lives a log and its store can have from an empty directory and an empty engine, with
the mutations that went into the log, in order, and how many of them are there to stay. A batch
counts as logged once it is written, and as settled once its writers are answered; whatever a
restart finds in the log settles it. A checkpoint may come at any time, so these are the runs of
every checkpoint interval. -/
inductive Life (options : Options) : Machine → List Mutation → ℕ → Prop where
  | fresh : Life options (.down Disk.empty Engine.empty) [] 0
  | opened {disk disk' : Disk} {engine engine' : Engine} {log : List Mutation} {settled : ℕ}
    {replies : List Reply} {calls : List Storage.Reply} {w : Writer}
    (before : Life options (.down disk engine) log settled) (obliging : Obliging replies calls)
    (ran : (boot options).exec ({ disk with replies := replies },
      { engine with replies := calls }) = (.ok w, disk', engine')) :
    Life options (.up w) (log.take w.host.store.state.applied) w.host.store.state.applied
  | cutOpening {disk disk' disk'' : Disk} {engine engine' engine'' : Engine}
    {log : List Mutation} {settled : ℕ} {replies : List Reply} {calls : List Storage.Reply}
    {stop : Stop Error}
    (before : Life options (.down disk engine) log settled) (obliging : Obliging replies calls)
    (ran : (boot options).exec ({ disk with replies := replies },
      { engine with replies := calls }) = (.error stop, disk', engine'))
    (dead : stop = .panic ∨ stop = .crash)
    (onDisk : disk'.Crashed disk'') (inEngine : EngineCrashed engine' engine'') :
    Life options (.down disk'' engine'') log settled
  | wrote {w w' : Writer} {log : List Mutation} {settled : ℕ} {replies : List Reply}
    {calls : List Storage.Reply} {batch : List Request} {revisions : List Revision}
    (before : Life options (.up w) log settled) (obliging : Obliging replies calls)
    (ran : (retire batch).exec (w.given replies calls) = (.ok revisions, w')) :
    Life options (.up w') (log ++ mutationsOf batch) (log ++ mutationsOf batch).length
  | declined {w w' : Writer} {log : List Mutation} {settled : ℕ} {replies : List Reply}
    {calls : List Storage.Reply} {batch : List Request} {e : Error}
    (before : Life options (.up w) log settled) (obliging : Obliging replies calls)
    (ran : (retire batch).exec (w.given replies calls) = (.error (.error e), w')) :
    Life options (.up w') log settled
  | cutWriting {w w' : Writer} {disk : Disk} {engine : Engine} {log : List Mutation}
    {settled : ℕ} {replies : List Reply} {calls : List Storage.Reply} {batch : List Request}
    {stop : Stop Error}
    (before : Life options (.up w) log settled) (obliging : Obliging replies calls)
    (ran : (retire batch).exec (w.given replies calls) = (.error stop, w'))
    (dead : stop = .panic ∨ stop = .crash)
    (onDisk : w'.host.disk.Crashed disk) (inEngine : EngineCrashed w'.host.store.engine engine) :
    Life options (.down disk engine) (log ++ mutationsOf batch) settled
  | checkpointed {w w' : Writer} {log : List Mutation} {settled removed : ℕ}
    {replies : List Reply} {calls : List Storage.Reply} (appended : ℕ)
    (before : Life options (.up w) log settled) (obliging : Obliging replies calls)
    (ran : (Writer.onHost compact).exec (w.given replies calls) = (.ok removed, w')) :
    Life options (.up { w' with appended := appended }) log settled
  | cutCheckpoint {w w' : Writer} {disk : Disk} {engine : Engine} {log : List Mutation}
    {settled : ℕ} {replies : List Reply} {calls : List Storage.Reply} {stop : Stop Error}
    (before : Life options (.up w) log settled) (obliging : Obliging replies calls)
    (ran : (Writer.onHost compact).exec (w.given replies calls) = (.error stop, w'))
    (dead : stop = .panic ∨ stop = .crash)
    (onDisk : w'.host.disk.Crashed disk) (inEngine : EngineCrashed w'.host.store.engine engine) :
    Life options (.down disk engine) log settled
  | cutIdle {w : Writer} {disk : Disk} {engine : Engine} {log : List Mutation} {settled : ℕ}
    (before : Life options (.up w) log settled)
    (onDisk : w.host.disk.Crashed disk) (inEngine : EngineCrashed w.host.store.engine engine) :
    Life options (.down disk engine) log settled

/-! ## What a restart restores -/

/-- A store over an engine whose calls all succeed. -/
def KvStore.calmed (s : KvStore) : KvStore := { s with engine := { s.engine with replies := [] } }

/-- The store is the one obtained by applying the mutations to an empty store, in its state, its
contents and its reads. One that applied nothing may not have written its position yet. -/
def IsStoreOf (s : KvStore) (mutations : List Mutation) : Prop :=
  ∃ s₀ revisions,
    (Mvcc.apply mutations mutations.length).exec KvStore.fresh = (.ok revisions, s₀) ∧
      s.state = s₀.state ∧
      (s.engine.committed = s₀.engine.committed ∨ mutations = [] ∧ s.engine.committed = ∅) ∧
      ∀ bounds at_ limit, ((range bounds at_ limit).exec (KvStore.calmed s)).1 =
        ((range bounds at_ limit).exec s₀).1

end Hadar.Wal
