import Hadar.Interface.Crash

/-!
# Runs in which calls fail

A writer that takes one turn after another while operations on its directory, or calls of its
engine, are refused. What it answers on the way is what its callers rely on: a write answered
with revisions is acknowledged, and one answered with an error is not.
-/

set_option autoImplicit false

namespace Hadar.Wal

open Hadar.Lib Hadar.Storage Hadar.Mvcc

variable [Crc32]

/-! ## Turns -/

/-- One turn of the writer: the batch it collected, whether a checkpoint was requested, and how
the operations and the calls it makes turn out. -/
structure Turn where
  batch : List Request
  requested : Bool
  replies : List Reply
  calls : List Storage.Reply

/-- What one caller was told. -/
abbrev Exchange := Request × Except Error (List Revision)

/-- The runs of one writer over some turns, each of which is among those `allowed`, with what
every caller was told, in the order of the queue. -/
inductive Run (checkpointInterval : ℕ) (allowed : Writer → Turn → Prop) (w₀ : Writer) :
    List Turn → Writer → List Exchange → Prop where
  | start : Run checkpointInterval allowed w₀ [] w₀ []
  | turned {turns : List Turn} {w w' : Writer} {told : List Exchange} {t : Turn}
    {answers : Answers} (before : Run checkpointInterval allowed w₀ turns w told)
    (permitted : allowed (w.given t.replies t.calls) t)
    (ran : (turn checkpointInterval t.batch t.requested).exec (w.given t.replies t.calls) =
      (.ok answers, w')) :
    Run checkpointInterval allowed w₀ (turns ++ [t]) w' (told ++ t.batch.zip answers.writes)

/-- The writer after a turn. -/
def Writer.after (w : Writer) (checkpointInterval : ℕ) (t : Turn) : Writer :=
  ((turn checkpointInterval t.batch t.requested).exec (w.given t.replies t.calls)).2

/-- The revisions answered, one write's after another's. -/
def revisionsOf (told : List Exchange) : List Revision :=
  told.flatMap fun x =>
    match x.2 with
    | .ok revisions => revisions
    | .error _ => []

/-- The mutations of the writes that were answered with revisions, each with the revision it
was answered with. -/
def acknowledged (told : List Exchange) : List Event :=
  told.flatMap fun x =>
    match x.2 with
    | .ok revisions => revisions.zip x.1.mutations
    | .error _ => []

/-- Every write that was answered with revisions was given one for each of its mutations. -/
def Covers (told : List Exchange) : Prop :=
  ∀ x ∈ told, ∀ revisions, x.2 = .ok revisions → revisions.length = x.1.mutations.length

/-! ## Which failures do harm -/

/-- The batch gets as far as its append: it can be encoded, a new segment can be created where
one is due, and the segment it goes to is not poisoned. -/
structure Appends (w : Writer) (batch : List Request) : Prop where
  encodable : ∀ m ∈ mutationsOf batch, Encodable m
  moved : w.segment.isFull = true → w.host.disk.replies.headD .done = .done ∧
    w.host.disk.files.contains w.host.store.state.applied = false
  stayed : w.segment.isFull = false → w.segment.poisoned = false

/-- How the operations from the append on turn out. -/
def Writer.appending (w : Writer) : List Reply :=
  if w.segment.isFull then w.host.disk.replies.tail else w.host.disk.replies

/-- None of the first `n` calls is refused. -/
def Granted (n : ℕ) (calls : List Storage.Reply) : Prop :=
  ∀ e applied, .refused e applied ∉ calls.take n

/-- The batch's append, where it comes to one, leaves no record behind if it fails. -/
def Sparing (w : Writer) (batch : List Request) : Prop :=
  Appends w batch → Harmless (mutationsOf batch) w.appending

/-- Where the batch comes to be appended and has any mutations, the store takes them: none of
the calls that applying them makes is refused, which are one to begin, one for each mutation,
one for the position and one to commit. -/
def Accepting (w : Writer) (batch : List Request) : Prop :=
  Appends w batch → mutationsOf batch ≠ [] →
    Granted ((mutationsOf batch).length + 3) w.host.store.engine.replies

/-! ## What a restart finds -/

/-- The directory, with every operation to come succeeding. -/
def Disk.calmed (d : Disk) : Disk := { d with replies := [] }

/-- An engine that holds some commits, with every call to come succeeding. -/
def engineOf (kept : List Keyspace) : Engine := ⟨kept, kept.length, []⟩

/-- The log begins at or below a position, so no record past it was discarded. -/
def Reaches (d : Disk) (position : ℕ) : Prop := ∀ p ∈ d.segments.head?, p.1 ≤ position

/-- The last record in the log is the last one the store has applied. -/
def InStep (w : Writer) : Prop := logEnd w.host.disk.segments = w.host.store.state.applied

/-- Over the directory and the engine a store is opened, and recovery returns and gives it
exactly the records it has not applied. -/
def ReplaysUnapplied (disk : Disk) (engine : Engine) : Prop :=
  ∃ state tail h', openState.exec engine = (.ok state, engine) ∧
    recover.exec ⟨disk, ⟨engine, state⟩⟩ = (.ok tail, h') ∧
    ReplaysExactly ⟨disk, ⟨engine, state⟩⟩ h'

end Hadar.Wal
