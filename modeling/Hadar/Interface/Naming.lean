import Hadar.Interface.Ordering
import Hadar.Model.Names

/-!
# A directory of named files and the segments in it

Everywhere else a directory is a map from the number of a segment to its file. `Depicts` says that
a directory of named files is depicted so: each segment is under the name of its number, and the
files that are not segments are somebody else's. The lives of a log are told once more over named
files, and are to be depicted by lives of the log over numbers.
-/

set_option autoImplicit false

namespace Hadar.Wal.Named

open Hadar.Lib Hadar.Storage Hadar.Mvcc Std

/-! ## Directories -/

/-- The files in the directory that are not the log's: none has the extension of a segment, and
what was written to them is flushed. -/
structure Strays where
  files : ExtTreeMap Name File
  foreign : ∀ name ∈ files, extension name ≠ some walExtension
  flushed : ∀ (name : Name) (file : File), files[name]? = some file → file.flushed = file.data

/-- The directory holds the segments under their names, and the strays besides. -/
structure Depicts (strays : Strays) (f : Folder) (d : Disk) : Prop where
  segment : ∀ first ≤ u64Max, f.files[fileName first]? = d.files[first]?
  bounded : ∀ first ∈ d.files, first ≤ u64Max
  others : ∀ name : Name, (∀ first ≤ u64Max, name ≠ fileName first) →
    f.files[name]? = strays.files[name]?
  replies : f.replies = d.replies

/-- The directory after a crash: each file is there, with what it may be left with. -/
def Folder.Crashed (f f' : Folder) : Prop :=
  ∀ name : Name, Option.Rel
    (fun (file file' : File) => ∃ rest, file.Survives rest ∧ file' = ⟨rest, rest⟩)
    f.files[name]? f'.files[name]?

/-! ## The writer -/

/-- A segment under the name of its number. -/
structure DepictsSegment (s : Segment) (s' : Wal.Segment) : Prop where
  sink : s.sink = fileName s'.sink
  bounded : s'.sink ≤ u64Max
  written : s.written = s'.written
  limit : s.limit = s'.limit
  poisoned : s.poisoned = s'.poisoned

structure DepictsHost (strays : Strays) (h : Host) (h' : Wal.Host) : Prop where
  folder : Depicts strays h.folder h'.disk
  store : h.store = h'.store

structure DepictsWriter (strays : Strays) (w : Writer) (w' : Wal.Writer) : Prop where
  host : DepictsHost strays w.host w'.host
  segment : DepictsSegment w.segment w'.segment
  appended : w.appended = w'.appended

/-- A writer with its coming operations and calls replaced. -/
def Writer.given (w : Writer) (replies : List Reply) (calls : List Storage.Reply) : Writer :=
  { w with host := ⟨{ w.host.folder with replies := replies },
    { w.host.store with engine := { w.host.store.engine with replies := calls } }⟩ }

/-! ## Lives -/

section Lives

variable [Crc32] [Listing]

/-- A restart, over a directory and an engine. -/
def boot (options : Options) : Prog (Folder × Engine) Error Writer := do
  let state ← Prog.zoom (·.2) (fun e m => (m.1, e)) (fun e => .apply e.display) openState
  Prog.zoom (fun m => ⟨m.1, ⟨m.2, state⟩⟩) (fun h _ => (h.folder, h.store.engine)) id do
    let segment ← openWith options
    let host ← get
    pure ⟨host, segment, 0⟩

/-- Between processes there is a directory and an engine; in a process there is a writer. -/
inductive Machine where
  | down (folder : Folder) (engine : Engine)
  | up (writer : Writer)

/-- The lives a log and its store can have in a directory where there are strays. A restart or a
turn may end in whatever it ends in. What the store has applied is counted in a `u64`. -/
inductive Career (options : Options) (strays : Strays) : Machine → Prop where
  | fresh : Career options strays (.down ⟨strays.files, []⟩ Engine.empty)
  | opened {folder folder' : Folder} {engine engine' : Engine} {replies : List Reply}
    {calls : List Storage.Reply} {w : Writer} (before : Career options strays (.down folder engine))
    (ran : (boot options).exec ({ folder with replies := replies },
      { engine with replies := calls }) = (.ok w, folder', engine')) : Career options strays (.up w)
  | unopened {folder folder' folder'' : Folder} {engine engine' engine'' : Engine}
    {replies : List Reply} {calls : List Storage.Reply} {stop : Stop Error}
    (before : Career options strays (.down folder engine))
    (ran : (boot options).exec ({ folder with replies := replies },
      { engine with replies := calls }) = (.error stop, folder', engine'))
    (inFolder : folder'.Crashed folder'') (inEngine : EngineCrashed engine' engine'') :
    Career options strays (.down folder'' engine'')
  | turned {w w' : Writer} {t : Turn} {answers : Answers} (before : Career options strays (.up w))
    (counted : w.host.store.state.applied ≤ u64Max)
    (ran : (turn options.checkpointInterval t.batch t.requested).exec (w.given t.replies t.calls) =
      (.ok answers, w')) : Career options strays (.up w')
  | stopped {w : Writer} {t : Turn} {folder : Folder} {engine : Engine}
    (before : Career options strays (.up w)) (counted : w.host.store.state.applied ≤ u64Max)
    (inFolder : ((turn options.checkpointInterval t.batch t.requested).exec
      (w.given t.replies t.calls)).2.host.folder.Crashed folder)
    (inEngine : EngineCrashed ((turn options.checkpointInterval t.batch t.requested).exec
      (w.given t.replies t.calls)).2.host.store.engine engine) :
    Career options strays (.down folder engine)

/-- A machine over named files is depicted by one over numbers. -/
inductive DepictsMachine (strays : Strays) : Machine → Wal.Machine → Prop where
  | down {folder : Folder} {disk : Disk} (engine : Engine) (depicts : Depicts strays folder disk) :
    DepictsMachine strays (.down folder engine) (.down disk engine)
  | up {w : Writer} {w' : Wal.Writer} (depicts : DepictsWriter strays w w') :
    DepictsMachine strays (.up w) (.up w')

end Lives

end Hadar.Wal.Named
