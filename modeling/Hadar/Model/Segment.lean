import Hadar.Model.Frame

/-!
# Segment files

How the log reaches its directory: the file operations (crates/wal/src/io.rs) and the
segments over them (crates/wal/src/segment.rs).

A segment file is named by the index of the record before its first one, in fixed-width
decimal, so a directory is an ordered map from that index to the file; `Model.Names` has the
directory with the names themselves, and the two are proved to agree. A file has the bytes
a reader finds and the bytes its last completed flush put on stable storage. Each operation
on the directory takes the next reply of a list held with it, which says whether the
operation succeeds, fails, or is where the process stops; a write that does not succeed may
have written part of its bytes.
-/

set_option autoImplicit false

namespace Hadar.Wal

open Hadar.Lib Hadar.Storage Hadar.Mvcc Std

structure File where
  data : Bytes
  flushed : Bytes
  deriving DecidableEq

/-- How one operation on the directory turns out. `cut` is how many of its bytes a write
leaves behind. -/
inductive Reply where
  | done
  | refused (cut : ℕ)
  | crash (cut : ℕ)
  deriving DecidableEq, Repr

/-- A log directory, and how the coming operations on it turn out; operations past the end
of the list succeed. -/
structure Disk where
  files : ExtTreeMap ℕ File
  replies : List Reply

def Disk.empty : Disk := ⟨∅, []⟩

variable {α : Type}

def nextReply : Prog Disk Error Reply := do
  let d ← get
  match d.replies with
  | [] => pure .done
  | r :: rest =>
    set { d with replies := rest }
    pure r

/-- An operation that takes effect only when it succeeds. -/
def operation (context : String) (effect : Prog Disk Error α) : Prog Disk Error α := do
  match ← nextReply with
  | .done => effect
  | .refused _ => Prog.fail (.io context)
  | .crash _ => Prog.crashing

/-- Changes a file in place. -/
def Disk.update (d : Disk) (sink : ℕ) (f : File → File) : Disk :=
  match d.files[sink]? with
  | none => d
  | some file => { d with files := d.files.insert sink (f file) }

def createDir : Prog Disk Error Unit := operation "creating the log directory" (pure ())

/-- `Media::create`: fails if the file already exists.
SOURCE: crates/wal/src/io.rs:25-33 -/
def createFile (first : ℕ) : Prog Disk Error Unit :=
  operation "creating a segment" do
    let d ← get
    if d.files.contains first then Prog.fail (.io "creating a segment")
    else set { d with files := d.files.insert first ⟨[], []⟩ }

/-- `Media::append`: the file has to exist. -/
def openFile (first : ℕ) : Prog Disk Error Unit :=
  operation "reopening a segment" do
    let d ← get
    if d.files.contains first then pure () else Prog.fail (.io "reopening a segment")

/-- SOURCE: crates/wal/src/io.rs:69-75 -/
def writeAll (sink : ℕ) (bytes : Bytes) : Prog Disk Error Unit := do
  match ← nextReply with
  | .done => modify (·.update sink fun f => { f with data := f.data ++ bytes })
  | .refused cut =>
    modify (·.update sink fun f => { f with data := f.data ++ bytes.take cut })
    Prog.fail (.io "appending to a segment")
  | .crash cut =>
    modify (·.update sink fun f => { f with data := f.data ++ bytes.take cut })
    Prog.crashing

def syncData (sink : ℕ) : Prog Disk Error Unit :=
  operation "flushing a segment to disk"
    (modify (·.update sink fun f => { f with flushed := f.data }))

/-- `File::set_len`: drops what lies past `len`, or fills up to it with zeros. -/
def setLen (bytes : Bytes) (len : ℕ) : Bytes :=
  bytes.take len ++ List.replicate (len - bytes.length) 0

/-- Discards everything past `len` and flushes the change.
SOURCE: crates/wal/src/io.rs:95-101 -/
def truncate (sink len : ℕ) : Prog Disk Error Unit := do
  operation "truncating a partial record"
    (modify (·.update sink fun f => { f with data := setLen f.data len }))
  operation "flushing a truncated segment"
    (modify (·.update sink fun f => { f with flushed := f.data }))

/-- The segments of the directory, ordered by their first record.
SOURCE: crates/wal/src/segment.rs:145-167 -/
def list : Prog Disk Error (List ℕ) :=
  operation "listing segments" do
    let d ← get
    pure (d.files.toList.map (·.1))

/-- SOURCE: crates/wal/src/segment.rs:174-182 -/
def readSegment (first : ℕ) : Prog Disk Error Bytes := do
  operation "opening a segment" (pure ())
  operation "reading a segment" do
    let d ← get
    match d.files[first]? with
    | none => Prog.fail (.io "opening a segment")
    | some file => pure file.data

def removeSegment (first : ℕ) : Prog Disk Error Unit :=
  operation "removing a compacted segment"
    (modify fun d => { d with files := d.files.erase first })

/-! ## The append target -/

/-- SOURCE: crates/wal/src/segment.rs:23-33 -/
structure Segment where
  sink : ℕ
  written : ℕ
  limit : ℕ
  poisoned : Bool
  deriving DecidableEq

/-- A segment together with the directory its file is in. -/
structure Target where
  segment : Segment
  disk : Disk

def onDisk (p : Prog Disk Error α) : Prog Target Error α :=
  Prog.zoom (·.disk) (fun d t => { t with disk := d }) id p

namespace Segment

/-- Creates a segment whose first record will be numbered one past `first`.
SOURCE: crates/wal/src/segment.rs:41-51 -/
def create (first limit : ℕ) : Prog Disk Error Segment := do
  createFile first
  pure ⟨first, 0, limit, false⟩

/-- Reopens an existing segment, discarding anything past `valid`.
SOURCE: crates/wal/src/segment.rs:63-79 -/
def reopen (first valid limit : ℕ) : Prog Disk Error Segment := do
  openFile first
  truncate first valid
  pure ⟨first, valid, limit, false⟩

def rollOver (segment : Segment) (first : ℕ) : Prog Disk Error Segment :=
  create first segment.limit

/-- Appends `bytes` and flushes them. A partial append is rewound, and a rewind that fails
poisons the segment.
SOURCE: crates/wal/src/segment.rs:99-129 -/
def append (bytes : Bytes) : Prog Target Error Unit := do
  let t ← get
  if t.segment.poisoned then
    Prog.fail (.io "appending to a segment a failed rewind left unreadable")
  else
    match ← (onDisk (writeAll t.segment.sink bytes)).attempt with
    | .error error =>
      match ← (onDisk (truncate t.segment.sink t.segment.written)).attempt with
      | .error rewind =>
        modify fun t => { t with segment := { t.segment with poisoned := true } }
        Prog.fail rewind
      | .ok () => Prog.fail error
    | .ok () =>
      -- the bytes are in the file whether or not the flush succeeds
      modify fun t =>
        { t with segment := { t.segment with written := t.segment.written + bytes.length } }
      onDisk (syncData t.segment.sink)

def isFull (segment : Segment) : Bool := segment.written ≥ segment.limit

end Segment

end Hadar.Wal
