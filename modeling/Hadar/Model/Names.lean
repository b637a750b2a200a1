import Hadar.Lib.Decimal
import Hadar.Model.Counting
import Hadar.Model.Writer

/-!
# Segment files under their names

The directory as the program sees it: files under names, of which some are segments
(crates/wal/src/segment.rs). A segment's name is the index of the record before its first one, in
fixed-width decimal, and an extension; `list` reads the names of a directory back. Over them are
the segments, the recovery, the compaction and the writer once more, with a path wherever the
source has one (crates/wal/src/wal.rs, crates/wal/src/writer.rs).

The order in which `read_dir` gives the entries and the order that an unstable sort gives to equal
keys are not promised, and are a parameter.
-/

set_option autoImplicit false

namespace Hadar.Wal.Named

open Hadar.Lib Hadar.Storage Hadar.Mvcc Std

/-- The name of a file in the directory, as bytes. -/
abbrev Name := Bytes

/-! ## Names -/

/-- The byte of a dot. -/
def dot : UInt8 := 46

/-- The byte of a plus sign. -/
def plus : UInt8 := 43

/-- Extension marking a file as a log segment: `wal`. -/
def walExtension : Bytes := [119, 97, 108]

/-- `format!("{first:020}.{EXTENSION}")`; a `u64` has no more than 20 digits.
SOURCE: crates/wal/src/segment.rs:42 -/
@[irreducible]
def fileName (first : ℕ) : Name := toDecimal 20 first ++ dot :: walExtension

/-- `rsplit_file_at_dot`, which `Path::extension` and `Path::file_stem` share: what stands before
and after the last dot. A dot in front is part of what it stands in front of. -/
def splitAtDot (name : Name) : Option Name × Option Name :=
  if name = [dot, dot] then (some name, none)
  else
    match name.reverse.dropWhile (· != dot) with
    | [] => (none, some name)
    | [_] => (some name, none)
    | _ :: before => (some before.reverse, some (name.reverse.takeWhile (· != dot)).reverse)

/-- `Path::extension` -/
def extension (name : Name) : Option Name :=
  match splitAtDot name with
  | (some _, after) => after
  | (none, _) => none

/-- `Path::file_stem` -/
def fileStem (name : Name) : Option Name :=
  match splitAtDot name with
  | (some before, _) => some before
  | (none, after) => after

/-- `u64::from_str`: digits, which a plus sign may precede. -/
def parseU64 (text : Bytes) : Option ℕ :=
  match text with
  | [] => none
  | b :: digits =>
    if b = plus then if digits = [] then none else ofDecimal (u64Max + 1) digits
    else ofDecimal (u64Max + 1) text

/-- The index that the stem of a name is. Where a stem is not UTF-8, it is not a number either.
SOURCE: crates/wal/src/segment.rs:154-157 -/
def indexOf (name : Name) : Option ℕ := (fileStem name).bind parseU64

/-! ## The directory -/

/-- A directory, and how the coming operations on it turn out. -/
structure Folder where
  files : ExtTreeMap Name File
  replies : List Reply

/-- What the platform leaves open. -/
class Listing where
  /-- The entries of a directory, in the order of `read_dir`. -/
  entries : Folder → List Name
  perm_entries : ∀ f, (entries f).Perm f.files.keys
  /-- `sort_unstable_by_key` on the index. -/
  sortByKey : List (ℕ × Name) → List (ℕ × Name)
  perm_sortByKey : ∀ l, (sortByKey l).Perm l
  sorted_sortByKey : ∀ l, (sortByKey l).Pairwise fun p q => p.1 ≤ q.1

variable {α : Type}

def nextReply : Prog Folder Error Reply := do
  let f ← get
  match f.replies with
  | [] => pure .done
  | r :: rest =>
    set { f with replies := rest }
    pure r

/-- An operation that takes effect only when it succeeds. -/
def operation (context : String) (effect : Prog Folder Error α) : Prog Folder Error α := do
  match ← nextReply with
  | .done => effect
  | .refused _ => Prog.fail (.io context)
  | .crash _ => Prog.crashing

/-- Changes a file in place. -/
def Folder.update (f : Folder) (path : Name) (change : File → File) : Folder :=
  match f.files[path]? with
  | none => f
  | some file => { f with files := f.files.insert path (change file) }

def createDir : Prog Folder Error Unit := operation "creating the log directory" (pure ())

/-- `Media::create`: fails if the file already exists.
SOURCE: crates/wal/src/io.rs:25-33 -/
def createFile (path : Name) : Prog Folder Error Unit :=
  operation "creating a segment" do
    let f ← get
    if f.files.contains path then Prog.fail (.io "creating a segment")
    else set { f with files := f.files.insert path ⟨[], []⟩ }

/-- `Media::append`: the file has to exist.
SOURCE: crates/wal/src/io.rs:36-43 -/
def openFile (path : Name) : Prog Folder Error Unit :=
  operation "reopening a segment" do
    let f ← get
    if f.files.contains path then pure () else Prog.fail (.io "reopening a segment")

/-- SOURCE: crates/wal/src/io.rs:69-75, 104-107 -/
def writeAll (sink : Name) (bytes : Bytes) : Prog Folder Error Unit := do
  match ← nextReply with
  | .done => modify (·.update sink fun f => { f with data := f.data ++ bytes })
  | .refused cut =>
    modify (·.update sink fun f => { f with data := f.data ++ bytes.take cut })
    Prog.fail (.io "appending to a segment")
  | .crash cut =>
    modify (·.update sink fun f => { f with data := f.data ++ bytes.take cut })
    Prog.crashing

def syncData (sink : Name) : Prog Folder Error Unit :=
  operation "flushing a segment to disk"
    (modify (·.update sink fun f => { f with flushed := f.data }))

/-- SOURCE: crates/wal/src/io.rs:114-120 -/
def truncate (sink : Name) (len : ℕ) : Prog Folder Error Unit := do
  operation "truncating a partial record"
    (modify (·.update sink fun f => { f with data := setLen f.data len }))
  operation "flushing a truncated segment"
    (modify (·.update sink fun f => { f with flushed := f.data }))

/-- The loop of `list` over the entries: files without the extension are passed over, and one that
has it must be named by a record index.
SOURCE: crates/wal/src/segment.rs:148-163 -/
def collect : List Name → Except Error (List (ℕ × Name))
  | [] => .ok []
  | path :: rest =>
    if extension path ≠ some walExtension then collect rest
    else
      match indexOf path with
      | none => .error (.corrupt "segment file name is not a record index")
      | some first => (collect rest).map ((first, path) :: ·)

/-- The segment files in the directory, ordered by their first record. Where the listing is
refused, some of the entries may have been read already.
SOURCE: crates/wal/src/segment.rs:145-167 -/
def list [Listing] : Prog Folder Error (List (ℕ × Name)) := do
  let f ← get
  match ← nextReply with
  | .done =>
    match collect (Listing.entries f) with
    | .error e => Prog.fail e
    | .ok segments => pure (Listing.sortByKey segments)
  | .refused cut =>
    match collect ((Listing.entries f).take cut) with
    | .error e => Prog.fail e
    | .ok _ => Prog.fail (.io "listing segments")
  | .crash _ => Prog.crashing

/-- SOURCE: crates/wal/src/segment.rs:174-182 -/
def readSegment (path : Name) : Prog Folder Error Bytes := do
  operation "opening a segment" (pure ())
  operation "reading a segment" do
    let f ← get
    match f.files[path]? with
    | none => Prog.fail (.io "opening a segment")
    | some file => pure file.data

/-- SOURCE: crates/wal/src/segment.rs:189-191 -/
def removeSegment (path : Name) : Prog Folder Error Unit :=
  operation "removing a compacted segment"
    (modify fun f => { f with files := f.files.erase path })

/-! ## The append target -/

/-- SOURCE: crates/wal/src/segment.rs:23-33 -/
structure Segment where
  sink : Name
  written : ℕ
  limit : ℕ
  poisoned : Bool
  deriving DecidableEq

/-- A segment together with the directory its file is in. -/
structure Target where
  segment : Segment
  folder : Folder

def onFolder (p : Prog Folder Error α) : Prog Target Error α :=
  Prog.zoom (·.folder) (fun f t => { t with folder := f }) id p

namespace Segment

/-- Creates a segment whose first record will be numbered one past `first`.
SOURCE: crates/wal/src/segment.rs:41-51 -/
def create (first limit : ℕ) : Prog Folder Error Segment := do
  let path := fileName first
  createFile path
  pure ⟨path, 0, limit, false⟩

/-- SOURCE: crates/wal/src/segment.rs:63-79 -/
def reopen (path : Name) (valid limit : ℕ) : Prog Folder Error Segment := do
  openFile path
  truncate path valid
  pure ⟨path, valid, limit, false⟩

def rollOver (segment : Segment) (first : ℕ) : Prog Folder Error Segment :=
  create first segment.limit

/-- SOURCE: crates/wal/src/segment.rs:99-129 -/
def append (bytes : Bytes) : Prog Target Error Unit := do
  let t ← get
  if t.segment.poisoned then
    Prog.fail (.io "appending to a segment a failed rewind left unreadable")
  else
    match ← (onFolder (writeAll t.segment.sink bytes)).attempt with
    | .error error =>
      match ← (onFolder (truncate t.segment.sink t.segment.written)).attempt with
      | .error rewind =>
        modify fun t => { t with segment := { t.segment with poisoned := true } }
        Prog.fail rewind
      | .ok () => Prog.fail error
    | .ok () =>
      modify fun t =>
        { t with segment := { t.segment with written := t.segment.written + bytes.length } }
      onFolder (syncData t.segment.sink)

def isFull (segment : Segment) : Bool := segment.written ≥ segment.limit

end Segment

/-! ## Recovery and compaction -/

/-- The directory of the log and the store it protects. -/
structure Host where
  folder : Folder
  store : KvStore

def Host.onFolder (p : Prog Folder Error α) : Prog Host Error α :=
  Prog.zoom (·.folder) (fun f h => { h with folder := f }) id p

def Host.onStore (p : Prog KvStore Mvcc.Error α) : Prog Host Error α :=
  Prog.zoom (·.store) (fun s h => { h with store := s }) (fun e => .apply e.display) p

/-- SOURCE: crates/wal/src/wal.rs:190-194 -/
structure Tail where
  path : Name
  valid : ℕ
  deriving DecidableEq, Repr

section Recovery

variable [Crc32]

/-- The segment loop of `recover`.
SOURCE: crates/wal/src/wal.rs:205-242 -/
def replaySegments (applied last : ℕ) : List ((ℕ × Name) × ℕ) → ℕ → List Mutation → Option Tail →
    Prog Folder Error (ℕ × List Mutation × Option Tail)
  | [], seen, pending, tail => pure (seen, pending, tail)
  | ((first, path), index) :: rest, _, pending, _ => do
    let bytes ← readSegment path
    match replayRecords applied (index == last) bytes first 0 pending with
    | .error e => Prog.fail e
    | .ok (seen, valid, pending) =>
      replaySegments applied last rest seen pending (some ⟨path, valid⟩)

variable [Listing]

/-- SOURCE: crates/wal/src/wal.rs:197-257 -/
def recover : Prog Host Error (Option Tail) := do
  let h ← get
  let applied := h.store.state.applied
  let segments ← Host.onFolder list
  let (seen, pending, tail) ←
    Host.onFolder (replaySegments applied (segments.length - 1) segments.zipIdx 0 [] none)
  if seen < applied then
    Prog.fail (.corrupt "log holds fewer records than the store has applied")
  else if pending.isEmpty then pure tail
  else do
    let _ ← Host.onStore (Mvcc.apply pending seen)
    pure tail

end Recovery

/-- The loop of `compact` over neighbouring segments.
SOURCE: crates/wal/src/wal.rs:273-282 -/
def removeCovered (durable : ℕ) : List (ℕ × Name) → ℕ → Prog Folder Error ℕ
  | (_, path) :: (nextFirst, next) :: rest, removed =>
    if nextFirst > durable then pure removed
    else do
      removeSegment path
      removeCovered durable ((nextFirst, next) :: rest) (removed + 1)
  | _, removed => pure removed

variable [Listing]

/-- SOURCE: crates/wal/src/wal.rs:265-285 -/
def compact : Prog Host Error ℕ := do
  let durable ← Host.onStore checkpoint
  let segments ← Host.onFolder list
  Host.onFolder (removeCovered durable segments 0)

variable [Crc32]

/-- SOURCE: crates/wal/src/wal.rs:113-139 -/
def openWith (options : Options) : Prog Host Error Segment := do
  Host.onFolder createDir
  match ← recover with
  | some tail => Host.onFolder (Segment.reopen tail.path tail.valid options.segmentLimit)
  | none => Host.onFolder (Segment.create 0 options.segmentLimit)

/-! ## The writer -/

/-- What the writer thread works on. -/
structure Writer where
  host : Host
  segment : Segment
  appended : ℕ

namespace Writer

def onHost (p : Prog Host Error α) : Prog Writer Error α :=
  Prog.zoom (·.host) (fun h w => { w with host := h }) id p

/-- Runs a method of the active segment. -/
def onSegment (p : Prog Target Error α) : Prog Writer Error α :=
  Prog.zoom (fun w => ⟨w.segment, w.host.folder⟩)
    (fun t w => { w with segment := t.segment, host := { w.host with folder := t.folder } }) id p

end Writer

/-- SOURCE: crates/wal/src/writer.rs:193-196 -/
def rollIfFull : Prog Writer Error Unit := do
  let w ← get
  if w.segment.isFull then
    let next ← Writer.onHost (Host.onFolder (w.segment.rollOver w.host.store.state.applied))
    modify fun w => { w with segment := next }
  else pure ()

/-- SOURCE: crates/wal/src/writer.rs:175-208 -/
def retire (batch : List Request) : Prog Writer Error (List Revision) := do
  match encodeBatch (mutationsOf batch) [] with
  | .error e => Prog.fail e
  | .ok bytes =>
    rollIfFull
    Writer.onSegment (Segment.append bytes)
    modify fun w => { w with appended := w.appended + bytes.length }
    let w ← get
    let applied := w.host.store.state.applied + (mutationsOf batch).length
    Writer.onHost (Host.onStore (Mvcc.apply (mutationsOf batch) applied))

/-- One turn of `run`, once the batch is collected.
SOURCE: crates/wal/src/writer.rs:154-170 -/
def turn (checkpointInterval : ℕ) (batch : List Request) (requested : Bool) :
    Prog Writer Error Answers := do
  let writes ← if batch.isEmpty then pure [] else do
    let outcome ← (retire batch).attempt
    pure (answer batch outcome)
  if requested then
    let outcome ← (Writer.onHost compact).attempt
    if outcome.isOk then modify fun w => { w with appended := 0 }
    pure ⟨writes, some outcome⟩
  else
    let w ← get
    if w.appended ≥ checkpointInterval then
      let outcome ← (Writer.onHost compact).attempt
      if outcome.isOk then modify fun w => { w with appended := 0 }
      pure ⟨writes, none⟩
    else pure ⟨writes, none⟩

end Hadar.Wal.Named
