import Hadar.Interface.Crash

/-!
# What a segment is to hold

A book is kept beside a writer: the bytes its segment was opened with, the bytes of every
append whose write succeeded, and the segments that were left for a new one, with what each of
them is to hold from then on. Which appends these are is read off the operations alone.
-/

set_option autoImplicit false

namespace Hadar.Wal

open Hadar.Lib Hadar.Lib.Prog Hadar.Storage Hadar.Mvcc

/-- What the active segment is to hold, and what those before it are. -/
structure Book where
  kept : Bytes
  appends : List Bytes
  before : List (ℕ × Bytes)

/-- The bytes the active segment is to hold. -/
def Book.bytes (book : Book) : Bytes := book.kept ++ book.appends.flatten

variable [Crc32]

/-- The bytes that retiring a batch writes in full: the batch can be encoded, the segment it goes to
is there and is not poisoned, and the write succeeds. -/
def writtenBy (w : Writer) (batch : List Request) : List Bytes :=
  match encodeBatch (mutationsOf batch) [] with
  | .error _ => []
  | .ok bytes =>
    match rollIfFull.exec w with
    | (.error _, _) => []
    | (.ok _, rolled) =>
      if rolled.segment.poisoned = false ∧ rolled.host.disk.replies.headD .done = .done then [bytes]
      else []

/-- The book once a batch was retired from `w` to `w'`: a segment that was left is closed, and a new
one begins empty. -/
def Book.after (book : Book) (w w' : Writer) (batch : List Request) : Book :=
  if w'.segment.sink = w.segment.sink then
    { book with appends := book.appends ++ writtenBy w batch }
  else ⟨[], writtenBy w batch, book.before ++ [(w.segment.sink, book.bytes)]⟩

/-- A writer with a segment just created, or reopened at `valid`, over any directory and any store,
with the book that begins there. -/
inductive Begun : Writer → Book → Prop where
  | created {d d' : Disk} {segment : Segment} (first limit appended : ℕ) (store : KvStore)
    (positive : 1 ≤ limit) (ran : (Segment.create first limit).exec d = (.ok segment, d')) :
    Begun ⟨⟨d', store⟩, segment, appended⟩ ⟨[], [], []⟩
  | reopened {d d' : Disk} {segment : Segment} {file : File} (first valid limit appended : ℕ)
    (store : KvStore) (positive : 1 ≤ limit) (held : d.files[first]? = some file)
    (ran : (Segment.reopen first valid limit).exec d = (.ok segment, d')) :
    Begun ⟨⟨d', store⟩, segment, appended⟩ ⟨setLen file.data valid, [], []⟩

/-- The writers that retiring one batch after another leads to, however the operations turn out
short of a crash, with their books. -/
inductive Booked : Writer → Book → Prop where
  | begun {w : Writer} {book : Book} (start : Begun w book) : Booked w book
  | retired {w w' : Writer} {book : Book} {outcome : Except Error (List Revision)}
    (before : Booked w book) (batch : List Request) (replies : List Reply)
    (calls : List Storage.Reply)
    (ran : (retire batch).attempt.exec (w.given replies calls) = (.ok outcome, w')) :
    Booked w' (book.after (w.given replies calls) w' batch)

/-- The writer's segment is as its book says. Short of being poisoned, its file holds the book's
bytes and nothing else, and `written` counts them. Poisoned, its file still begins with them and
`written` still counts them, and no batch changes the file or goes to another segment, however
its operations turn out. The segments that were left hold what they were left with. -/
structure Accurate (w : Writer) (book : Book) : Prop where
  sound : w.segment.poisoned = false → ∃ file, w.host.disk.files[w.segment.sink]? = some file ∧
    file.data = book.bytes ∧ w.segment.written = file.data.length
  poisoned : w.segment.poisoned = true → ∃ file, w.host.disk.files[w.segment.sink]? = some file ∧
    file.data.take w.segment.written = book.bytes ∧ w.segment.written = book.bytes.length ∧
    ∀ batch replies calls,
      ((retire batch).exec (w.given replies calls)).2.segment = w.segment ∧
      ((retire batch).exec (w.given replies calls)).2.host.disk.files = w.host.disk.files
  before : ∀ p ∈ book.before, ∃ file, w.host.disk.files[p.1]? = some file ∧ file.data = p.2

end Hadar.Wal
