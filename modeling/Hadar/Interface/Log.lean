import Hadar.Model.Writer

/-!
# What a log directory holds

A segment holds the complete records it begins with and perhaps bytes past them that are
none. The name of a segment numbers its records: the first record of a segment named
`first` is numbered one past `first`, and those after it follow in file order.
-/

set_option autoImplicit false

namespace Hadar.Wal

open Hadar.Lib Hadar.Storage Hadar.Mvcc

/-- The segments of a directory in ascending order, each the index it is named by and the
bytes a reader finds. -/
def Disk.segments (d : Disk) : List (ℕ × Bytes) := d.files.toList.map fun p => (p.1, p.2.data)

variable [Crc32]

/-! ## Records as bytes -/

/-- The frame around a payload. -/
def frameOf (payload : Bytes) : Bytes :=
  checksum (toBE 4 payload.length) payload ++ (toBE 4 payload.length ++ payload)

/-- The record of a mutation. -/
def recordOf (mutation : Mutation) : Bytes := frameOf (payloadOf mutation)

/-- The mutation's record fits a frame. -/
def Encodable (mutation : Mutation) : Prop := (payloadOf mutation).length ≤ maxPayloadLen

instance (mutation : Mutation) : Decidable (Encodable mutation) :=
  inferInstanceAs (Decidable (_ ≤ _))

/-- The records of some mutations, end to end. -/
def recordsOf (mutations : List Mutation) : Bytes := mutations.flatMap recordOf

/-- The segments of records that were sealed, one a list, the first of them named `start`. -/
def sealedFrom (start : ℕ) : List (List Mutation) → List (ℕ × Bytes)
  | [] => []
  | mutations :: rest =>
    (start, recordsOf mutations) :: sealedFrom (start + mutations.length) rest

/-- The segments of a log whose oldest record is numbered one past `start`: those that were
sealed, and the active one, which may go on with bytes that are no record. -/
def laidOut (start : ℕ) (older : List (List Mutation)) (active : List Mutation) (torn : Bytes) :
    List (ℕ × Bytes) :=
  sealedFrom start older ++ [(start + older.flatten.length, recordsOf active ++ torn)]

/-! ## Bytes as records -/

/-- The complete records the bytes begin with, and the bytes past them. -/
def scanned (bytes : Bytes) : List Mutation × Bytes :=
  match _h : decode bytes with
  | .ok (mutation, width) =>
    let rest := scanned (bytes.drop width)
    (mutation :: rest.1, rest.2)
  | .error _ => ([], bytes)
  termination_by bytes.length
  decreasing_by
    have := decode_width ‹_›
    simp only [List.length_drop]
    omega

/-- The complete records of a segment. -/
def complete (bytes : Bytes) : List Mutation := (scanned bytes).1

/-- What follows the last complete record of a segment. -/
def leftover (bytes : Bytes) : Bytes := (scanned bytes).2

/-- The number of the last record of a log: of the last complete record of its last segment,
or the index that segment is named by when it holds none. -/
def logEnd (segments : List (ℕ × Bytes)) : ℕ :=
  match segments.getLast? with
  | none => 0
  | some (first, bytes) => first + (complete bytes).length

/-- Records with their numbers, the first of them one past `first`. -/
def numberedFrom (first : ℕ) (mutations : List Mutation) : List (ℕ × Mutation) :=
  mutations.zipIdx.map fun q => (first + 1 + q.2, q.1)

/-- The records of a log with their numbers, in file order. -/
def numbered (segments : List (ℕ × Bytes)) : List (ℕ × Mutation) :=
  segments.flatMap fun p => numberedFrom p.1 (complete p.2)

/-- Every segment but the last one ends with a record, and the last one ends there or in the
middle of one. -/
def Readable : List (ℕ × Bytes) → Prop
  | [] => True
  | [(_, bytes)] => decode (leftover bytes) = .error .truncated
  | (_, bytes) :: next :: rest => leftover bytes = [] ∧ Readable (next :: rest)

/-- The coming operations on the directory do not make an append leave a record behind when it
fails: no flush is refused after the bytes were written, and no rewind is refused after a whole
record was. -/
def Harmless (mutations : List Mutation) (replies : List Reply) : Prop :=
  match replies.headD .done, replies.tail.headD .done with
  | .done, .refused _ => mutations = []
  | .refused cut, .refused _ => ∀ m ∈ mutations.head?, cut < (recordOf m).length
  | _, _ => True

/-! ## Recovery over a log -/

/-- The store went from `s` to `s'` by applying the mutations in one batch that ends at
position `upto`, or by nothing at all where there are none. -/
def AppliedTo (mutations : List Mutation) (upto : ℕ) (s s' : KvStore) : Prop :=
  if mutations = [] then s' = s
  else ∃ revisions, (Mvcc.apply mutations upto).exec s = (.ok revisions, s')

/-- The records of a log past a position and up to the end of it. -/
def unapplied (segments : List (ℕ × Bytes)) (applied : ℕ) : List (ℕ × Mutation) :=
  (numbered segments).filter fun p => applied < p.1 ∧ p.1 ≤ logEnd segments

/-- From `h` to `h'` the store was given the records past its position up to the end of the
log, each once and in order, and its position is the end of the log. -/
structure ReplaysExactly (h h' : Host) : Prop where
  numbers : (unapplied h.disk.segments h.store.state.applied).map (·.1) =
    List.range' (h.store.state.applied + 1) (logEnd h.disk.segments - h.store.state.applied)
  applied : AppliedTo ((unapplied h.disk.segments h.store.state.applied).map (·.2))
    (logEnd h.disk.segments) h.store h'.store
  position : h'.store.state.applied = logEnd h.disk.segments

/-- The number of a segment's last record. -/
def segmentEnd (p : ℕ × Bytes) : ℕ := p.1 + (complete p.2).length

/-- The segments that hold a record numbered past a position. -/
def needed (segments : List (ℕ × Bytes)) (applied : ℕ) : List (ℕ × Bytes) :=
  segments.filter fun p => complete p.2 ≠ [] ∧ applied < segmentEnd p

/-- The segments that hold a record past the position follow one another: the first of them
begins at or below the position, each later one begins where the one before it ends, and the
last segment of the log ends where they end, or at the position when there are none. -/
structure GapFree (segments : List (ℕ × Bytes)) (applied : ℕ) : Prop where
  begins : ∀ p ∈ (needed segments applied).head?, p.1 ≤ applied
  joined : (needed segments applied).IsChain fun p q => segmentEnd p = q.1
  ends : logEnd segments = ((needed segments applied).getLast?.map segmentEnd).getD applied

end Hadar.Wal
