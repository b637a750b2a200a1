import Hadar.Model.Revision

/-!
# The in-memory index

`Index`, `History` and `Generation` (crates/mvcc/src/index.rs): each key's revisions, cut
into generations by its deletions, with the reads and the compaction over them.
-/

set_option autoImplicit false

namespace Hadar.Mvcc

open Hadar.Lib Hadar.Storage Std

/-- What a read at some revision found for a key. -/
structure Found where
  modified : Revision
  created : Revision
  version : ℕ
  deriving DecidableEq

/-- A key's life from creation to deletion.
SOURCE: crates/mvcc/src/index.rs:37-48 -/
structure Generation where
  created : Revision
  ver : ℕ
  revs : List Revision
  closed : Bool
  deriving DecidableEq

/-- One key's revision history. -/
structure History where
  generations : List Generation
  deriving DecidableEq

namespace History

/-- The body of `Index::put` on the key's entry.
SOURCE: crates/mvcc/src/index.rs:52-69 -/
def put (h : History) (revision : Revision) : History :=
  match h.generations.getLast? with
  | some g =>
    if !g.closed then
      ⟨h.generations.dropLast ++ [{ g with revs := g.revs ++ [revision], ver := g.ver + 1 }]⟩
    else ⟨h.generations ++ [⟨revision, 1, [revision], false⟩]⟩
  | none => ⟨h.generations ++ [⟨revision, 1, [revision], false⟩]⟩

/-- The body of `Index::tombstone` on the key's entry.
SOURCE: crates/mvcc/src/index.rs:75-93 -/
def tombstone (h : History) (revision : Revision) : Bool × History :=
  match h.generations.getLast? with
  | none => (false, h)
  | some g =>
    if g.closed then (false, h)
    else (true, ⟨h.generations.dropLast ++
      [{ g with revs := g.revs ++ [revision], ver := g.ver + 1, closed := true }]⟩)

/-- `partition_point`, on a slice the predicate partitions. -/
def partitionPoint (revs : List Revision) (at_ : ℕ) : ℕ :=
  (revs.takeWhile fun rev => rev.main ≤ at_).length

/-- The loop of `locate`, over the generations numbered and reversed. A generation without
revisions is skipped, as in a build without debug assertions.
SOURCE: crates/mvcc/src/index.rs:139-164 -/
def locateIn (at_ : ℕ) : List (Generation × ℕ) → Option (ℕ × ℕ)
  | [] => none
  | (generation, index) :: earlier =>
    match generation.revs.head?, generation.revs.getLast? with
    | some first, some last =>
      -- deleted at or before `at_`: the earlier generations are irrelevant
      if generation.closed ∧ last.main ≤ at_ then none
      else if first.main ≤ at_ then some (index, partitionPoint generation.revs at_ - 1)
      else locateIn at_ earlier
    | _, _ => locateIn at_ earlier

def locate (h : History) (at_ : ℕ) : Option (ℕ × ℕ) :=
  locateIn at_ h.generations.zipIdx.reverse

/-- `History::at`.
SOURCE: crates/mvcc/src/index.rs:166-180 -/
def read (h : History) (at_ : ℕ) : Option Found :=
  match h.locate at_ with
  | none => none
  | some (genIndex, revIndex) =>
    match h.generations[genIndex]? with
    | none => none
    | some generation =>
      match generation.revs[revIndex]? with
      | none => none
      | some modified =>
        let trailing := generation.revs.length - 1 - revIndex
        some ⟨modified, generation.created, generation.ver - trailing⟩

/-- Whether compaction at `at_` keeps the revision numbered `revIndex` of a generation:
what lies past `at_` stays, and so does the revision current there unless it deletes.
SOURCE: crates/mvcc/src/index.rs:190-201 -/
def keeps (current : Option (ℕ × ℕ)) (at_ genIndex : ℕ) (generation : Generation)
    (rev : Revision × ℕ) : Bool :=
  let isCurrent := current == some (genIndex, rev.2)
  let isTombstone := generation.closed && rev.2 == generation.revs.length - 1
  rev.1.main > at_ || (isCurrent && !isTombstone)

/-- `History::compact`: the trimmed history, and what it dropped in order.
SOURCE: crates/mvcc/src/index.rs:182-210 -/
def compact (h : History) (at_ : ℕ) : History × List Revision :=
  let current := h.locate at_
  let trimmed := h.generations.zipIdx.map fun (generation, genIndex) =>
    { generation with
      revs := (generation.revs.zipIdx.filter (keeps current at_ genIndex generation)).map (·.1) }
  let dropped := h.generations.zipIdx.flatMap fun (generation, genIndex) =>
    (generation.revs.zipIdx.filter (!keeps current at_ genIndex generation ·)).map (·.1)
  (⟨trimmed.filter (!·.revs.isEmpty)⟩, dropped)

end History

/-- In-memory map from key to revision history: its entries, and whether the map has a root, which
it gets with the first entry and keeps when the last one goes. -/
structure Index where
  keys : ExtTreeMap Bytes History
  rooted : Bool
  unrooted : rooted = false → keys = ∅

namespace Index

/-- `Index::default` -/
def empty : Index := ⟨∅, false, fun _ => rfl⟩

def put (index : Index) (key : Bytes) (revision : Revision) : Index where
  keys := index.keys.insert key (((index.keys[key]?).getD ⟨[]⟩).put revision)
  rooted := true
  unrooted := Bool.noConfusion

/-- Returns `false`, and records nothing, if the key does not currently exist. -/
def tombstone (index : Index) (key : Bytes) (revision : Revision) : Bool × Index :=
  match index.keys[key]? with
  | none => (false, index)
  | some history =>
    let (recorded, history) := history.tombstone revision
    -- a map that has the entry has a root
    (recorded, ⟨index.keys.insert key history, true, Bool.noConfusion⟩)

/-- Whether `BTreeMap::range` panics on the map, given these bounds. -/
def refuses (index : Index) (bounds : Bounds) : Bool := index.rooted && bounds.panics

/-- Every key within `bounds` visible at `at_`, ascending.
SOURCE: crates/mvcc/src/index.rs:96-104 -/
def range (index : Index) (bounds : Bounds) (at_ : ℕ) : List (Bytes × Found) :=
  (entriesIn index.keys bounds).filterMap fun (key, history) =>
    (history.read at_).map (key, ·)

/-- `Index::compact`: histories left without generations are forgotten.
SOURCE: crates/mvcc/src/index.rs:115-121 -/
def compact (index : Index) (at_ : ℕ) : Index × List Revision :=
  (⟨index.keys.filterMap fun _ history =>
      let history := (history.compact at_).1
      if history.generations.isEmpty then none else some history,
    index.rooted, fun hnone => by rw [index.unrooted hnone]; rfl⟩,
    index.keys.toList.flatMap fun (_, history) => (history.compact at_).2)

end Index

end Hadar.Mvcc
