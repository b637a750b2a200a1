import Hadar.Model.Assertions

/-!
# What an index is made of

The indexes that puts, tombstones and compactions lead to, in whatever order the compactions
come, and what is to hold of every history in one of them: how its generations lie to one another
and which of their revisions delete. And what this is for: no assertion of the index fails and no
subtraction in it underflows.
-/

set_option autoImplicit false

namespace Hadar.Mvcc

open Hadar.Storage

/-- The order of revisions, by `main` and then by `sub`, as derived.
SOURCE: crates/mvcc/src/revision.rs:11-14 -/
def Revision.Le (a b : Revision) : Prop := a.main < b.main ∨ a.main = b.main ∧ a.sub ≤ b.sub

/-- The indexes that runs lead to whose revisions are all numbered below `next`, with the
tombstones there were, each with its key. -/
inductive Index.Maintained : Index → ℕ → List (Bytes × Revision) → Prop where
  | empty : Maintained Index.empty 0 []
  | put {index : Index} {next : ℕ} {deleted : List (Bytes × Revision)}
    (before : Maintained index next deleted) (key : Bytes) (revision : Revision)
    (later : next ≤ revision.main) :
    Maintained (index.put key revision) (revision.main + 1) deleted
  | tombstone {index : Index} {next : ℕ} {deleted : List (Bytes × Revision)}
    (before : Maintained index next deleted) (key : Bytes) (revision : Revision)
    (later : next ≤ revision.main) :
    Maintained (index.tombstone key revision).2 (revision.main + 1) ((key, revision) :: deleted)
  | compact {index : Index} {next : ℕ} {deleted : List (Bytes × Revision)}
    (before : Maintained index next deleted) (at_ : ℕ) :
    Maintained (index.compact at_).1 next deleted

/-- A generation has revisions, ascending, none of them before it was created and no more than it
counts. A closed one has two at least. Its last revision is its deletion, and there is no other. -/
structure Generation.WellFormed (deletes : Revision → Prop) (g : Generation) : Prop where
  nonempty : g.revs ≠ []
  ascending : g.revs.Pairwise (·.main < ·.main)
  created : ∀ first ∈ g.revs.head?, g.created.Le first
  counted : g.revs.length ≤ g.ver
  ended : g.closed = true → 2 ≤ g.revs.length
  deletion : ∀ rev ∈ g.revs, deletes rev ↔ g.closed = true ∧ g.revs.getLast? = some rev

namespace History

/-- A history has generations, each of them before the next one, and all but the last closed. -/
structure WellFormed (deletes : Revision → Prop) (h : History) : Prop where
  nonempty : h.generations ≠ []
  each : ∀ g ∈ h.generations, g.WellFormed deletes
  apart : h.generations.Pairwise fun g g' => ∀ r ∈ g.revs, ∀ r' ∈ g'.revs, r.main < r'.main
  closed : ∀ g ∈ h.generations.dropLast, g.closed = true

/-- With its assertions the history does what it does without, whatever it is read or compacted
at, and what it locates is there and is no deletion. -/
structure Upholds (deletes : Revision → Prop) (h : History) : Prop where
  locate : ∀ at_, h.locateChecked at_ = some (h.locate at_)
  read : ∀ at_, h.readChecked at_ = some (h.read at_)
  compact : ∀ at_, h.compactChecked at_ = some (h.compact at_)
  alive : ∀ at_ genIndex revIndex, h.locate at_ = some (genIndex, revIndex) →
    ∃ g rev, h.generations[genIndex]? = some g ∧ g.revs[revIndex]? = some rev ∧ ¬ deletes rev

end History

end Hadar.Mvcc
