import Hadar.Model.Index

/-!
# What a compaction of the index divides

The revisions an index holds, of one key and of all keys, and the indexes that puts,
tombstones and compactions lead to: every event has a revision past all earlier ones, and no
compaction lies before an earlier one.
-/

set_option autoImplicit false

namespace Hadar.Mvcc

open Hadar.Storage

namespace Index

/-- A key's revisions, oldest first; none where the index does not know the key. -/
def revisionsOf (index : Index) (key : Bytes) : List Revision :=
  ((index.keys[key]?).getD ⟨[]⟩).generations.flatMap (·.revs)

/-- Every revision of an index, key by key. -/
def revisions (index : Index) : List Revision :=
  index.keys.toList.flatMap fun p => p.2.generations.flatMap (·.revs)

/-- What a read of one key at `at_` finds. -/
def readKey (index : Index) (key : Bytes) (at_ : ℕ) : Option Found :=
  (index.keys[key]?).bind (·.read at_)

/-- The indexes that runs lead to whose revisions are all numbered below `next`, and whose last
compaction was at `watermark`. -/
inductive Grown : Index → ℕ → ℕ → Prop where
  | empty : Grown Index.empty 0 0
  | put {index : Index} {next watermark : ℕ} (before : Grown index next watermark) (key : Bytes)
    (revision : Revision) (later : next ≤ revision.main) :
    Grown (index.put key revision) (revision.main + 1) watermark
  | tombstone {index : Index} {next watermark : ℕ} (before : Grown index next watermark)
    (key : Bytes) (revision : Revision) (later : next ≤ revision.main) :
    Grown (index.tombstone key revision).2 (revision.main + 1) watermark
  | compact {index : Index} {next watermark : ℕ} (before : Grown index next watermark) (at_ : ℕ)
    (later : watermark ≤ at_) : Grown (index.compact at_).1 next at_

/-- Compacting at `a` and then at `b` divides the revisions of an index as compacting at `b`
does. -/
structure Divides (index : Index) (a b : ℕ) : Prop where
  index_eq : ((index.compact a).1.compact b).1 = (index.compact b).1
  dropped : ((index.compact a).2 ++ ((index.compact a).1.compact b).2).Perm (index.compact b).2
  partition : ((index.compact b).2 ++ (index.compact b).1.revisions).Perm index.revisions
  nodup : index.revisions.Nodup
  visible : ∀ key, ((index.compact b).1.revisionsOf key).filter (fun r => r.main ≤ b) =
    ((index.readKey key b).map (·.modified)).toList
  forgotten : ∀ key, (index.compact b).1.revisionsOf key = [] →
    (index.compact b).1.keys[key]? = none
  again : ((index.compact b).1.compact b).2 = []

end Index

end Hadar.Mvcc
