import Hadar.Interface.Serving
import Hadar.Lib.OrderedMap
import Hadar.Model.Mem

/-!
# Ranges from a start to an end

What a range between two keys is to answer with, in whatever order the two are given: the keys at or
past the start and before the end, ascending, as far as the limit goes. The store answers for the
keys visible at a revision, the in-memory engine for those of the map it holds.
-/

set_option autoImplicit false

namespace Hadar.Storage

/-- Whether a key is at or past the start and before the end.
SOURCE: crates/storage-api/src/bounds.rs:5-7 -/
def isBetween (start stop key : Bytes) : Bool := (compare start key).isLE && (compare key stop).isLT

end Hadar.Storage

namespace Hadar.Mem

open Hadar.Lib Hadar.Storage

/-- A range over the map returns its pairs between the two keys, ascending, up to the limit. -/
def AnswersBetween (map : Map) (limit : Option ℕ) (start stop : Bytes) : Prop :=
  ∃ pairs, Ascending compare pairs ∧
    (∀ key value, (key, value) ∈ pairs ↔
      map.entries[key]? = some value ∧ isBetween start stop key = true) ∧
    collect map (Bounds.between start stop) limit = some (capped limit pairs)

end Hadar.Mem

namespace Hadar.Mvcc

open Hadar.Storage

/-- The records visible at a revision are those a range over everything shows, ascending. Unless a
compaction went past the revision, they are of the keys that the events say exist there. -/
structure Visible (events : List Event) (high : ℕ) (s : KvStore) (requested : Option ℕ) (at_ : ℕ)
    (visible : List Record) : Prop where
  shown : s.shown Bounds.all requested none = .ok visible
  ascending : visible.Pairwise fun a b => compare a.key b.key = .lt
  keys : high ≤ at_ → ∀ key, (∃ r ∈ visible, r.key = key) ↔ (view events at_ key).isSome = true

/-- A range over the store returns what is visible between the two keys, up to the limit. -/
def AnswersBetween (events : List Event) (high : ℕ) (s : KvStore) (requested : Option ℕ) (at_ : ℕ)
    (limit : Option ℕ) (start stop : Bytes) : Prop :=
  ∃ visible, Visible events high s requested at_ visible ∧
    s.shown (Bounds.between start stop) requested limit =
      .ok (capped limit (visible.filter fun r => isBetween start stop r.key))

end Hadar.Mvcc
