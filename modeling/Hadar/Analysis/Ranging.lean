import Hadar.Analysis.Serving
import Hadar.Interface.Ranging

/-!
# Ranges whose end comes before their start

A range is answered as it should exactly when its start is not past its end, or the map has never
been filled. `Bounds` says of an inverted pair that it is empty, but hands it on as it is to
`BTreeMap::range`, which panics on it once the map has a root.
-/

set_option autoImplicit false

namespace Hadar.Storage

theorem panics_between (start stop : Bytes) :
    (Bounds.between start stop).panics = !(compare start stop).isLE := by
  rw [Ordering.not_isLE_eq_isGT]
  rfl

theorem contains_between (start stop key : Bytes) :
    (Bounds.between start stop).contains key = isBetween start stop key := rfl

end Hadar.Storage

namespace Hadar.Mem

open Hadar.Lib Hadar.Storage

/-- SOURCE: crates/storage-api/src/mem.rs:170-179 -/
theorem answersBetween_iff (map : Map) (limit : Option ℕ) (start stop : Bytes) :
    AnswersBetween map limit start stop ↔
      (compare start stop).isLE = true ∨ map.rooted = false := by
  constructor
  · rintro ⟨pairs, -, -, hcollect⟩
    by_contra hneither
    obtain ⟨hinverted, hrooted⟩ := not_or.mp hneither
    have hpanics : (map.rooted && (Bounds.between start stop).panics) = true := by
      rw [panics_between, eq_true_of_ne_false hrooted, eq_false_of_ne_true hinverted]
      rfl
    rw [collect, if_pos hpanics] at hcollect
    cases hcollect
  · intro haccepted
    refine ⟨entriesIn map.entries (Bounds.between start stop), ascending_entriesIn map.entries _,
      fun key value => ?_, ?_⟩
    · rw [entriesIn, List.mem_filter, Std.ExtTreeMap.mem_toList_iff_getElem?_eq_some,
        contains_between]
    · rcases haccepted with hle | hunrooted
      · exact collect_eq (by rw [panics_between, hle]; rfl) limit
      · exact collect_unrooted hunrooted limit

end Hadar.Mem

namespace Hadar.Mvcc

open Hadar.Lib Hadar.Lib.Prog Hadar.Storage

variable {events : List Event} {high at_ : ℕ} {s : KvStore} {requested : Option ℕ}

/-- A range over bounds that the index's map does not accept.
SOURCE: crates/mvcc/src/index.rs:96-104, crates/mvcc/src/store.rs:225-235 -/
theorem shown_panics (hresolve : resolve s.state requested = .ok at_) {bounds : Bounds}
    (hb : s.state.index.refuses bounds = true) (limit : Option ℕ) :
    s.shown bounds requested limit = .error .panic := by
  have hstate : resolve (s.facing []).state requested = .ok at_ := hresolve
  have hrefuses : (s.facing []).state.index.refuses bounds = true := hb
  rw [KvStore.shown, range, exec_bind_ok (exec_get _), hstate]
  dsimp only
  rw [if_pos hrefuses]
  rfl

/-- A pair that is in order is accepted, and so is any by a map that was never filled. -/
theorem refuses_between {index : Index} {start stop : Bytes} :
    index.refuses (Bounds.between start stop) = false ↔
      (compare start stop).isLE = true ∨ index.rooted = false := by
  rw [Index.refuses, panics_between]
  cases index.rooted <;> simp

/-- The records a range over everything shows. -/
theorem Stands.visible (h : Stands events high s) (hresolve : resolve s.state requested = .ok at_) :
    Visible events high s requested at_
      ((s.state.index.range Bounds.all at_).map (fetched s.engine.committed)) where
  shown := h.shown_eq hresolve (s.state.index.refuses_built .all) none
  ascending := List.pairwise_map.mpr (s.state.index.ascending_range Bounds.all at_)
  keys := fun hlate key => by
    have hmem := h.mem_range_iff hlate Bounds.all key
    have hall : Bounds.all.contains key = true := rfl
    rw [and_iff_right hall] at hmem
    rw [← hmem]
    constructor
    · rintro ⟨r, hr, rfl⟩
      obtain ⟨p, hp, rfl⟩ := List.mem_map.mp hr
      exact ⟨p.2, hp⟩
    · rintro ⟨found, hfound⟩
      exact ⟨_, List.mem_map_of_mem hfound, rfl⟩

/-- A range between two keys is answered as it should exactly when they are in order or nothing was
ever entered in the index.
SOURCE: crates/mvcc/src/store.rs:225-261, crates/mvcc/src/index.rs:96-104 -/
theorem Stands.answersBetween_iff (h : Stands events high s)
    (hresolve : resolve s.state requested = .ok at_) (limit : Option ℕ) (start stop : Bytes) :
    AnswersBetween events high s requested at_ limit start stop ↔
      (compare start stop).isLE = true ∨ s.state.index.rooted = false := by
  rw [← refuses_between]
  constructor
  · rintro ⟨visible, -, hshown⟩
    by_contra hrefuses
    rw [shown_panics hresolve (eq_true_of_ne_false hrefuses)] at hshown
    cases hshown
  · intro haccepted
    refine ⟨_, h.visible hresolve, ?_⟩
    rw [h.shown_eq hresolve haccepted, Index.range_eq_filter, List.filter_map]
    rfl

/-- A range from a start to an end returns what it should, of a store and of an in-memory engine,
exactly when the start is not past the end or the map that is searched was never filled. Otherwise
both panic.
SOURCE: crates/storage-api/src/bounds.rs:3-43, crates/mvcc/src/store.rs:225-261,
crates/storage-api/src/mem.rs:170-179 -/
theorem range_between_iff (h : Lived s events high) (hresolve : resolve s.state requested = .ok at_)
    (map : Mem.Map) (limit : Option ℕ) (start stop : Bytes) :
    (AnswersBetween events high s requested at_ limit start stop ↔
        (compare start stop).isLE = true ∨ s.state.index.rooted = false) ∧
      (Mem.AnswersBetween map limit start stop ↔
        (compare start stop).isLE = true ∨ map.rooted = false) :=
  ⟨h.stands.answersBetween_iff hresolve limit start stop,
    Mem.answersBetween_iff map limit start stop⟩

/-- Two keys, one of them past the end. -/
theorem range_between_two :
    AnswersBetween ([revisionOf 1, revisionOf 2].zip [.put [1] [7], .put [2] [8]]) 0
        ((Mvcc.apply [.put [1] [7], .put [2] [8]] 2).exec KvStore.fresh).2 none 2 (some 5) [1] [2] ∧
      Mem.AnswersBetween (Mem.Map.empty.insert [1] [7]) none [1] [2] := by
  have hreturns : (Mvcc.apply [.put [1] [7], .put [2] [8]] 2).returnsFrom KvStore.fresh = true := by
    decide +kernel
  have hrevisions : (Mvcc.apply [.put [1] [7], .put [2] [8]] 2).returned KvStore.fresh [] =
      [revisionOf 1, revisionOf 2] := by decide +kernel
  have hlived := Lived.fresh.applied (exec_returned hreturns [])
  rw [hrevisions] at hlived
  have hresolve : resolve ((Mvcc.apply [.put [1] [7], .put [2] [8]] 2).exec
      KvStore.fresh).2.state none = .ok 2 := by decide +kernel
  have hmap := range_between_iff hlived hresolve (Mem.Map.empty.insert [1] [7])
  exact ⟨(hmap (some 5) [1] [2]).1.mpr (.inl rfl), (hmap none [1] [2]).2.mpr (.inl rfl)⟩

/-- A range from `[2]` to `[1]` panics, on a store with one key and on a map with one. -/
theorem range_inverted_panics :
    (¬ ∀ s events high requested at_ limit start stop, Lived s events high →
      resolve s.state requested = .ok at_ →
      AnswersBetween events high s requested at_ limit start stop) ∧
    ¬ ∀ map limit start stop, Mem.AnswersBetween map limit start stop := by
  constructor
  · intro h
    have hreturns : (Mvcc.apply [.put [1] [7]] 1).returnsFrom KvStore.fresh = true := by
      decide +kernel
    have hlived := Lived.fresh.applied (exec_returned hreturns [])
    have hresolve : resolve ((Mvcc.apply [.put [1] [7]] 1).exec KvStore.fresh).2.state none =
        .ok 1 := by decide +kernel
    obtain ⟨visible, -, hshown⟩ := h _ _ _ none 1 none [2] [1] hlived hresolve
    have hrefuses : ((Mvcc.apply [.put [1] [7]] 1).exec KvStore.fresh).2.state.index.refuses
        (Bounds.between [2] [1]) = true := by decide +kernel
    rw [shown_panics hresolve hrefuses] at hshown
    cases hshown
  · intro h
    obtain ⟨pairs, -, -, hcollect⟩ := h (Mem.Map.empty.insert [1] [7]) none [2] [1]
    have hpanics : Mem.collect (Mem.Map.empty.insert [1] [7]) (Bounds.between [2] [1]) none =
        none := rfl
    rw [hpanics] at hcollect
    cases hcollect

end Hadar.Mvcc
