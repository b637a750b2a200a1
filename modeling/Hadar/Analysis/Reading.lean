import Hadar.Analysis.Indexes
import Hadar.Analysis.Stores

/-!
# Reading the store

A store shows a list of events down to a watermark when its index is their trimmed replay
and its backend holds the records of the events that survive the watermark. Then `range`
answers with the records the events tell of: the index finds the keys, and the record of
each event in force is still there to be fetched.
-/

set_option autoImplicit false

namespace Hadar.Mvcc

open Hadar.Lib Hadar.Lib.Prog Hadar.Storage Std

/-- The events whose records survive a compaction at the watermark. -/
def kept (watermark : ℕ) (events : List Event) : List Event :=
  events.filter fun e =>
    decide (Survives Event.date Event.dies watermark (eventsOf events e.2.key) e)

/-- The store shows some events down to a watermark: its index is their trimmed replay and
its backend holds their surviving records. -/
structure Shows (events : List Event) (watermark : ℕ) (s : KvStore) : Prop where
  dated : Dated Event.date events
  keys : ∀ e ∈ events, e.2.key.length ≤ u32Max
  index : Indexes events watermark s.state.index
  contents : ∃ marker, Holds s.engine.committed marker (kept watermark events)

/-- The store serves reads of some events from a watermark on: its backend holds at least the
records that survive the watermark. -/
structure Serves (events : List Event) (watermark : ℕ) (s : KvStore) : Prop where
  dated : Dated Event.date events
  keys : ∀ e ∈ events, e.2.key.length ≤ u32Max
  index : Indexes events watermark s.state.index
  contents : ∃ marker records, Holds s.engine.committed marker records ∧
    ∀ e ∈ kept watermark events, e ∈ records

theorem Shows.serves {events : List Event} {w : ℕ} {s : KvStore} (h : Shows events w s) :
    Serves events w s := by
  obtain ⟨marker, hholds⟩ := h.contents
  exact ⟨h.dated, h.keys, h.index, marker, _, hholds, fun _ he => he⟩

/-! ## What the map says -/

section View

variable {events : List Event} {at_ : ℕ} {key : Bytes}

theorem mem_eventsOf {e : Event} : e ∈ eventsOf events key ↔ e ∈ events ∧ e.2.key = key := by
  simp [eventsOf]

/-- What a key's record at a date tells, given what a read of the index found. -/
def tell (events : List Event) (at_ : ℕ) (p : Bytes × Found) : Record :=
  ⟨p.1, ((lifeAt events at_ p.1).getLast?.map (·.2.value)).getD [], p.2.created, p.2.modified,
    p.2.version⟩

/-- A key's record is what the index finds together with the value of the last put. -/
theorem view_eq : view events at_ key =
    (foundIn (lifeAt events at_ key)).map fun found => tell events at_ (key, found) := by
  unfold view foundIn tell
  rcases hfirst : (lifeAt events at_ key).head? with _ | first <;>
    rcases hlast : (lifeAt events at_ key).getLast? with _ | last <;> simp [hlast]

/-- A key is visible while it is in a life. -/
theorem view_isSome :
    (view events at_ key).isSome = true ↔ lifeAt events at_ key ≠ [] := by
  rw [view_eq, Option.isSome_map]
  cases hlife : lifeAt events at_ key with
  | nil => simp [foundIn]
  | cons first rest =>
    rw [foundIn, List.getLast?_eq_some_getLast (List.cons_ne_nil first rest)]
    simp

/-- A record is told under its own key. -/
theorem key_of_view {r : Record} (h : view events at_ key = some r) : r.key = key := by
  rw [view_eq] at h
  obtain ⟨found, -, rfl⟩ := Option.map_eq_some_iff.mp h
  rfl

/-- What is found is told of an event in force, a put of the key. -/
theorem inForce_of_foundIn {found : Found} (h : foundIn (lifeAt events at_ key) = some found) :
    ∃ e, inForce Event.date Event.dies at_ (eventsOf events key) = some e ∧ e ∈ events ∧
      e.2.key = key ∧ e.dies = false ∧ e.1 = found.modified := by
  unfold foundIn at h
  rcases hfirst : (lifeAt events at_ key).head? with _ | first <;>
    rcases hlast : (lifeAt events at_ key).getLast? with _ | last <;>
    simp only [hfirst, hlast, reduceCtorEq, Option.some.injEq] at h
  have hforce : inForce Event.date Event.dies at_ (eventsOf events key) = some last := hlast
  obtain ⟨hmem, -, halive⟩ := mem_of_inForce hforce
  obtain ⟨hin, hkey⟩ := mem_eventsOf.mp hmem
  exact ⟨last, hforce, hin, hkey, halive, by rw [← h]⟩

/-- The record of the event in force survives every watermark up to the date. -/
theorem kept_of_inForce {w : ℕ} {e : Event} (hdated : Dated Event.date events) (hw : w ≤ at_)
    (h : inForce Event.date Event.dies at_ (eventsOf events key) = some e) :
    e ∈ kept w events := by
  obtain ⟨hmem, -, -⟩ := mem_of_inForce h
  obtain ⟨hin, hkey⟩ := mem_eventsOf.mp hmem
  refine List.mem_filter.mpr ⟨hin, decide_eq_true ?_⟩
  rw [hkey]
  by_cases hlt : w < e.date
  · exact .inl hlt
  · exact .inr (.inl (inForce_earlier (dated_eventsOf hdated key) h (by omega) hw))

end View

/-! ## Fetching -/

variable {s : KvStore}

/-- What is left of a limit once some records were read. -/
def stillCapped {α : Type} (limit : Option ℕ) (read : ℕ) (l : List α) : List α :=
  match limit with
  | some n => l.take (n - read)
  | none => l

/-- What the index found is fetched in order, as far as the limit allows.
SOURCE: crates/mvcc/src/store.rs:237-258 -/
theorem reads_fetch {txn : WriteTxn} {limit : Option ℕ} {visible : List (Bytes × Found)}
    {records : List Record} {told : Bytes × Found → Record}
    (h : ∀ p ∈ visible, ∃ raw key, txn.working[backendKey p.2.modified false]? = some raw ∧
      decodeRecord raw = some (key, (told p).value) ∧
      told p = ⟨p.1, (told p).value, p.2.created, p.2.modified, p.2.version⟩) :
    Reads False False (fetch txn limit visible records) s
      (· = records ++ stillCapped limit records.length (visible.map told)) := by
  induction visible generalizing records s with
  | nil => exact Reads.pure (by cases limit <;> simp [stillCapped])
  | cons p rest ih =>
    obtain ⟨raw, key, hraw, hdecode, htold⟩ := h p (List.mem_cons_self ..)
    rw [fetch]
    by_cases hfull : limit.any (fun n => decide (records.length ≥ n)) = true
    · rw [if_pos hfull]
      refine Reads.pure ?_
      cases limit with
      | none => simp at hfull
      | some n =>
        have hzero : n - records.length = 0 := by
          simp at hfull
          omega
        simp [stillCapped, hzero]
    · rw [if_neg hfull]
      refine Reads.bind (reads_onEngine (reads_lookup _ _)) fun found s' hfound _ => ?_
      subst hfound
      rw [hraw]
      dsimp only
      rw [hdecode]
      dsimp only
      rw [← htold]
      refine Ends.mono (ih fun q hq => h q (List.mem_cons_of_mem _ hq))
        (fun _ _ hok => ⟨hok.1.trans ?_, hok.2⟩) (fun _ _ he => he) fun _ hd => hd
      rw [List.append_assoc, List.map_cons]
      congr 1
      cases limit with
      | none => rfl
      | some n =>
        have hroom : n - records.length = n - (records.length + 1) + 1 := by
          simp at hfull
          omega
        simp [stillCapped, hroom]

/-! ## Ranges -/

section Range

variable {events : List Event} {w : ℕ} {bounds : Bounds} {at_ : ℕ}

/-- The records of a range in the order the index finds their keys. -/
theorem lists_tell (bounds : Bounds) (h : Serves events w s) (hw : w ≤ at_) :
    Lists events bounds at_ ((s.state.index.range bounds at_).map (tell events at_)) := by
  have hchain := h.index.chain h.dated
  refine ⟨List.pairwise_map.mpr (s.state.index.ascending_range bounds at_), fun r => ?_⟩
  rw [List.mem_map, view_eq, Option.map_eq_some_iff]
  constructor
  · rintro ⟨⟨key, found⟩, hmem, rfl⟩
    obtain ⟨hb, hfound⟩ := (Index.mem_range _ _ _ hchain _ _).mp hmem
    rw [h.index.readIn_newest h.dated hw] at hfound
    exact ⟨hb, found, hfound, rfl⟩
  · rintro ⟨hb, found, hfound, hr⟩
    refine ⟨(r.key, found), (Index.mem_range _ _ _ hchain _ _).mpr ⟨hb, ?_⟩, hr⟩
    rw [h.index.readIn_newest h.dated hw]
    exact hfound

/-- A key's record is the one of a range that has the key. -/
theorem Lists.view_eq_find {key : Bytes} {records : List Record}
    (h : Lists events bounds at_ records) (hkey : bounds.contains key = true) :
    view events at_ key = records.find? fun r => r.key = key := by
  cases hfind : records.find? fun r => r.key = key with
  | none =>
    rw [List.find?_eq_none] at hfind
    by_contra hsome
    obtain ⟨r, hview⟩ := Option.ne_none_iff_exists'.mp hsome
    have hr : r.key = key := key_of_view hview
    exact hfind r ((h.mem_iff r).mpr (by rw [hr]; exact ⟨hkey, hview⟩)) (decide_eq_true hr)
  | some r =>
    have hr : r.key = key := by simpa using List.find?_some hfind
    have hview := ((h.mem_iff r).mp (List.mem_of_find?_eq_some hfind)).2
    rwa [hr] at hview

/-- What the records of a range tell is determined by what each key's record tells, were it at
another revision and of other events. -/
theorem Lists.map_unique {β : Type} {events events' : List Event} {at_ at_' : ℕ}
    {records records' : List Record} (f : Record → β) (h : Lists events bounds at_ records)
    (h' : Lists events' bounds at_' records')
    (hview : ∀ key, (view events at_ key).map f = (view events' at_' key).map f) :
    records.map f = records'.map f := by
  have hasc : ∀ {l : List Record}, (l.Pairwise fun a b => compare a.key b.key = .lt) →
      Ascending compare (l.map fun r => (r.key, f r)) := fun hl => List.pairwise_map.mpr hl
  have hmem : ∀ {es : List Event} {n : ℕ} {l : List Record}, Lists es bounds n l →
      ∀ p : Bytes × β, p ∈ l.map (fun r => (r.key, f r)) ↔
        bounds.contains p.1 = true ∧ (view es n p.1).map f = some p.2 := by
    intro es n l hl p
    simp only [List.mem_map, Option.map_eq_some_iff]
    constructor
    · rintro ⟨r, hr, rfl⟩
      obtain ⟨hb, hr⟩ := (hl.mem_iff r).mp hr
      exact ⟨hb, r, hr, rfl⟩
    · rintro ⟨hb, r, hr, hf⟩
      have hkey := key_of_view hr
      exact ⟨r, (hl.mem_iff r).mpr (by rw [hkey]; exact ⟨hb, hr⟩), by rw [hkey, hf]⟩
  have hsame := (hasc h.ascending).eq_of_mem_iff (hasc h'.ascending) fun p => by
    rw [hmem h, hmem h', hview]
  simpa [Function.comp_def] using congrArg (List.map (·.2)) hsame

/-- The records of a range are determined by what they tell. -/
theorem Lists.unique {events events' : List Event} {records records' : List Record}
    (h : Lists events bounds at_ records) (h' : Lists events' bounds at_ records')
    (hview : ∀ key, view events at_ key = view events' at_ key) : records = records' := by
  simpa using h.map_unique id h' fun key => by rw [hview]

/-- A range whose revision is accepted answers with what it fetches for the keys the index finds.
SOURCE: crates/mvcc/src/store.rs:225-261 -/
theorem reads_range_told {requested : Option ℕ} {told : Bytes × Found → Record}
    (hresolve : resolve s.state requested = .ok at_) (hb : s.state.index.refuses bounds = false)
    (limit : Option ℕ)
    (htold : ∀ p ∈ s.state.index.range bounds at_, ∃ raw key,
      s.engine.committed[backendKey p.2.modified false]? = some raw ∧
      decodeRecord raw = some (key, (told p).value) ∧
      told p = ⟨p.1, (told p).value, p.2.created, p.2.modified, p.2.version⟩) :
    Reads False False (range bounds requested limit) s
      (· = capped limit ((s.state.index.range bounds at_).map told)) := by
  refine ends_bind.mpr (ends_get.mpr ?_)
  dsimp only
  rw [hresolve, hb]
  dsimp only
  rw [if_neg Bool.false_ne_true]
  refine Reads.bind (reads_onEngine reads_beginWrite) fun txn s' htxn _ => ?_
  subst htxn
  refine Ends.mono (reads_fetch htold) (fun _ _ hok => ⟨hok.1.trans ?_, hok.2⟩)
    (fun _ _ he => he) fun _ hd => hd
  cases limit <;> simp [stillCapped, capped]

/-- A read past both watermarks, up to the newest revision, answers with the records of
the events.
SOURCE: crates/mvcc/src/store.rs:225-261 -/
theorem reads_range (h : Serves events w s) (hb : s.state.index.refuses bounds = false)
    (limit requested : Option ℕ) (hat : requested.getD s.state.current.main = at_) (hw : w ≤ at_)
    (hge : s.state.compacted ≤ at_) (hle : at_ ≤ s.state.current.main) :
    Reads False False (range bounds requested limit) s
      (· = capped limit ((s.state.index.range bounds at_).map (tell events at_))) := by
  have hresolve : resolve s.state requested = .ok at_ := by
    rw [resolve, hat, if_neg (by omega), if_neg (by omega)]
  refine reads_range_told hresolve hb limit ?_
  rintro ⟨key, found⟩ hp
  obtain ⟨-, hfound⟩ := (Index.mem_range _ _ _ (h.index.chain h.dated) _ _).mp hp
  rw [h.index.readIn_newest h.dated hw] at hfound
  obtain ⟨e, hforce, hin, hkey, halive, hrev⟩ := inForce_of_foundIn hfound
  obtain ⟨marker, records, hholds, hkept⟩ := h.contents
  have hraw := hholds.lookup (hkept e (kept_of_inForce h.dated hw hforce))
  rw [halive, hrev] at hraw
  refine ⟨_, e.2.key, hraw, ?_, rfl⟩
  have hvalue : (tell events at_ (key, found)).value = e.2.value := by
    have hlast : (lifeAt events at_ key).getLast? = some e := hforce
    simp [tell, hlast]
  rw [hvalue]
  exact decodeRecord_encodeRecord _ (h.keys e hin)

end Range

end Hadar.Mvcc
