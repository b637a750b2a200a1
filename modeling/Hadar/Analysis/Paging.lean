import Hadar.Analysis.Engines
import Hadar.Analysis.Records
import Hadar.Interface.MultiVersion
import Hadar.Interface.Paging

/-!
# Pages against one range

The pages of a scan are the range they cut up, whatever their size: each of them is what the
range begins with, and the next one starts where it stopped. So the loop by which a store is
opened enters what one range over the revision records would give it.
-/

set_option autoImplicit false

namespace Hadar.Mem

open Hadar.Lib Hadar.Storage Std

/-- A scan ends at an empty page. -/
theorem pages_last {map : Map} {n : ℕ} {bounds : Bounds} {page : List (Bytes × Bytes)}
    (hpage : collect map bounds (some n) = some page) (hlast : page.getLast? = none) :
    pages map n bounds = some [] := by
  rw [pages]
  split
  · rename_i hpanic
    rw [hpanic] at hpage
    cases hpage
  · rename_i page' hpage'
    rw [hpage] at hpage'
    cases hpage'
    split
    · rfl
    · rename_i last hlast'
      rw [hlast] at hlast'
      cases hlast'

/-- It goes on past the last key of any other one. -/
theorem pages_more {map : Map} {n : ℕ} {bounds : Bounds} {page : List (Bytes × Bytes)}
    {last : Bytes × Bytes} (hpage : collect map bounds (some n) = some page)
    (hlast : page.getLast? = some last) :
    pages map n bounds = (pages map n (bounds.advancePast last.1)).map (page :: ·) := by
  rw [pages]
  split
  · rename_i hpanic
    rw [hpanic] at hpage
    cases hpage
  · rename_i page' hpage'
    rw [hpage] at hpage'
    cases hpage'
    split
    · rename_i hlast'
      rw [hlast] at hlast'
      cases hlast'
    · rename_i last' hlast'
      rw [hlast] at hlast'
      cases hlast'
      rfl

/-- The pages of a scan are the chunks of the range, none of them empty. -/
theorem pages_eq {map : Map} {n : ℕ} (hn : 1 ≤ n) {bounds : Bounds}
    (h : bounds.panics = false) :
    ∃ ps, pages map n bounds = some ps ∧ ps.flatten = entriesIn map.entries bounds ∧
      ∀ page ∈ ps, page ≠ [] ∧ page.length ≤ n := by
  induction bounds using pages.induct map n with
  | case1 bounds hpage =>
    rw [collect_eq h] at hpage
    cases hpage
  | case2 bounds page hpage hlast =>
    have hpages := pages_last hpage hlast
    obtain rfl := collect_some hpage
    have hnone : entriesIn map.entries bounds = [] := by
      rcases List.take_eq_nil_iff.mp (List.getLast?_eq_none_iff.mp hlast) with hzero | hnil
      · omega
      · exact hnil
    exact ⟨[], hpages, hnone.symm, fun _ hp => absurd hp List.not_mem_nil⟩
  | case3 bounds page hpage last hlast ih =>
    have hpages := pages_more hpage hlast
    obtain rfl := collect_some hpage
    have hmem : last ∈ entriesIn map.entries bounds := List.mem_of_mem_take (List.mem_of_getLast? hlast)
    obtain ⟨ps, hps, hflat, hsizes⟩ :=
      ih (Bounds.panics_advancePast (contains_of_mem_entriesIn hmem))
    refine ⟨(entriesIn map.entries bounds).take n :: ps, ?_, ?_, fun page hp => ?_⟩
    · rw [hpages, hps]
      rfl
    · rw [List.flatten_cons, hflat, entriesIn_advancePast hlast, List.take_append_drop]
    · rcases List.mem_cons.mp hp with rfl | hp
      · refine ⟨fun hnil => ?_, by rw [List.length_take]; omega⟩
        rw [hnil] at hlast
        cases hlast
      · exact hsizes page hp

end Hadar.Mem

namespace Hadar.Mvcc

open Hadar.Lib Hadar.Lib.Prog Hadar.Storage Std

/-! ## Bounds -/

/-- Bounds from the constructors never make a range panic. -/
theorem panics_of_built {bounds : Bounds} (h : Bounds.Built bounds) : bounds.panics = false := by
  cases h with
  | all => rfl
  | point key => simp [Bounds.point, Bounds.panics, ReflCmp.compare_self]
  | between start stop hle =>
    cases hc : compare start stop <;> simp [Bounds.between, Bounds.panics, hc] at hle ⊢
  | startAt start => rfl
  | endBefore stop => rfl
  | withPrefix lead => exact panics_withPrefix lead

theorem Index.refuses_of_accepted {bounds : Bounds} (index : Index) (h : bounds.panics = false) :
    index.refuses bounds = false := by rw [refuses, h, Bool.and_false]

theorem Index.refuses_built {bounds : Bounds} (index : Index) (h : Bounds.Built bounds) :
    index.refuses bounds = false := index.refuses_of_accepted (panics_of_built h)

/-! ## Opening -/

/-- Pages are entered in the index as they follow one another. -/
theorem indexPage_append (a b : List (Bytes × Bytes)) (index : Index) (current : Revision) :
    indexPage (a ++ b) index current =
      match indexPage a index current with
      | .error e => .error e
      | .ok (index, current) => indexPage b index current := by
  induction a generalizing index current with
  | nil => rfl
  | cons p rest ih =>
    obtain ⟨rawKey, rawValue⟩ := p
    rw [List.cons_append, indexPage, indexPage]
    cases parseKey rawKey with
    | none => rfl
    | some parsed =>
      obtain ⟨revision, tombstone⟩ := parsed
      dsimp only
      cases decodeRecord rawValue with
      | none => rfl
      | some record => exact ih _ _

/-- A page enters the mutations that its records tell of, unless one of them tells of none. -/
theorem indexPage_eq (page : List (Bytes × Bytes)) (index : Index) (current : Revision) :
    indexPage page index current =
      match page.mapM mutationOf with
      | .error e => .error e
      | .ok mutations => .ok (mutations.foldl (fun index p => index.enter p.1 p.2) index,
          (mutations.map (·.2)).foldl Revision.max current) := by
  induction page generalizing index current with
  | nil => rfl
  | cons record rest ih =>
    obtain ⟨rawKey, rawValue⟩ := record
    rw [indexPage, List.mapM_cons, mutationOf]
    cases parseKey rawKey with
    | none => rfl
    | some parsed =>
      obtain ⟨revision, tombstone⟩ := parsed
      cases decodeRecord rawValue with
      | none => rfl
      | some record =>
        obtain ⟨key, value⟩ := record
        dsimp only
        rw [ih]
        cases rest.mapM mutationOf with
        | error e => rfl
        | ok mutations => cases tombstone <;> rfl

/-- A call of the engine while the store is opened. -/
theorem ends_opening {α : Type} {e : Engine} {p : Prog Engine Storage.Error α} {post : α → Prop}
    (hp : Reads False False p e post) :
    Ends (opening p) e (fun a e' => post a ∧ Faults.Later e e')
      (fun _ e' => Faults.Later e e' ∧ Faults.Refuses e)
      fun e' => Faults.Later e e' ∧ Faults.Crashes e :=
  ends_zoom.mpr (Ends.mono hp (fun _ _ h => h) (fun _ _ h => ⟨h.1, h.2.resolve_right id⟩)
    fun _ h => ⟨h.1, h.2.resolve_right id⟩)

/-- What a run that only reads the engine ends in: what `expected` says, unless a call is
refused or the process stops. -/
def Follows {α : Type} (p : Prog Engine Error α) (e : Engine) (expected : Except Error α) : Prop :=
  Ends p e (fun a e' => expected = .ok a ∧ Faults.Later e e')
    (fun x e' => Faults.Later e e' ∧ (Faults.Refuses e ∨ expected = .error x))
    fun e' => Faults.Later e e' ∧ Faults.Crashes e

/-- A call of the engine may come first. -/
theorem Follows.opening {α β : Type} {e : Engine} {p : Prog Engine Storage.Error α}
    {f : α → Prog Engine Error β} {post : α → Prop} {expected : Except Error β}
    (hp : Reads False False p e post)
    (hf : ∀ a e', post a → Faults.Later e e' → Follows (f a) e' expected) :
    Follows (Mvcc.opening p >>= f) e expected := by
  refine ends_bind.mpr (Ends.mono (ends_opening hp) (fun a e' ha => ?_)
    (fun _ _ h => ⟨h.1, .inl h.2⟩) fun _ h => h)
  refine Ends.mono (hf a e' ha.1 ha.2) (fun _ _ h => ⟨h.1, Faults.trans ha.2 h.2⟩)
    (fun _ _ h => ⟨Faults.trans ha.2 h.1, h.2.imp_left (Faults.refuses ha.2)⟩)
    fun _ h => ⟨Faults.trans ha.2 h.1, Faults.crashes ha.2 h.2⟩

/-- The paging loop enters what one range over its bounds gives, and never runs out of rounds.
SOURCE: crates/mvcc/src/store.rs:82-106 -/
theorem follows_scanPages {contents : Keyspace} {rounds : ℕ} {bounds : Bounds} {e : Engine}
    (hrounds : (entriesIn contents bounds).length < rounds) (hpanics : bounds.panics = false)
    (index : Index) (current : Revision) :
    Follows (scanPages ⟨contents⟩ rounds bounds index current) e
      (indexPage (entriesIn contents bounds) index current) := by
  induction rounds generalizing bounds index current e with
  | zero => omega
  | succ rounds ih =>
    refine Follows.opening (reads_scan _ _ hpanics) fun page e' hpage _ => ?_
    subst hpage
    cases hlast : (capped (some scanPage) (entriesIn contents bounds)).getLast? with
    | none =>
      have hnone : entriesIn contents bounds = [] := by
        rcases List.take_eq_nil_iff.mp (List.getLast?_eq_none_iff.mp hlast) with hzero | hnil
        · cases hzero
        · exact hnil
      rw [hnone]
      exact ends_pure.mpr ⟨rfl, Faults.refl e'⟩
    | some last =>
      have hmem : last ∈ entriesIn contents bounds :=
        List.mem_of_mem_take (List.mem_of_getLast? hlast)
      have hrest := length_past_lt hlast
      have happend := indexPage_append ((entriesIn contents bounds).take scanPage)
        ((entriesIn contents bounds).drop scanPage) index current
      rw [List.take_append_drop] at happend
      rw [happend]
      dsimp only [capped]
      cases indexPage ((entriesIn contents bounds).take scanPage) index current with
      | error x => exact ends_fail.mpr ⟨Faults.refl e', .inr rfl⟩
      | ok r =>
        have hshorter : (entriesIn contents (bounds.advancePast last.1)).length < rounds := by omega
        have hnext := ih (e := e') hshorter
          (Bounds.panics_advancePast (contains_of_mem_entriesIn hmem)) r.1 r.2
        rwa [entriesIn_advancePast hlast] at hnext

/-- Opening a store ends in what one pass over the contents gives.
SOURCE: crates/mvcc/src/store.rs:66-117 -/
theorem follows_openState (e : Engine) : Follows openState e (openAtOnce e.committed) := by
  refine Follows.opening reads_beginRead fun txn e1 htxn _ => ?_
  subst htxn
  refine Follows.opening (reads_lookup _ _) fun raw e2 hraw _ => ?_
  subst hraw
  have hscan : ∀ applied : ℕ, Follows
      (scanPages ⟨e.committed⟩ (e.committed.toList.length + 1) allRecords Index.empty
        Revision.zero >>= fun r => pure ⟨r.1, r.2, 0, applied⟩) e2
      (match (entriesIn e.committed allRecords).mapM mutationOf with
        | .error x => .error x
        | .ok mutations => .ok (⟨mutations.foldl (fun index p => index.enter p.1 p.2) Index.empty,
            (mutations.map (·.2)).foldl Revision.max Revision.zero, 0, applied⟩ : State)) := by
    intro applied
    have hrounds : (entriesIn e.committed allRecords).length < e.committed.toList.length + 1 :=
      Nat.lt_succ_of_le (List.length_filter_le _ _)
    have hpages := follows_scanPages (e := e2) hrounds (by decide) Index.empty Revision.zero
    rw [indexPage_eq] at hpages
    cases hall : (entriesIn e.committed allRecords).mapM mutationOf with
    | error x =>
      rw [hall] at hpages
      exact ends_bind.mpr (Ends.mono hpages (fun r e3 hr => by cases hr.1) (fun x e3 hx =>
        ⟨hx.1, hx.2.imp_right fun herror => by cases herror; rfl⟩) fun _ h => h)
    | ok mutations =>
      rw [hall] at hpages
      refine ends_bind.mpr (Ends.mono hpages (fun r e3 hr => ?_) (fun x e3 hx =>
        ⟨hx.1, hx.2.imp_right fun herror => by cases herror⟩) fun _ h => h)
      obtain ⟨hr, hlater⟩ := hr
      cases hr
      exact ends_pure.mpr ⟨rfl, hlater⟩
  unfold openAtOnce
  cases e.committed[appliedKey]? with
  | none => exact hscan 0
  | some raw =>
    rw [Option.map_some]
    dsimp only
    cases decodePosition raw with
    | none => exact ends_fail.mpr ⟨Faults.refl e2, .inr rfl⟩
    | some position => exact hscan position

/-! ## The scan as a whole -/

/-- The records a scan lists come in the order of their revisions. -/
theorem precedes_of_compare {a b : Bytes} {p q : Revision × Bool} (ha : parseKey a = some p)
    (hb : parseKey b = some q) (h : compare a b = .lt) : Precedes p q := by
  rw [backendKey_of_parseKey ha, backendKey_of_parseKey hb] at h
  have hflag : compare p.2 q.2 = .lt ↔ p.2 = false ∧ q.2 = true := by
    cases p.2 <;> cases q.2 <;> decide
  rwa [compare_backendKey, Ordering.then_eq_lt, Ordering.then_eq_lt, Nat.compare_eq_lt,
    Nat.compare_eq_eq, Nat.compare_eq_lt, Nat.compare_eq_eq, hflag] at h

/-- A paged scan is a plain one. Over any map, and any bounds the constructors build, the loop
ends without a panic, and its pages make up the range: every pair within the bounds once, keys
ascending. So opening a store ends in one pass over the revision records, each of them once
and in the order of the revisions, and only the engine's calls can make it end otherwise.
SOURCE: crates/mvcc/src/store.rs:66-117, crates/storage-api/src/bounds.rs:96-98,
crates/storage-api/src/mem.rs:170-179 -/
theorem paged_scan_exact (map : Mem.Map) {bounds : Bounds} (hbuilt : Bounds.Built bounds) {n : ℕ}
    (hn : 1 ≤ n) :
    (∃ ps, Mem.pages map n bounds = some ps ∧ Mem.collect map bounds none = some ps.flatten ∧
      Ascending compare ps.flatten ∧
      ∀ k v, (k, v) ∈ ps.flatten ↔ map.entries[k]? = some v ∧ bounds.contains k = true) ∧
    ∀ engine : Engine,
      Follows openState engine (openAtOnce engine.committed) ∧
      (∀ r t raw, (backendKey r t, raw) ∈ entriesIn engine.committed allRecords ↔
        engine.committed[backendKey r t]? = some raw) ∧
      (entriesIn engine.committed allRecords).Pairwise fun a b =>
        ∀ p q, parseKey a.1 = some p → parseKey b.1 = some q → Precedes p q := by
  refine ⟨?_, fun engine => ⟨follows_openState engine, fun r t raw => ?_, ?_⟩⟩
  · have hpanics := panics_of_built hbuilt
    obtain ⟨ps, hps, hflat, -⟩ := @Mem.pages_eq map n hn bounds hpanics
    refine ⟨ps, hps, ?_, ?_, fun k v => ?_⟩
    · rw [Mem.collect_eq hpanics, hflat]
      rfl
    · rw [hflat]
      exact ascending_entriesIn map.entries bounds
    · rw [hflat, entriesIn, List.mem_filter, ExtTreeMap.mem_toList_iff_getElem?_eq_some]
  · rw [entriesIn, List.mem_filter, ExtTreeMap.mem_toList_iff_getElem?_eq_some]
    exact and_iff_left (contains_backendKey r t)
  · refine List.Pairwise.imp (fun hlt p q hp hq => ?_) (ascending_entriesIn _ allRecords)
    exact precedes_of_compare hp hq hlt

/-- Three keys, in pages of one. -/
theorem paged_scan_exact_three :
    (∃ ps, Mem.pages (((Mem.Map.empty.insert [1] [7]).insert [2] [8]).insert [3] [9]) 1
        (Bounds.between [1] [3]) = some ps ∧ ps.flatten = [([1], [7]), ([2], [8])]) := by
  obtain ⟨⟨ps, hps, hcollect, -⟩, -⟩ := paged_scan_exact
    (((Mem.Map.empty.insert [1] [7]).insert [2] [8]).insert [3] [9])
    (.between [1] [3] (by decide)) (Nat.le_refl 1)
  refine ⟨ps, hps, ?_⟩
  have hrange : Mem.collect (((Mem.Map.empty.insert [1] [7]).insert [2] [8]).insert [3] [9])
      (Bounds.between [1] [3]) none = some [([1], [7]), ([2], [8])] := by decide +kernel
  exact Option.some.inj (hcollect.symm.trans hrange)

end Hadar.Mvcc
