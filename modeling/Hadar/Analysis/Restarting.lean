import Hadar.Analysis.Opening
import Hadar.Analysis.Refinement
import Hadar.Interface.Restart

/-!
# What a restart keeps

A store opened over the contents of another one is the replay of the records that survived
compaction. It agrees with the live store on the revision counter unless compaction took
the newest record, on the age of a record unless compaction took part of the life it tells
of, and it starts with no watermark at all.
-/

set_option autoImplicit false

namespace Hadar.Mvcc

open Hadar.Lib Hadar.Lib.Prog Hadar.Storage Std

variable {m : MultiVersion} {s : KvStore}

/-! ## The revision counter -/

/-- At the newest revision the life a key is in is the life of all its events. -/
theorem lifeAt_newest {a : List Mutation} (h : a.length ≤ i64Max) (key : Bytes) :
    lifeAt (stamped a) a.length key = life Event.dies (eventsOf (stamped a) key) := by
  rw [lifeAt, upTo_eq_self]
  intro e he
  have hmem := (mem_eventsOf.mp he).1
  have := (lt_date_of_mem_stampedFrom (by omega) hmem).2
  omega

/-- The record of the newest mutation survives unless it deletes a key that existed and
everything was compacted. -/
theorem survives_newest {earlier : List Mutation} {last : Mutation} {w : ℕ}
    (hcount : (earlier ++ [last]).length ≤ i64Max) (hw : w ≤ (earlier ++ [last]).length) :
    Survives Event.date Event.dies w (eventsOf (stamped (earlier ++ [last])) last.key)
        (revisionOf (earlier.length + 1), last) ↔
      ¬(w = (earlier ++ [last]).length ∧ last.isDelete = true ∧
        life Event.dies (eventsOf (stamped earlier) last.key) ≠ []) := by
  have hcount' : earlier.length + 1 ≤ i64Max := by simpa using hcount
  rw [List.length_append, List.length_singleton] at hw ⊢
  have hdate : Event.date (revisionOf (earlier.length + 1), last) = earlier.length + 1 :=
    Nat.min_eq_left hcount'
  have hevents : eventsOf (stamped (earlier ++ [last])) last.key =
      eventsOf (stamped earlier) last.key ++ [(revisionOf (earlier.length + 1), last)] := by
    rw [stamped_concat, eventsOf_append]
    simp [eventsOf]
  have hbefore : ∀ x ∈ eventsOf (stamped earlier) last.key, x.date < earlier.length + 1 := by
    intro x hx
    have := (lt_date_of_mem_stampedFrom (by omega) (mem_eventsOf.mp hx).1).2
    omega
  have hidle : Idle Event.date Event.dies (eventsOf (stamped (earlier ++ [last])) last.key)
      (revisionOf (earlier.length + 1), last) ↔
        last.isDelete = true ∧ life Event.dies (eventsOf (stamped earlier) last.key) = [] := by
    have hcut : (eventsOf (stamped (earlier ++ [last])) last.key).filter
        (fun x => x.date < earlier.length + 1) = eventsOf (stamped earlier) last.key := by
      rw [hevents, List.filter_append, List.filter_eq_self.mpr fun x hx =>
        decide_eq_true (hbefore x hx), List.filter_cons_of_neg (by simp [hdate])]
      simp
    rw [Idle, hdate, hcut]
    rfl
  unfold Survives
  rw [hidle, hdate]
  by_cases hlt : w < earlier.length + 1
  · exact iff_of_true (.inl hlt) fun h => by omega
  · have hall : upTo Event.date w (eventsOf (stamped (earlier ++ [last])) last.key) =
        eventsOf (stamped (earlier ++ [last])) last.key := by
      refine upTo_eq_self fun x hx => ?_
      rw [hevents] at hx
      rcases List.mem_append.mp hx with hx | hx
      · have := hbefore x hx
        omega
      · obtain rfl := List.mem_singleton.mp hx
        omega
    rw [inForce, hall, hevents]
    cases hdel : last.isDelete with
    | false =>
      refine iff_of_true (.inr (.inl ?_)) (by simp)
      rw [life_concat_alive (by exact hdel), List.getLast?_concat]
    | true =>
      rw [life_concat_dies (by exact hdel)]
      simp [hlt]
      omega

/-- The newest mutation is forgotten when it deletes a key that existed and everything was
compacted. -/
theorem newestForgotten_concat {earlier : List Mutation} {last : Mutation}
    (hsplit : m.mutations = earlier ++ [last]) (hcount : earlier.length ≤ i64Max) :
    NewestForgotten m ↔ m.watermark = (earlier ++ [last]).length ∧ last.isDelete = true ∧
      life Event.dies (eventsOf (stamped earlier) last.key) ≠ [] := by
  have hlife := lifeAt_newest hcount
  rw [NewestForgotten, MultiVersion.current, hsplit]
  refine and_congr Iff.rfl ⟨?_, ?_⟩
  · rintro ⟨earlier', key, hm, hview⟩
    obtain ⟨rfl, hlast⟩ := List.append_inj' hm rfl
    obtain rfl := List.singleton_inj.mp hlast
    rw [view_isSome, hlife] at hview
    exact ⟨rfl, hview⟩
  · rintro ⟨hdel, hlive⟩
    cases last with
    | put key value => cases hdel
    | delete key => exact ⟨earlier, key, rfl, by rw [view_isSome, hlife]; exact hlive⟩

/-- What is kept is older than the newest mutation, or it is that one. -/
theorem kept_concat {earlier : List Mutation} {last : Mutation}
    (hsplit : m.mutations = earlier ++ [last]) :
    ∃ older, older.Sublist (stamped earlier) ∧ kept m.watermark m.events = older ++
      if Survives Event.date Event.dies m.watermark
          (eventsOf (stamped (earlier ++ [last])) last.key) (revisionOf (earlier.length + 1), last)
        then [(revisionOf (earlier.length + 1), last)] else [] := by
  have hs : stamped (earlier ++ [last]) = m.events := by rw [MultiVersion.events, hsplit]
  refine ⟨_, List.filter_sublist (p := fun e => decide (Survives Event.date Event.dies m.watermark
    (eventsOf m.events e.2.key) e)), ?_⟩
  rw [hs, kept]
  conv_lhs => rw [← hs, stamped_concat, List.filter_append]
  rw [← stamped_concat, hs]
  congr 1
  rw [List.filter_cons]
  simp only [decide_eq_true_eq, List.filter_nil]

/-- A store opened again reports the revision of the live one exactly when the newest
mutation was not forgotten.
SOURCE: crates/mvcc/src/store.rs:66-117 -/
theorem newestOf_kept (h : Represents m s) :
    newestOf Revision.zero (kept m.watermark m.events) = s.state.current ↔
      ¬ NewestForgotten m := by
  rw [h.current]
  obtain hnil | ⟨earlier, last, hsplit⟩ := List.eq_nil_or_concat m.mutations
  · have hnone : ¬ NewestForgotten m := by
      rintro ⟨-, earlier, key, hm, -⟩
      rw [hnil] at hm
      simp at hm
    refine iff_of_true ?_ hnone
    simp [MultiVersion.events, MultiVersion.current, hnil, stamped, stampedFrom, kept, newestOf,
      revisionOf, Revision.zero]
  rw [List.concat_eq_append] at hsplit
  have hcount : (earlier ++ [last]).length ≤ i64Max := hsplit ▸ h.fits.count
  have hcount' : earlier.length + 1 ≤ i64Max := by simpa using hcount
  have hle : m.watermark ≤ (earlier ++ [last]).length := by
    rw [← hsplit]; exact h.watermark_le
  have hcur : m.current = earlier.length + 1 := by
    simp [MultiVersion.current, hsplit]
  have hdated : Dated Event.date (kept m.watermark m.events) :=
    h.dated.sublist List.filter_sublist
  obtain ⟨older, holder, hkept⟩ := kept_concat hsplit
  rw [newestForgotten_concat hsplit (by omega), ← survives_newest hcount hle, hcur]
  rw [hkept] at hdated ⊢
  by_cases hs : Survives Event.date Event.dies m.watermark
      (eventsOf (stamped (earlier ++ [last])) last.key) (revisionOf (earlier.length + 1), last)
  · rw [if_pos hs] at hdated ⊢
    exact iff_of_true (newestOf_concat hdated) hs
  · -- all that is kept is older
    rw [if_neg hs, List.append_nil] at hdated ⊢
    refine iff_of_false (fun heq => ?_) hs
    have hbound : (newestOf Revision.zero older).main ≤ earlier.length := by
      refine newestOf_le hdated fun e he => ?_
      have := (lt_date_of_mem_stampedFrom (by omega) (holder.subset he)).2
      omega
    rw [heq] at hbound
    have hmain : (revisionOf (earlier.length + 1)).main = earlier.length + 1 :=
      Nat.min_eq_left hcount'
    omega

/-- A store opened again over the contents any run leaves opens without an error and
reports the live store's revision exactly when the newest mutation was not forgotten.
SOURCE: crates/mvcc/src/store.rs:66-117 -/
theorem reopened_current (calls : List Call) (hfits : Fits (MultiVersion.run calls).mutations) :
    ∃ state, openStore (KvStore.run calls).engine = (.ok state, (KvStore.run calls).engine) ∧
      (state.current = (KvStore.run calls).state.current ↔
        ¬ NewestForgotten (MultiVersion.run calls)) := by
  obtain ⟨hrep, hcalm⟩ := represents_run calls hfits
  obtain ⟨marker, hholds⟩ := hrep.contents
  exact ⟨_, openStore_eq hholds hcalm, newestOf_kept hrep⟩

theorem reopened_current_recreated :
    ∃ state, openStore (KvStore.run recreated).engine = (.ok state, (KvStore.run recreated).engine) ∧
      (state.current = (KvStore.run recreated).state.current ↔
        ¬ NewestForgotten (MultiVersion.run recreated)) :=
  reopened_current recreated ⟨by decide, by decide⟩

/-- A deletion, compacted as the newest revision, takes the revision counter with it: the
store opened again starts from nothing. -/
theorem reopened_current_forgotten :
    ¬ ∀ calls, Fits (MultiVersion.run calls).mutations →
      ∃ state engine, openStore (KvStore.run calls).engine = (.ok state, engine) ∧
        state.current = (KvStore.run calls).state.current := by
  intro h
  obtain ⟨state, engine, hopen, hcurrent⟩ :=
    h [.apply [.put [107] [118]] 1, .apply [.delete [107]] 2, .compact 2]
      ⟨by decide, by decide⟩
  have hfresh : (openStore (KvStore.run [.apply [.put [107] [118]] 1, .apply [.delete [107]] 2,
      .compact 2]).engine).1.toOption.map (·.current) ≠
      some (KvStore.run [.apply [.put [107] [118]] 1, .apply [.delete [107]] 2,
        .compact 2]).state.current := by decide +kernel
  rw [hopen, ← hcurrent] at hfresh
  exact hfresh rfl

/-! ## Ages -/

/-- A key's surviving events are what its events retain. -/
theorem eventsOf_kept (events : List Event) (w : ℕ) (key : Bytes) :
    eventsOf (kept w events) key =
      retained Event.date Event.dies w (eventsOf events key) := by
  unfold eventsOf kept retained
  rw [List.filter_filter, List.filter_filter]
  refine List.filter_congr fun e _ => ?_
  by_cases hkey : e.2.key = key
  · subst hkey
    simp only [decide_true, Bool.true_and, Bool.and_true]
    rfl
  · simp [hkey]

theorem lifeAt_kept {events : List Event} (hdated : Dated Event.date events) (w at_ : ℕ)
    (key : Bytes) : lifeAt (kept w events) at_ key = (lifeAt events at_ key).filter fun e =>
      decide (Survives Event.date Event.dies w (eventsOf events key) e) := by
  rw [lifeAt, eventsOf_kept, life_retained (dated_eventsOf hdated key)]
  rfl

/-- The records that survive a watermark tell the same of a key as long as they tell of as
many puts of the life it is in. -/
theorem view_kept_iff {events : List Event} (hdated : Dated Event.date events) {w at_ : ℕ}
    (hw : w ≤ at_) (key : Bytes) :
    (upTo Event.date w (lifeAt events at_ key)).length ≤ 1 ↔
      (view (kept w events) at_ key).map (·.version) = (view events at_ key).map (·.version) := by
  have hsurvive : (upTo Event.date w (lifeAt events at_ key)).length ≤ 1 ↔
      (lifeAt (kept w events) at_ key).length = (lifeAt events at_ key).length := by
    rw [lifeAt_kept hdated, List.length_filter_eq_length_iff]
    simp only [decide_eq_true_eq]
    exact (life_survives_iff (dated_eventsOf hdated key) hw).symm
  have hversion : ∀ es : List Event, (view es at_ key).map (·.version) =
      if (lifeAt es at_ key).length = 0 then none else some (lifeAt es at_ key).length := by
    intro es
    rw [view]
    cases hlife : lifeAt es at_ key with
    | nil => rfl
    | cons first rest =>
      rw [List.getLast?_eq_some_getLast (List.cons_ne_nil first rest)]
      rfl
  rw [hsurvive, hversion, hversion]
  constructor
  · intro h; rw [h]
  · intro h
    split_ifs at h <;> simp_all

/-- Reads at a revision past the watermark agree on the ages of the records exactly when,
of the life each key is in, at most one put is up to the watermark. -/
theorem sameAges_iff {events : List Event} {w at_ : ℕ} {live reopened : KvStore}
    (hlive : Shows events w live) (hreopened : Shows (kept w events) 0 reopened)
    (hcalm : live.engine.replies = []) (hcalm' : reopened.engine.replies = [])
    (hw : w ≤ at_) (hge : live.state.compacted ≤ at_) (hge' : reopened.state.compacted ≤ at_)
    (hle : at_ ≤ live.state.current.main) (hle' : at_ ≤ reopened.state.current.main) :
    SameAges live reopened at_ ↔
      ∀ key, (upTo Event.date w (lifeAt events at_ key)).length ≤ 1 := by
  have hread : ∀ bounds limit, Bounds.Built bounds →
      (range bounds (some at_) limit).exec live = (.ok (capped limit
        ((live.state.index.range bounds at_).map (tell events at_))), live) ∧
      (range bounds (some at_) limit).exec reopened = (.ok (capped limit
        ((reopened.state.index.range bounds at_).map (tell (kept w events) at_))),
          reopened) := by
    intro bounds limit hb
    obtain ⟨_, hexec, rfl⟩ := returns_of_calm (reads_range hlive.serves (Index.refuses_built _ hb) limit
      (some at_) rfl hw hge hle) hcalm
    obtain ⟨_, hexec', rfl⟩ := returns_of_calm (reads_range hreopened.serves (Index.refuses_built _ hb) limit
      (some at_) rfl (Nat.zero_le _) hge' hle') hcalm'
    exact ⟨hexec, hexec'⟩
  constructor
  · intro h key
    obtain ⟨records, records', hexec, hexec', hages⟩ := h Bounds.all none .all
    obtain ⟨hexec1, hexec1'⟩ := hread Bounds.all none .all
    rw [hexec1] at hexec
    rw [hexec1'] at hexec'
    cases hexec
    cases hexec'
    have hlists := lists_tell Bounds.all hlive.serves hw
    have hlists' := lists_tell Bounds.all hreopened.serves (Nat.zero_le at_)
    -- a key's version is read off the ages alone
    have hversion : ∀ {es : List Event} {l : List Record}, Lists es Bounds.all at_ l →
        (view es at_ key).map (·.version) =
          ((l.map fun r => (r.key, r.created, r.version)).find? fun p => p.1 = key).map
            (·.2.2) := by
      intro es l hl
      rw [hl.view_eq_find rfl, List.find?_map, Option.map_map]
      rfl
    simp only [capped] at hages
    rw [view_kept_iff hlive.dated hw, hversion hlists', hversion hlists, hages]
  · intro h bounds limit hb
    obtain ⟨hexec, hexec'⟩ := hread bounds limit hb
    refine ⟨_, _, hexec, hexec', ?_⟩
    have hview : ∀ key, view events at_ key = view (kept w events) at_ key := by
      intro key
      have hsame : lifeAt (kept w events) at_ key = lifeAt events at_ key := by
        rw [lifeAt_kept hlive.dated, List.filter_eq_self]
        intro e he
        exact decide_eq_true ((life_survives_iff (dated_eventsOf hlive.dated key) hw).mpr
          (h key) e he)
      rw [view, view, hsame]
    rw [(lists_tell bounds hlive.serves hw).unique (lists_tell bounds hreopened.serves (Nat.zero_le at_)) hview]

/-- A store opened again over the contents any run leaves agrees with the live one, at a
revision both accept, on the creation and the version of every record exactly when at most
one put of each life is at or below the last watermark.
SOURCE: crates/mvcc/src/store.rs:66-117, crates/mvcc/src/index.rs:166-210 -/
theorem reopened_ages (calls : List Call) (hfits : Fits (MultiVersion.run calls).mutations) :
    ∃ state, openStore (KvStore.run calls).engine = (.ok state, (KvStore.run calls).engine) ∧
      ∀ at_, (MultiVersion.run calls).watermark ≤ at_ → at_ ≤ (MultiVersion.run calls).current →
        at_ ≤ state.current.main →
        (SameAges (KvStore.run calls) ⟨(KvStore.run calls).engine, state⟩ at_ ↔
          ∀ key, (upTo Event.date (MultiVersion.run calls).watermark
            (lifeAt (MultiVersion.run calls).events at_ key)).length ≤ 1) := by
  obtain ⟨hrep, hcalm⟩ := represents_run calls hfits
  obtain ⟨marker, hholds⟩ := hrep.contents
  refine ⟨_, openStore_eq hholds hcalm, fun at_ hge hle hle' => ?_⟩
  have hsub : ∀ e ∈ kept (MultiVersion.run calls).watermark (MultiVersion.run calls).events,
      e ∈ (MultiVersion.run calls).events := fun e he => List.mem_of_mem_filter he
  exact sameAges_iff hrep.shows
    (shows_restored hholds (hrep.dated.sublist List.filter_sublist)
      (fun e he => hrep.shows.keys e (hsub e he))
      fun e he => pos_of_mem_stamped hrep.fits.count (hsub e he))
    hcalm hcalm hge (hrep.compacted.symm ▸ hge) (Nat.zero_le _) (hrep.current_main.symm ▸ hle) hle'

theorem reopened_ages_recreated :
    ∃ state, openStore (KvStore.run recreated).engine = (.ok state, (KvStore.run recreated).engine) ∧
      ∀ at_, (MultiVersion.run recreated).watermark ≤ at_ →
        at_ ≤ (MultiVersion.run recreated).current → at_ ≤ state.current.main →
        (SameAges (KvStore.run recreated) ⟨(KvStore.run recreated).engine, state⟩ at_ ↔
          ∀ key, (upTo Event.date (MultiVersion.run recreated).watermark
            (lifeAt (MultiVersion.run recreated).events at_ key)).length ≤ 1) :=
  reopened_ages recreated ⟨by decide, by decide⟩

/-- The ages of all the records a store shows at a revision. -/
def agesAt (s : KvStore) (at_ : ℕ) : Option (List (Bytes × Revision × ℕ)) :=
  ((range Bounds.all (some at_) none).exec s).1.toOption.map fun records =>
    records.map fun r => (r.key, r.created, r.version)

theorem SameAges.agesAt {live reopened : KvStore} {at_ : ℕ} (h : SameAges live reopened at_) :
    agesAt live at_ = agesAt reopened at_ := by
  obtain ⟨records, records', hexec, hexec', hages⟩ := h Bounds.all none .all
  rw [Mvcc.agesAt, Mvcc.agesAt, hexec, hexec']
  exact congrArg some hages

/-- A key put four times and compacted at the third comes back, in a store opened again, as
if it had been created there. -/
theorem reopened_ages_forgotten :
    ¬ ∀ calls, Fits (MultiVersion.run calls).mutations → ∀ state engine,
      openStore (KvStore.run calls).engine = (.ok state, engine) →
      ∀ at_, (MultiVersion.run calls).watermark ≤ at_ → at_ ≤ (MultiVersion.run calls).current →
        at_ ≤ state.current.main → SameAges (KvStore.run calls) ⟨engine, state⟩ at_ := by
  intro h
  have hcurrent : (openStore (KvStore.run [.apply (List.replicate 4 (.put [107] [118])) 4,
      .compact 3]).engine).1.toOption.map (·.current.main) = some 4 := by decide +kernel
  have hages : ((openStore (KvStore.run [.apply (List.replicate 4 (.put [107] [118])) 4,
      .compact 3]).engine).1.toOption.map fun state => agesAt ⟨(openStore (KvStore.run
        [.apply (List.replicate 4 (.put [107] [118])) 4, .compact 3]).engine).2, state⟩ 3) ≠
      some (agesAt (KvStore.run [.apply (List.replicate 4 (.put [107] [118])) 4, .compact 3]) 3) := by
    decide +kernel
  rcases hopen : openStore (KvStore.run [.apply (List.replicate 4 (.put [107] [118])) 4,
      .compact 3]).engine with ⟨_ | state, engine⟩
  · rw [hopen] at hcurrent
    cases hcurrent
  · rw [hopen] at hcurrent hages
    have hle : 3 ≤ state.current.main := by
      have hfour : state.current.main = 4 := Option.some.inj hcurrent
      omega
    have hsame := h _ ⟨by decide, by decide⟩ state engine hopen 3 (by decide) (by decide) hle
    exact hages (congrArg some hsame.agesAt.symm)

end Hadar.Mvcc
