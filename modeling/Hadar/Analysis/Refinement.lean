import Hadar.Analysis.Compacting
import Hadar.Analysis.Paging

/-!
# The store refines the multi-version map

Every call keeps the relation between the store and the map it represents, so after any
run the store represents the map after the same run, and a store that represents a map
answers as the map does.
-/

set_option autoImplicit false

namespace Hadar.Mvcc

open Hadar.Lib Hadar.Lib.Prog Hadar.Storage Std

/-! ## Stores that represent a map -/

variable {m : MultiVersion} {s : KvStore}

/-- The store is the one the map describes. -/
structure Represents (m : MultiVersion) (s : KvStore) : Prop where
  fits : Fits m.mutations
  watermark_le : m.watermark ≤ m.current
  current : s.state.current = revisionOf m.current
  compacted : s.state.compacted = m.watermark
  index : Indexes m.events m.watermark s.state.index
  contents : ∃ marker, Holds s.engine.committed marker (kept m.watermark m.events)

/-- The store's own state is the map's, whatever the backend holds. -/
structure Live (m : MultiVersion) (s : KvStore) : Prop where
  count : m.mutations.length ≤ i64Max
  watermark_le : m.watermark ≤ m.current
  current : s.state.current = revisionOf m.current
  index : Indexes m.events m.watermark s.state.index

theorem Live.dated (h : Live m s) : Dated Event.date m.events := dated_stamped h.count

theorem Live.current_main (h : Live m s) : s.state.current.main = m.current := by
  rw [h.current]
  exact Nat.min_eq_left h.count

/-- A batch's events join the map's, all of them past the watermark.
SOURCE: crates/mvcc/src/store.rs:171-213 -/
theorem Live.entered (h : Live m s) {batch : List Mutation} {upto : ℕ} {s' : KvStore}
    (hcount : m.current + batch.length ≤ i64Max)
    (hstate : s'.state = s.state.entered (stampedFrom m.current batch)
      (revisionOf (m.current + batch.length)) upto) :
    Dated Event.date (m.events ++ stampedFrom m.current batch) ∧
      (∀ e ∈ stampedFrom m.current batch, m.watermark < e.date) ∧
      Live { m with mutations := m.mutations ++ batch } s' := by
  have hevents : stamped (m.mutations ++ batch) = m.events ++ stampedFrom m.current batch :=
    stamped_append _ _
  have hcount' : (m.mutations ++ batch).length ≤ i64Max := by
    rw [List.length_append]
    exact hcount
  have hdated : Dated Event.date (m.events ++ stampedFrom m.current batch) := by
    rw [← hevents]
    exact dated_stamped hcount'
  have hle := h.watermark_le
  have hw : ∀ e ∈ stampedFrom m.current batch, m.watermark < e.date := by
    intro e he
    have := (lt_date_of_mem_stampedFrom (n := m.current) hcount he).1
    omega
  refine ⟨hdated, hw, hcount', ?_, ?_, ?_⟩
  · simp only [MultiVersion.current, List.length_append] at hle ⊢
    omega
  · rw [hstate]
    simp [State.entered, MultiVersion.current]
  · rw [hstate, MultiVersion.events, hevents]
    exact h.index.enter_all hdated hw

theorem Represents.live (h : Represents m s) : Live m s :=
  ⟨h.fits.count, h.watermark_le, h.current, h.index⟩

theorem Represents.dated (h : Represents m s) : Dated Event.date m.events := h.live.dated

theorem Represents.current_main (h : Represents m s) : s.state.current.main = m.current :=
  h.live.current_main

theorem Represents.shows (h : Represents m s) : Shows m.events m.watermark s where
  dated := h.dated
  keys := fun e he => h.fits.keys e.2 (mem_of_mem_stampedFrom he)
  index := h.index
  contents := h.contents

/-! ## One call -/

theorem Fits.append_left {a b : List Mutation} (h : Fits (a ++ b)) : Fits a where
  keys := fun x hx => h.keys x (List.mem_append_left _ hx)
  count := by
    have := h.count
    rw [List.length_append] at this
    omega

theorem Fits.append {a b : List Mutation} (h : Fits a) (hkeys : ∀ m ∈ b, m.key.length ≤ u32Max)
    (hcount : a.length + b.length ≤ i64Max) : Fits (a ++ b) where
  keys := fun x hx => (List.mem_append.mp hx).elim (h.keys x) (hkeys x)
  count := by rwa [List.length_append]

/-- Later events do not change what survives a watermark before them. -/
theorem survives_append {events batch : List Event} {w : ℕ} {e : Event}
    (hdated : Dated Event.date (events ++ batch)) (hw : ∀ x ∈ batch, w < x.date)
    (he : e ∈ events) (k : Bytes) :
    Survives Event.date Event.dies w (eventsOf (events ++ batch) k) e ↔
      Survives Event.date Event.dies w (eventsOf events k) e := by
  have hlater : ∀ x ∈ eventsOf batch k, w < x.date ∧ e.date < x.date := by
    intro x hx
    have hx' := (mem_eventsOf.mp hx).1
    exact ⟨hw x hx', (List.pairwise_append.mp hdated).2.2 e he x hx'⟩
  have hforce : inForce Event.date Event.dies w (eventsOf (events ++ batch) k) =
      inForce Event.date Event.dies w (eventsOf events k) := by
    rw [inForce, inForce, eventsOf_append, upTo_append,
      upTo_eq_nil fun x hx => (hlater x hx).1, List.append_nil]
  have hidle : Idle Event.date Event.dies (eventsOf (events ++ batch) k) e ↔
      Idle Event.date Event.dies (eventsOf events k) e := by
    have hnone : (eventsOf batch k).filter (fun x => x.date < e.date) = [] :=
      List.filter_eq_nil_iff.mpr fun x hx => by
        have := (hlater x hx).2
        simp; omega
    rw [Idle, Idle, eventsOf_append, List.filter_append, hnone, List.append_nil]
  unfold Survives
  rw [hforce, hidle]

/-- Every event past the watermark is kept. -/
theorem kept_append {events batch : List Event} {w : ℕ}
    (hdated : Dated Event.date (events ++ batch)) (hw : ∀ x ∈ batch, w < x.date) :
    kept w (events ++ batch) = kept w events ++ batch := by
  unfold kept
  rw [List.filter_append]
  congr 1
  · exact List.filter_congr fun e he => decide_eq_decide.mpr (survives_append hdated hw he _)
  · exact List.filter_eq_self.mpr fun e he => decide_eq_true (.inl (hw e he))

/-- The store is at the map's revisions, whatever keys it was given. -/
structure Carries (m : MultiVersion) (s : KvStore) : Prop where
  count : m.mutations.length ≤ i64Max
  watermark_le : m.watermark ≤ m.current
  current : s.state.current = revisionOf m.current
  compacted : s.state.compacted = m.watermark
  index : Indexes m.events m.watermark s.state.index
  contents : ∃ marker, Holds s.engine.committed marker (kept m.watermark m.events)

theorem Represents.carries (h : Represents m s) : Carries m s :=
  ⟨h.fits.count, h.watermark_le, h.current, h.compacted, h.index, h.contents⟩

theorem Carries.represents (h : Carries m s) (hfits : Fits m.mutations) : Represents m s :=
  ⟨hfits, h.watermark_le, h.current, h.compacted, h.index, h.contents⟩

theorem Carries.live (h : Carries m s) : Live m s := ⟨h.count, h.watermark_le, h.current, h.index⟩

/-- An accepted batch is appended to the map.
SOURCE: crates/mvcc/src/store.rs:171-213 -/
theorem Carries.apply (h : Carries m s) {batch : List Mutation} {upto : ℕ} {s' : KvStore}
    (hcount : m.current + batch.length ≤ i64Max)
    (hstate : s'.state = s.state.entered (stampedFrom m.current batch)
      (revisionOf (m.current + batch.length)) upto)
    (hcommits : s'.engine.commits = (enteredContents s.engine.committed
      (stampedFrom m.current batch)).insert appliedKey (encodePosition upto) ::
        s.engine.commits) :
    Carries { m with mutations := m.mutations ++ batch } s' := by
  obtain ⟨hdated, hw, hlive⟩ := h.live.entered hcount hstate
  have hevents : stamped (m.mutations ++ batch) = m.events ++ stampedFrom m.current batch :=
    stamped_append _ _
  obtain ⟨marker, hholds⟩ := h.contents
  refine ⟨hlive.count, hlive.watermark_le, hlive.current, ?_, hlive.index, some upto, ?_⟩
  · rw [hstate]
    exact h.compacted
  · rw [Engine.committed, hcommits, MultiVersion.events, hevents, kept_append hdated hw]
    refine Holds.mark (hholds.insert_all ?_) upto
    exact hdated.sublist (List.filter_sublist.append_right _)

/-- An accepted compaction moves the map's watermark.
SOURCE: crates/mvcc/src/store.rs:272-299 -/
theorem Carries.compact (h : Carries m s) {at_ chunk : ℕ} {s' : KvStore}
    (hge : m.watermark ≤ at_) (hle : at_ ≤ m.current)
    (hstate : s'.state =
      { s.state with index := (s.state.index.compact at_).1, compacted := at_ })
    (hcommits : s'.engine.commits =
      clearings s.engine.commits (chunks chunk (s.state.index.compact at_).2)) :
    Carries { m with watermark := at_ } s' := by
  obtain ⟨marker, hholds⟩ := h.contents
  refine ⟨h.count, hle, ?_, ?_, ?_, marker, ?_⟩
  · rw [hstate]; exact h.current
  · rw [hstate]
  · have hindex := h.index.compact h.live.dated at_
    rw [max_eq_right hge] at hindex
    rw [hstate]; exact hindex
  · rw [Engine.committed, hcommits, headD_clearings, flatten_chunks]
    have hheld := hholds.remove_all (s.state.index.compact at_).2
    rwa [kept_compact h.index h.live.dated at_, max_eq_right hge] at hheld

/-- What `apply` leaves, however its calls turn out.
SOURCE: crates/mvcc/src/store.rs:171-213 -/
theorem Carries.ends_apply (h : Carries m s) (batch : List Mutation) (upto : ℕ) :
    Ends (Mvcc.apply batch upto) s
      (fun _ s' => Carries { m with mutations := m.mutations ++ batch } s') (Fails False s)
      (Stops (i64Max < m.current + batch.length) s) :=
  Ends.mono (Mvcc.ends_apply h.current h.count batch upto)
    (fun _ _ hok => h.apply hok.1 hok.2.2.1 hok.2.2.2.1) (fun _ _ h => h) fun _ h => h

theorem Carries.later (h : Carries m s) {s' : KvStore} (hlater : s.Later s') : Carries m s' := by
  refine ⟨h.count, h.watermark_le, ?_, ?_, ?_, ?_⟩
  · rw [hlater.state]; exact h.current
  · rw [hlater.state]; exact h.compacted
  · rw [hlater.state]; exact h.index
  · rw [hlater.engine.committed]; exact h.contents

/-- What `compact` returns within the two revisions `at_` may lie between. -/
theorem Carries.of_compact_ok (h : Carries m s) {chunk at_ n : ℕ} {s' : KvStore}
    (hok : (compactBy chunk at_).exec s = (.ok n, s')) :
    m.watermark ≤ at_ ∧ at_ ≤ m.current ∧ Carries { m with watermark := at_ } s' := by
  have hin : at_ ≤ s.state.current.main ∧ s.state.compacted ≤ at_ := by
    by_contra hout
    obtain ⟨e, hexec⟩ := exec_compactBy_refused chunk at_ (s := s) (by omega)
    rw [hexec] at hok
    cases hok
  obtain ⟨hle, hge⟩ := hin
  obtain ⟨-, hstate, hcommits, -⟩ := (ends_compactBy chunk at_ hle hge).of_ok hok
  rw [h.live.current_main] at hle
  rw [h.compacted] at hge
  exact ⟨hge, hle, h.compact hge hle hstate hcommits⟩

theorem Represents.apply (h : Represents m s) {batch : List Mutation} {upto : ℕ} {s' : KvStore}
    (hfits : Fits (m.mutations ++ batch))
    (hstate : s'.state = s.state.entered (stampedFrom m.current batch)
      (revisionOf (m.current + batch.length)) upto)
    (hcommits : s'.engine.commits = (enteredContents s.engine.committed
      (stampedFrom m.current batch)).insert appliedKey (encodePosition upto) ::
        s.engine.commits) :
    Represents { m with mutations := m.mutations ++ batch } s' := by
  have hcount := hfits.count
  rw [List.length_append] at hcount
  exact (h.carries.apply hcount hstate hcommits).represents hfits

theorem Represents.compact (h : Represents m s) {at_ chunk : ℕ} {s' : KvStore}
    (hge : m.watermark ≤ at_) (hle : at_ ≤ m.current)
    (hstate : s'.state =
      { s.state with index := (s.state.index.compact at_).1, compacted := at_ })
    (hcommits : s'.engine.commits =
      clearings s.engine.commits (chunks chunk (s.state.index.compact at_).2)) :
    Represents { m with watermark := at_ } s' :=
  (h.carries.compact hge hle hstate hcommits).represents h.fits

/-- What `apply` returns and leaves when the engine never fails. -/
theorem exec_apply (h : Represents m s) (hcalm : s.engine.replies = []) {batch : List Mutation}
    (hfits : Fits (m.mutations ++ batch)) (upto : ℕ) :
    ∃ s', (apply batch upto).exec s =
        (.ok ((stampedFrom m.current batch).map (·.1)), s') ∧
      Represents { m with mutations := m.mutations ++ batch } s' ∧ s'.engine.replies = [] ∧
      s'.state.applied = upto := by
  have hcount := hfits.count
  rw [List.length_append] at hcount
  obtain ⟨hrefuses, hcrashes⟩ := Engine.calm hcalm
  obtain ⟨revisions, s', hexec, -, hrevs, hstate, hcommits, -, hreplies⟩ :=
    Ends.returns (Ends.mono (ends_apply h.current h.fits.count batch upto) (fun _ _ h => h)
      (fun _ _ h => h.2.elim hrefuses id) fun _ hd => hd.2.elim hcrashes fun hover => by
        have : m.current = m.mutations.length := rfl
        omega)
  rw [hcalm, List.suffix_nil] at hreplies
  refine ⟨s', by rw [hexec, hrevs], h.apply hfits hstate hcommits, hreplies, ?_⟩
  rw [hstate]; rfl

/-- What `compact` returns and leaves when the engine never fails. -/
theorem exec_compact (h : Represents m s) (hcalm : s.engine.replies = []) (at_ : ℕ) :
    (m.watermark ≤ at_ ∧ at_ ≤ m.current ∧ ∃ n s', (compact at_).exec s = (.ok n, s') ∧
        Represents { m with watermark := at_ } s' ∧ s'.engine.replies = []) ∨
      (¬(m.watermark ≤ at_ ∧ at_ ≤ m.current) ∧
        ∃ e, (compact at_).exec s = (.error (.error e), s)) := by
  have hcur := h.current_main
  by_cases hin : m.watermark ≤ at_ ∧ at_ ≤ m.current
  · obtain ⟨hge, hle⟩ := hin
    obtain ⟨s', hexec, hstate, hcommits, hreplies⟩ :=
      exec_compactBy_calm (compactChunk - 1) (s := s) (hcur ▸ hle) (h.compacted.le.trans hge) hcalm
    exact .inl ⟨hge, hle, _, s', hexec, h.compact hge hle hstate hcommits, hreplies⟩
  · refine .inr ⟨hin, exec_compactBy_refused _ _ ?_⟩
    rw [hcur, h.compacted]
    omega

/-! ## Runs -/

/-- A call keeps the relation. -/
theorem Represents.after (h : Represents m s) (hcalm : s.engine.replies = []) (call : Call)
    (hfits : Fits (m.after call).mutations) :
    Represents (m.after call) (s.after call) ∧ (s.after call).engine.replies = [] := by
  cases call with
  | apply batch upto =>
    obtain ⟨s', hexec, hrep, hreplies, -⟩ := exec_apply h hcalm hfits upto
    rw [KvStore.after, hexec]
    exact ⟨hrep, hreplies⟩
  | compact at_ =>
    rw [KvStore.after, MultiVersion.after]
    rcases exec_compact h hcalm at_ with ⟨hge, hle, n, s', hexec, hrep, hreplies⟩ | ⟨hout, e, hexec⟩
    · rw [hexec, if_pos ⟨hge, hle⟩]
      exact ⟨hrep, hreplies⟩
    · rw [hexec, if_neg hout]
      exact ⟨h, hcalm⟩

theorem represents_fresh : Represents MultiVersion.empty KvStore.fresh where
  fits := ⟨by simp [MultiVersion.empty], by simp [MultiVersion.empty]⟩
  watermark_le := le_rfl
  current := rfl
  compacted := rfl
  index := indexes_empty
  contents := ⟨none, holds_empty⟩

/-- The mutations of a run are those of its beginning and then more. -/
theorem fits_of_after {call : Call} (h : Fits (m.after call).mutations) : Fits m.mutations := by
  cases call with
  | apply batch upto => exact h.append_left
  | compact at_ =>
    unfold MultiVersion.after at h
    dsimp only at h
    split at h <;> exact h

/-- After any run the store represents the map after the same run. -/
theorem represents_run (calls : List Call) (hfits : Fits (MultiVersion.run calls).mutations) :
    Represents (MultiVersion.run calls) (KvStore.run calls) ∧
      (KvStore.run calls).engine.replies = [] := by
  induction calls using List.reverseRecOn with
  | nil => exact ⟨represents_fresh, rfl⟩
  | append_singleton calls call ih =>
    have hmap : MultiVersion.run (calls ++ [call]) = (MultiVersion.run calls).after call := by
      simp [MultiVersion.run]
    have hstore : KvStore.run (calls ++ [call]) = (KvStore.run calls).after call := by
      simp [KvStore.run]
    rw [hmap] at hfits ⊢
    rw [hstore]
    obtain ⟨hrep, hcalm⟩ := ih (fits_of_after hfits)
    exact hrep.after hcalm call hfits

/-- A read out of bounds is refused and changes nothing.
SOURCE: crates/mvcc/src/store.rs:301-310 -/
theorem exec_range_refused {bounds : Bounds} {requested limit : Option ℕ} {e : Error}
    (h : resolve s.state requested = .error e) :
    (range bounds requested limit).exec s = (.error (.error e), s) := by
  unfold range
  rw [exec_bind_ok (exec_get s), h]
  rfl

/-- The store refines the multi-version map: after any run over an engine whose calls all
succeed it answers every call and every read as the map does.
SOURCE: crates/mvcc/src/store.rs:171-310 -/
theorem run_answers (calls : List Call) (hfits : Fits (MultiVersion.run calls).mutations) :
    Answers (MultiVersion.run calls) (KvStore.run calls) := by
  obtain ⟨hrep, hcalm⟩ := represents_run calls hfits
  refine ⟨fun batch upto hbatch => ?_, fun at_ => ?_, fun bounds at_ limit hlt => ?_,
    fun bounds at_ limit hle hlt => ?_, fun bounds at_ limit hb hge hle => ?_,
    fun bounds limit => ?_⟩
  · obtain ⟨s', hexec, -⟩ := exec_apply hrep hcalm hbatch upto
    rw [hexec]
  · rcases exec_compact hrep hcalm at_ with ⟨hge, hle, n, s', hexec, -⟩ | ⟨hout, e, hexec⟩
    · exact iff_of_true ⟨n, by rw [hexec]⟩ ⟨hge, hle⟩
    · refine iff_of_false ?_ hout
      rintro ⟨n, hn⟩
      rw [hexec] at hn
      cases hn
  · refine exec_range_refused ?_
    rw [resolve, hrep.current_main, Option.getD_some, if_pos hlt]
  · refine exec_range_refused ?_
    rw [resolve, hrep.current_main, hrep.compacted, Option.getD_some, if_neg (by omega),
      if_pos hlt]
  · obtain ⟨records, hexec, rfl⟩ :=
      returns_of_calm (reads_range hrep.shows.serves (Index.refuses_built _ hb) limit (some at_) rfl hge
        (hrep.compacted.symm ▸ hge) (hrep.current_main.symm ▸ hle)) hcalm
    exact ⟨_, lists_tell bounds hrep.shows.serves hge, hexec⟩
  · have hresolve : resolve (KvStore.run calls).state none =
        resolve (KvStore.run calls).state (some (MultiVersion.run calls).current) := by
      rw [resolve, resolve, hrep.current_main]
      rfl
    unfold range
    rw [exec_bind_ok (exec_get _), exec_bind_ok (exec_get _), hresolve]

theorem run_answers_recreated : Answers (MultiVersion.run recreated) (KvStore.run recreated) :=
  run_answers recreated ⟨by decide, by decide⟩

end Hadar.Mvcc
