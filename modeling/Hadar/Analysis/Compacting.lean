import Hadar.Analysis.Reading

/-!
# Compacting the store

Compaction drops from the index what the new watermark can forget, and removes the records
of what was dropped chunk by chunk. Once every chunk is committed the backend holds the
records of the events that survive the new watermark, and the store represents the map
with its watermark moved.
-/

set_option autoImplicit false

namespace Hadar.Mvcc

open Hadar.Lib Hadar.Lib.Prog Hadar.Storage Std

variable {s : KvStore}

/-! ## Chunks -/

theorem flatten_chunks {β : Type} (n : ℕ) (l : List β) : (chunks n l).flatten = l := by
  induction hlen : l.length using Nat.strongRecOn generalizing l with
  | _ len ih =>
    cases l with
    | nil => rw [chunks]; rfl
    | cons x rest =>
      have hlt : (rest.drop n).length < len := by
        rw [← hlen, List.length_drop, List.length_cons]
        omega
      rw [chunks, List.flatten_cons, ih _ hlt _ rfl, List.cons_append, List.take_append_drop]

/-- The contents without the records of some revisions. -/
def clearedContents (contents : Keyspace) (chunk : List Revision) : Keyspace :=
  chunk.foldl (fun contents rev =>
    (contents.erase (backendKey rev false)).erase (backendKey rev true)) contents

theorem Holds.remove_all {contents : Keyspace} {marker : Option ℕ} {events : List Event}
    (h : Holds contents marker events) (chunk : List Revision) :
    Holds (clearedContents contents chunk) marker (events.filter fun e => e.1 ∉ chunk) := by
  induction chunk generalizing contents events with
  | nil => simpa [clearedContents] using h
  | cons rev rest ih =>
    have hsplit : (events.filter fun e => e.1 ∉ rev :: rest) =
        (events.filter fun e => e.1 ≠ rev).filter fun e => e.1 ∉ rest := by
      rw [List.filter_filter]
      exact List.filter_congr fun e _ => by simp [Bool.and_comm]
    rw [hsplit]
    exact ih (h.remove rev)

theorem reads_removeRecords (chunk : List Revision) (txn : WriteTxn) (s : KvStore) :
    Reads False False (removeRecords chunk txn) s (· = ⟨clearedContents txn.working chunk⟩) := by
  induction chunk generalizing txn s with
  | nil => exact Reads.pure rfl
  | cons rev rest ih =>
    refine Reads.bind (reads_onEngine (reads_remove _ _)) fun r s1 h1 _ => ?_
    refine Reads.bind (reads_onEngine (reads_remove _ _)) fun r' s2 h2 _ => ?_
    refine Ends.mono (ih r'.1 s2) (fun _ _ h => ⟨h.1.trans ?_, h.2⟩) (fun _ _ h => h) fun _ h => h
    rw [h2, h1]
    rfl

/-- The commits once some chunks were removed, newest first. -/
def clearings (commits : List Keyspace) : List (List Revision) → List Keyspace
  | [] => commits
  | chunk :: rest =>
    clearings (clearedContents (commits.headD ∅) chunk :: commits) rest

/-- After the chunks, the contents are without any of their revisions. -/
theorem headD_clearings (commits : List Keyspace) (cs : List (List Revision)) :
    (clearings commits cs).headD ∅ = clearedContents (commits.headD ∅) cs.flatten := by
  induction cs generalizing commits with
  | nil => rfl
  | cons chunk rest ih =>
    rw [clearings, ih]
    simp [clearedContents]

/-- The store once some chunks were committed: its state is untouched. -/
structure KvStore.Cleared (s s' : KvStore) (cs : List (List Revision)) : Prop where
  state : s'.state = s.state
  commits : s'.engine.commits = clearings s.engine.commits cs
  durable : s'.engine.durable = s.engine.durable
  replies : s'.engine.replies <:+ s.engine.replies

/-- The chunks are removed one commit at a time; a failure leaves those committed so far, and at
least one is not.
SOURCE: crates/mvcc/src/store.rs:284-295 -/
theorem ends_removeChunks (cs : List (List Revision)) (s : KvStore) :
    Ends (removeChunks cs) s (fun _ s' => s.Cleared s' cs)
      (fun _ s' => (∃ done rest, cs = done ++ rest ∧ rest ≠ [] ∧ s.Cleared s' done) ∧
        Faults.Refuses s)
      (fun s' => (∃ done rest, cs = done ++ rest ∧ rest ≠ [] ∧ s.Cleared s' done) ∧
        Faults.Crashes s) := by
  induction cs generalizing s with
  | nil => exact ends_pure.mpr ⟨rfl, rfl, rfl, List.suffix_refl _⟩
  | cons chunk rest ih =>
    -- a failure before this chunk's commit leaves nothing of it done
    have hnone : ∀ {s'}, s.Later s' → ∃ done rest', chunk :: rest = done ++ rest' ∧ rest' ≠ [] ∧
        s.Cleared s' done := fun h => ⟨[], _, rfl, List.cons_ne_nil _ _, h.state,
      h.engine.commits, h.engine.durable, h.engine.replies⟩
    refine ends_bind.mpr (Ends.mono (reads_onEngine reads_beginWrite)
      (fun txn s1 h => ?_) (fun _ _ h => ⟨hnone h.1, h.2.resolve_right id⟩)
      fun _ h => ⟨hnone h.1, h.2.resolve_right id⟩)
    obtain ⟨rfl, h1⟩ := h
    refine ends_bind.mpr (Ends.mono (reads_removeRecords _ _ s1) (fun txn s2 h => ?_)
      (fun _ _ h => ⟨hnone (Faults.trans h1 h.1), Faults.refuses h1 (h.2.resolve_right id)⟩)
      fun _ h => ⟨hnone (Faults.trans h1 h.1), Faults.crashes h1 (h.2.resolve_right id)⟩)
    obtain ⟨rfl, h2⟩ := h
    have hlater : s.Later s2 := Faults.trans h1 h2
    refine ends_bind.mpr (ends_zoom.mpr (Ends.mono (ends_commit _) (fun _ e' h => ?_)
      (fun _ _ h => ⟨hnone (hlater.trans ⟨rfl, h.1⟩),
        Faults.refuses hlater (h.2.resolve_right id)⟩)
      fun _ h => ⟨hnone (hlater.trans ⟨rfl, h.1⟩),
        Faults.crashes hlater (h.2.resolve_right id)⟩))
    obtain ⟨hcommits, hdurable, hreplies⟩ := h
    have hone : ∀ {s' : KvStore} {cs : List (List Revision)},
        KvStore.Cleared { s2 with engine := e' } s' cs → s.Cleared s' (chunk :: cs) := by
      intro s' cs hc
      refine ⟨hc.state.trans hlater.state, ?_, ?_, ?_⟩
      · rw [hc.commits]
        simp only [hcommits, hlater.engine.commits]
        rfl
      · exact hc.durable.trans (hdurable.trans hlater.engine.durable)
      · exact hc.replies.trans (hreplies.trans hlater.engine.replies)
    refine Ends.mono (ih { s2 with engine := e' }) (fun _ _ h => hone h) ?_ ?_
    · rintro _ s' ⟨⟨done, rest', rfl, hne, hc⟩, x, applied, hmem⟩
      exact ⟨⟨chunk :: done, rest', rfl, hne, hone hc⟩, x, applied,
        (hreplies.trans hlater.engine.replies).subset hmem⟩
    · rintro s' ⟨⟨done, rest', rfl, hne, hc⟩, hmem⟩
      exact ⟨⟨chunk :: done, rest', rfl, hne, hone hc⟩,
        (hreplies.trans hlater.engine.replies).subset hmem⟩

/-! ## The method -/

/-- A compaction out of bounds is refused and changes nothing.
SOURCE: crates/mvcc/src/store.rs:274-279 -/
theorem exec_compactBy_refused (chunk at_ : ℕ)
    (h : at_ > s.state.current.main ∨ at_ < s.state.compacted) :
    ∃ e, (compactBy chunk at_).exec s = (.error (.error e), s) := by
  unfold compactBy
  rw [exec_bind_ok (exec_get s)]
  by_cases hfuture : at_ > s.state.current.main
  · rw [if_pos hfuture]
    exact ⟨_, rfl⟩
  · rw [if_neg hfuture, if_pos (h.resolve_left hfuture)]
    exact ⟨_, rfl⟩

/-- A compaction within bounds trims the index, removes what that dropped, and moves the
watermark.
SOURCE: crates/mvcc/src/store.rs:272-299 -/
theorem ends_compactBy (chunk at_ : ℕ) (hle : at_ ≤ s.state.current.main)
    (hge : s.state.compacted ≤ at_) :
    Ends (compactBy chunk at_) s
      (fun n s' => n = (s.state.index.compact at_).2.length ∧
        s'.state = { s.state with index := (s.state.index.compact at_).1, compacted := at_ } ∧
        s'.engine.commits =
          clearings s.engine.commits (chunks chunk (s.state.index.compact at_).2) ∧
        s'.engine.durable = s.engine.durable ∧ s'.engine.replies <:+ s.engine.replies)
      (fun _ s' => s'.state = { s.state with index := (s.state.index.compact at_).1 } ∧
        (∃ done rest, chunks chunk (s.state.index.compact at_).2 = done ++ rest ∧ rest ≠ [] ∧
          s'.engine.commits = clearings s.engine.commits done) ∧ Faults.Refuses s)
      (fun s' => s'.state = { s.state with index := (s.state.index.compact at_).1 } ∧
        (∃ done rest, chunks chunk (s.state.index.compact at_).2 = done ++ rest ∧ rest ≠ [] ∧
          s'.engine.commits = clearings s.engine.commits done) ∧ Faults.Crashes s) := by
  refine ends_bind.mpr (ends_get.mpr ?_)
  rw [if_neg (by omega), if_neg (by omega)]
  refine ends_bind.mpr (ends_modify.mpr (ends_bind.mpr ?_))
  refine Ends.mono (ends_removeChunks _ _) (fun _ s1 h => ?_) ?_ ?_
  · refine ends_bind.mpr (ends_modify.mpr (ends_pure.mpr ⟨rfl, ?_, h.commits, h.durable,
      h.replies⟩))
    rw [h.state]
    rfl
  · rintro _ s1 ⟨⟨done, rest, hsplit, hne, h⟩, hr⟩
    exact ⟨h.state, ⟨done, rest, hsplit, hne, h.commits⟩, hr⟩
  · rintro s1 ⟨⟨done, rest, hsplit, hne, h⟩, hc⟩
    exact ⟨h.state, ⟨done, rest, hsplit, hne, h.commits⟩, hc⟩

/-- Where no call is refused and nothing stops, a compaction within bounds succeeds. -/
theorem exec_compactBy_calm (chunk : ℕ) {at_ : ℕ} (hle : at_ ≤ s.state.current.main)
    (hge : s.state.compacted ≤ at_) (hcalm : s.engine.replies = []) :
    ∃ s', (compactBy chunk at_).exec s = (.ok (s.state.index.compact at_).2.length, s') ∧
      s'.state = { s.state with index := (s.state.index.compact at_).1, compacted := at_ } ∧
      s'.engine.commits =
        clearings s.engine.commits (chunks chunk (s.state.index.compact at_).2) ∧
      s'.engine.replies = [] := by
  obtain ⟨hrefuses, hcrashes⟩ := Engine.calm hcalm
  obtain ⟨n, s', hexec, rfl, hstate, hcommits, -, hreplies⟩ :=
    Ends.returns (Ends.mono (ends_compactBy chunk at_ hle hge) (fun _ _ h => h)
      (fun _ _ h => hrefuses h.2.2) fun _ h => hcrashes h.2.2)
  rw [hcalm, List.suffix_nil] at hreplies
  exact ⟨s', hexec, hstate, hcommits, hreplies⟩

/-- What a compaction leaves that began, however it ended: the index is trimmed, and the first of
its chunks are committed. -/
structure KvStore.Trimmed (s s' : KvStore) (chunk at_ : ℕ) : Prop where
  index : s'.state.index = (s.state.index.compact at_).1
  current : s'.state.current = s.state.current
  compacted : s'.state.compacted = at_ ∨ s'.state.compacted = s.state.compacted
  commits : ∃ done rest, chunks chunk (s.state.index.compact at_).2 = done ++ rest ∧
    s'.engine.commits = clearings s.engine.commits done

theorem trimmed_of_compactBy {chunk at_ : ℕ} {outcome : Except (Stop Error) ℕ} {s' : KvStore}
    (hle : at_ ≤ s.state.current.main) (hge : s.state.compacted ≤ at_)
    (ran : (compactBy chunk at_).exec s = (outcome, s')) : s.Trimmed s' chunk at_ := by
  have hleft := Ends.left (P := fun s' => s.Trimmed s' chunk at_)
    (Ends.mono (ends_compactBy chunk at_ hle hge) ?_ ?_ ?_)
  · rw [ran] at hleft
    exact hleft
  · rintro n s' ⟨-, hstate, hcommits, -⟩
    exact ⟨by rw [hstate], by rw [hstate], .inl (by rw [hstate]), _, [], (List.append_nil _).symm,
      hcommits⟩
  · rintro e s' ⟨hstate, ⟨done, rest, hsplit, -, hcommits⟩, -⟩
    exact ⟨by rw [hstate], by rw [hstate], .inr (by rw [hstate]), done, rest, hsplit, hcommits⟩
  · rintro s' ⟨hstate, ⟨done, rest, hsplit, -, hcommits⟩, -⟩
    exact ⟨by rw [hstate], by rw [hstate], .inr (by rw [hstate]), done, rest, hsplit, hcommits⟩

/-! ## What compaction removes -/

/-- Whether the index holds an event's revision under a watermark. -/
def Indexed (w : ℕ) (es : List Event) (e : Event) : Prop :=
  ¬ Idle Event.date Event.dies es e ∧
    (w < e.date ∨ inForce Event.date Event.dies w es = some e)

/-- What survives a watermark is what the index holds and the idle deletions. -/
theorem survives_iff {w : ℕ} {es : List Event} {e : Event} :
    Survives Event.date Event.dies w es e ↔
      Idle Event.date Event.dies es e ∨ Indexed w es e := by
  unfold Survives Indexed
  constructor
  · rintro (h | h | h)
    · by_cases hidle : Idle Event.date Event.dies es e
      · exact .inl hidle
      · exact .inr ⟨hidle, .inl h⟩
    · refine .inr ⟨fun hidle => ?_, .inr h⟩
      exact absurd (mem_of_inForce h).2.2 (by simp [hidle.1])
    · exact .inl h
  · rintro (h | ⟨-, h | h⟩)
    · exact .inr (.inr h)
    · exact .inl h
    · exact .inr (.inl h)

/-- What a later watermark keeps in the index an earlier one did. -/
theorem Indexed.earlier {w at_ : ℕ} {es : List Event} {e : Event}
    (hdated : Dated Event.date es) (hw : w ≤ at_) (h : Indexed at_ es e) : Indexed w es e := by
  refine ⟨h.1, ?_⟩
  by_cases hlt : w < e.date
  · exact .inl hlt
  · rcases h.2 with h | h
    · omega
    · exact .inr (inForce_earlier hdated h (by omega) hw)

/-- A read finds the revision in force. -/
theorem modified_readIn_replayIn {es : List Event} (hdated : Dated Event.date es) (at_ : ℕ) :
    (readIn at_ (replayIn es)).map (·.modified) =
      (inForce Event.date Event.dies at_ es).map (·.1) := by
  rw [readIn_replayIn hdated, inForce, foundIn]
  rcases hlife : life Event.dies (upTo Event.date at_ es) with _ | ⟨first, rest⟩
  · rfl
  · rw [List.getLast?_eq_some_getLast (List.cons_ne_nil first rest)]
    rfl

/-- The revisions of a key's trimmed generations.
SOURCE: crates/mvcc/src/index.rs:182-210 -/
theorem mem_revsOf_trim_replayIn {w : ℕ} {es : List Event} {e : Event}
    (hdated : Dated Event.date es) (he : e ∈ es) :
    e.1 ∈ revsOf (trim w (replayIn es)) ↔ Indexed w es e := by
  have hsame : ∀ x ∈ es, x.1 = e.1 → x = e := fun x hx hrev =>
    hdated.eq_of_date hx he (congrArg Revision.main hrev)
  rw [mem_revsOf_trim (chain_replayIn hdated), mem_revsOf_replayIn hdated,
    modified_readIn_replayIn hdated, Indexed]
  refine and_congr ⟨?_, fun h => ⟨e, he, rfl, h⟩⟩ (or_congr Iff.rfl ⟨fun h => ?_, fun h => ?_⟩)
  · rintro ⟨x, hx, hrev, hidle⟩
    rwa [hsame x hx hrev] at hidle
  · obtain ⟨x, hx, hrev⟩ := Option.map_eq_some_iff.mp h
    rw [hx, hsame x (mem_of_inForce hx).1 hrev]
  · rw [h]; rfl

/-- Compaction drops the revision of an event the index held and no longer may. -/
theorem mem_dropped_iff {events : List Event} {w at_ : ℕ} {index : Index} {e : Event}
    (h : Indexes events w index) (hdated : Dated Event.date events) (he : e ∈ events) :
    e.1 ∈ (index.compact at_).2 ↔ Indexed w (eventsOf events e.2.key) e ∧
      ¬ Indexed (max w at_) (eventsOf events e.2.key) e := by
  have hdatedOf := fun k => dated_eventsOf hdated k
  rw [Index.mem_compact_dropped index at_ fun k => h.chain hdated k]
  have hin : e ∈ eventsOf events e.2.key := mem_eventsOf.mpr ⟨he, rfl⟩
  constructor
  · rintro ⟨k, hheld, hnot⟩
    rw [h k] at hheld hnot
    rw [trim_trim_max w at_ (chain_replayIn (hdatedOf k))] at hnot
    obtain ⟨x, hx, hrev⟩ := mem_of_mem_revsOf_replayIn (hdatedOf k) (revsOf_trim_subset hheld)
    obtain ⟨hxin, hkey⟩ := mem_eventsOf.mp hx
    obtain rfl : x = e := hdated.eq_of_date hxin he (congrArg Revision.main hrev)
    subst hkey
    rw [mem_revsOf_trim_replayIn (hdatedOf _) hin] at hheld hnot
    exact ⟨hheld, hnot⟩
  · rintro ⟨hheld, hnot⟩
    refine ⟨e.2.key, ?_⟩
    rw [h e.2.key, trim_trim_max w at_ (chain_replayIn (hdatedOf _)),
      mem_revsOf_trim_replayIn (hdatedOf _) hin, mem_revsOf_trim_replayIn (hdatedOf _) hin]
    exact ⟨hheld, hnot⟩

/-- What is dropped is some event's revision. -/
theorem event_of_dropped {events : List Event} {w at_ : ℕ} {index : Index} {rev : Revision}
    (h : Indexes events w index) (hdated : Dated Event.date events)
    (hrev : rev ∈ (index.compact at_).2) : ∃ e ∈ events, e.1 = rev := by
  obtain ⟨k, hheld, -⟩ := (Index.mem_compact_dropped index at_ (fun k => h.chain hdated k) rev).mp hrev
  rw [h k] at hheld
  obtain ⟨e, he, heq⟩ :=
    mem_of_mem_revsOf_replayIn (dated_eventsOf hdated k) (revsOf_trim_subset hheld)
  exact ⟨e, (mem_eventsOf.mp he).1, heq⟩

/-- Without what compaction drops, the records kept are those of the new watermark. -/
theorem kept_compact {events : List Event} {w : ℕ} {index : Index}
    (h : Indexes events w index) (hdated : Dated Event.date events) (at_ : ℕ) :
    (kept w events).filter (fun e => e.1 ∉ (index.compact at_).2) =
      kept (max w at_) events := by
  unfold kept
  rw [List.filter_filter]
  refine List.filter_congr fun e he => ?_
  rw [Bool.eq_iff_iff]
  simp only [Bool.and_eq_true, decide_eq_true_eq]
  have hdatedOf := dated_eventsOf hdated e.2.key
  rw [mem_dropped_iff h hdated he, survives_iff, survives_iff]
  constructor
  · rintro ⟨hnot, hidle | hheld⟩
    · exact .inl hidle
    · exact .inr (by_contra fun hlost => hnot ⟨hheld, hlost⟩)
  · rintro (hidle | hheld)
    · exact ⟨fun hdrop => hdrop.1.1 hidle, .inl hidle⟩
    · exact ⟨fun hdrop => hdrop.2 hheld, .inr (hheld.earlier hdatedOf (le_max_left w at_))⟩

end Hadar.Mvcc
