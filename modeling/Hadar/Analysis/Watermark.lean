import Hadar.Analysis.Restarting

/-!
# The watermark across restarts

`open` starts with no watermark, so what a store refuses to read is decided by the
compactions since it was last opened. The runs here mix calls and restarts freely: keys may
be longer than the format holds and revisions may run out.
-/

set_option autoImplicit false

namespace Hadar.Mvcc

open Hadar.Lib Hadar.Lib.Prog Hadar.Storage Std

/-- What holds of a watched store after any run: no call of its engine will fail, its
watermark is the largest since it was opened, and its backend holds records up to its
current revision. -/
structure Watched.Sound (w : Watched) : Prop where
  calm : w.store.engine.replies = []
  compacted : w.store.state.compacted = w.sinceOpen
  since_le_current : w.sinceOpen ≤ w.store.state.current.main
  since_le_largest : w.sinceOpen ≤ w.largest
  contents : ∃ marker records n, Holds w.store.engine.committed marker records ∧
    Dated Event.date records ∧ (∀ e ∈ records, e.1 = revisionOf e.date ∧ e.date ≤ n) ∧
    w.store.state.current = revisionOf n ∧ n ≤ i64Max

namespace Watched.Sound

variable {w : Watched}

theorem fresh : Sound ⟨KvStore.fresh, 0, 0⟩ where
  calm := rfl
  compacted := rfl
  since_le_current := le_rfl
  since_le_largest := le_rfl
  contents := ⟨none, [], 0, holds_empty, List.Pairwise.nil, by simp, rfl, by decide⟩

/-- Whether it appends its batch or panics for want of revisions, `apply` keeps what holds.
SOURCE: crates/mvcc/src/store.rs:171-213 -/
theorem apply (h : w.Sound) (batch : List Mutation) (upto : ℕ) :
    Sound { w with store := w.store.after (.apply batch upto) } := by
  obtain ⟨marker, records, n, hholds, hdated, hrecords, hcurrent, hn⟩ := h.contents
  obtain ⟨hrefuses, hcrashes⟩ := Engine.calm h.calm
  have hmain : w.store.state.current.main = n := by
    rw [hcurrent]
    exact Nat.min_eq_left hn
  have hsame : ∀ {s : KvStore}, w.store.Later s → Sound { w with store := s } := by
    intro s hlater
    refine ⟨?_, ?_, ?_, h.since_le_largest, marker, records, n, ?_, hdated, hrecords, ?_, hn⟩
    · have := hlater.engine.replies
      rwa [h.calm, List.suffix_nil] at this
    · rw [hlater.state]; exact h.compacted
    · rw [hlater.state]; exact h.since_le_current
    · rw [hlater.engine.committed]; exact hholds
    · rw [hlater.state]; exact hcurrent
  have hends := ends_apply hcurrent hn batch upto
  unfold Ends at hends
  rw [KvStore.after]
  split at hends
  · rename_i revisions s' hexec
    obtain ⟨hfits, -, hstate, hcommits, -, hreplies⟩ := hends
    rw [hexec]
    have hnew := fun e he => lt_date_of_mem_stampedFrom (e := e) hfits he
    have hdated' := dated_append_stampedFrom hdated (fun x hx => (hrecords x hx).2) hfits
    have hcur' : s'.state.current = revisionOf (n + batch.length) := by
      rw [hstate]; rfl
    refine ⟨?_, ?_, ?_, h.since_le_largest, some upto, records ++ stampedFrom n batch,
      n + batch.length, ?_, hdated', ?_, hcur', hfits⟩
    · rwa [h.calm, List.suffix_nil] at hreplies
    · rw [hstate]; exact h.compacted
    · have hle := h.since_le_current
      have hmain' : s'.state.current.main = n + batch.length := by
        rw [hcur']; exact Nat.min_eq_left hfits
      show w.sinceOpen ≤ s'.state.current.main
      omega
    · show Holds s'.engine.committed _ _
      rw [Engine.committed, hcommits]
      exact Holds.mark (hholds.insert_all hdated') upto
    · intro e he
      rcases List.mem_append.mp he with he | he
      · have := hrecords e he
        exact ⟨this.1, by omega⟩
      · exact ⟨revision_of_mem_stampedFrom hfits he, (hnew e he).2⟩
  · exact absurd (hends.2.resolve_right id) hrefuses
  · rename_i s' hexec
    rw [hexec]
    exact hsame hends.1
  · rename_i s' hexec
    rw [hexec]
    exact hsame hends.1

/-- A compaction moves both watermarks, or is refused and changes nothing.
SOURCE: crates/mvcc/src/store.rs:272-299 -/
theorem compact (h : w.Sound) (at_ : ℕ) : (w.afterCall (.compact at_)).Sound := by
  rw [Watched.afterCall]
  obtain ⟨marker, records, n, hholds, hdated, hrecords, hcurrent, hn⟩ := h.contents
  by_cases hin : w.store.state.compacted ≤ at_ ∧ at_ ≤ w.store.state.current.main
  · obtain ⟨s', hexec, hstate, hcommits, hreplies⟩ :=
      exec_compactBy_calm (compactChunk - 1) hin.2 hin.1 h.calm
    have hexec' : (Mvcc.compact at_).exec w.store = (.ok _, s') := hexec
    rw [hexec']
    have hsince : max w.sinceOpen at_ = at_ := by
      rw [← h.compacted]
      exact max_eq_right hin.1
    refine ⟨?_, ?_, ?_, ?_, marker, records.filter (fun e =>
      e.1 ∉ (w.store.state.index.compact at_).2), n, ?_, hdated.sublist List.filter_sublist,
      fun e he => hrecords e (List.mem_of_mem_filter he), ?_, hn⟩
    · exact hreplies
    · show s'.state.compacted = max w.sinceOpen at_
      rw [hstate, hsince]
    · show max w.sinceOpen at_ ≤ s'.state.current.main
      rw [hstate, hsince]
      exact hin.2
    · exact max_le_max_right _ h.since_le_largest
    · show Holds s'.engine.committed _ _
      rw [Engine.committed, hcommits, headD_clearings, flatten_chunks]
      exact hholds.remove_all _
    · show s'.state.current = _
      rw [hstate]
      exact hcurrent
  · obtain ⟨e, hexec⟩ := exec_compactBy_refused (s := w.store) (compactChunk - 1) at_
      (by omega)
    have hexec' : (Mvcc.compact at_).exec w.store = (.error (.error e), w.store) := hexec
    rw [hexec']
    exact h

/-- A restart forgets the watermark, and the newest revision if its record is gone.
SOURCE: crates/mvcc/src/store.rs:66-117 -/
theorem reopen (h : w.Sound) : w.afterReopen.Sound := by
  obtain ⟨marker, records, n, hholds, hdated, hrecords, hcurrent, hn⟩ := h.contents
  rw [Watched.afterReopen, openStore_eq hholds h.calm]
  have hnewest : ∃ n', newestOf Revision.zero records = revisionOf n' ∧ n' ≤ n ∧
      ∀ e ∈ records, e.date ≤ n' := by
    obtain rfl | ⟨front, last, rfl⟩ := List.eq_nil_or_concat records
    · exact ⟨0, rfl, Nat.zero_le _, by simp⟩
    · rw [List.concat_eq_append] at hdated hrecords ⊢
      obtain ⟨hrev, hle⟩ := hrecords last (by simp)
      refine ⟨last.date, by rw [newestOf_concat hdated]; exact hrev, hle, fun e he => ?_⟩
      rcases List.mem_append.mp he with he | he
      · exact (hdated.lt_of_concat e he).le
      · rw [List.mem_singleton.mp he]
  obtain ⟨n', hnewest, hle, hbelow⟩ := hnewest
  exact ⟨h.calm, rfl, Nat.zero_le _, Nat.zero_le _, marker, records, n', hholds, hdated,
    fun e he => ⟨(hrecords e he).1, hbelow e he⟩, hnewest, by omega⟩

/-- What holds holds after any run. -/
theorem run (steps : List Step) : (Watched.run steps).Sound := by
  induction steps using List.reverseRecOn with
  | nil => exact fresh
  | append_singleton steps step ih =>
    have hrun : Watched.run (steps ++ [step]) = (Watched.run steps).after step := by
      simp [Watched.run]
    rw [hrun]
    cases step with
    | reopen => exact ih.reopen
    | call call =>
      cases call with
      | apply batch upto => exact ih.apply batch upto
      | compact at_ => exact ih.compact at_

end Watched.Sound

/-- A read at the store's own watermark is accepted: cut to nothing, it returns nothing. -/
theorem reads_range_nothing {s : KvStore} {at_ : ℕ} (h : resolve s.state (some at_) = .ok at_) :
    Reads False False (range Bounds.all (some at_) (some 0)) s (· = []) := by
  refine ends_bind.mpr (ends_get.mpr ?_)
  dsimp only
  rw [h, s.state.index.refuses_built .all]
  refine Reads.bind (reads_onEngine reads_beginWrite) fun txn s' _ _ => ?_
  cases s.state.index.range Bounds.all at_ with
  | nil => exact Reads.pure rfl
  | cons p rest => exact Reads.pure rfl

/-- After any run of calls and restarts the store refuses what lies below the largest
watermark it ever accepted exactly when it accepted that watermark since it was opened.
SOURCE: crates/mvcc/src/store.rs:66-117, crates/mvcc/src/store.rs:272-310 -/
theorem refusesBelow_largest (steps : List Step) :
    RefusesBelow (Watched.run steps).store (Watched.run steps).largest ↔
      (Watched.run steps).sinceOpen = (Watched.run steps).largest := by
  have h := Watched.Sound.run steps
  have hle := h.since_le_current
  constructor
  · intro hrefuses
    by_contra hne
    have hlt : (Watched.run steps).sinceOpen < (Watched.run steps).largest :=
      Nat.lt_of_le_of_ne h.since_le_largest hne
    have hresolve : resolve (Watched.run steps).store.state (some (Watched.run steps).sinceOpen) =
        .ok (Watched.run steps).sinceOpen := by
      rw [resolve, h.compacted, Option.getD_some, if_neg (by omega), if_neg (by omega)]
    obtain ⟨oldest, hrefused⟩ := (hrefuses _ hlt).1 Bounds.all (some 0)
    obtain ⟨_, hexec, -⟩ := returns_of_calm (reads_range_nothing hresolve) h.calm
    rw [hrefused] at hexec
    cases hexec
  · intro heq at_ hlt
    have hlow : at_ < (Watched.run steps).store.state.compacted := by
      rw [h.compacted, heq]; exact hlt
    have hresolve : resolve (Watched.run steps).store.state (some at_) =
        .error (.compacted at_ (Watched.run steps).store.state.compacted) := by
      rw [resolve, Option.getD_some, if_neg (by have := h.compacted; omega), if_pos hlow]
    exact ⟨fun bounds limit => ⟨_, exec_range_refused hresolve⟩,
      exec_compactBy_refused _ _ (.inr hlow)⟩

/-- A store that was compacted and opened again reads below the watermark. -/
theorem refusesBelow_forgotten :
    ¬ ∀ steps, RefusesBelow (Watched.run steps).store (Watched.run steps).largest := by
  intro h
  obtain ⟨oldest, hrefused⟩ := (h [.call (.apply [.put [107] [118], .put [107] [119]] 2),
    .call (.compact 2), .reopen] 1 (by decide +kernel)).1 Bounds.all none
  have hread : ((range Bounds.all (some 1) none).exec (Watched.run
      [.call (.apply [.put [107] [118], .put [107] [119]] 2), .call (.compact 2),
        .reopen]).store).1.toOption = some [] := by decide +kernel
  rw [hrefused] at hread
  cases hread

end Hadar.Mvcc
