import Hadar.Analysis.Interrupting
import Hadar.Analysis.Serving
import Hadar.Interface.Retrying

/-!
# What a failed compaction leaves

The calls a compaction makes are counted, so that it fails exactly when one of them is refused. And
no failure leaves the store as it was. The index is trimmed before the first call, and the watermark
is moved after the last one: below the watermark asked for there is a revision at which a key is gone
that was there, and a retry, which finds nothing left to drop, never removes the records of the
chunk that was refused.
-/

set_option autoImplicit false

namespace Hadar.Mvcc

open Hadar.Lib Hadar.Lib.Prog Hadar.Storage Std

/-! ## Counting calls -/

section Counting

variable {σ ε α β : Type} {pending : σ → List Reply}

/-- From any state the program makes `n` calls, whose replies are those pending: it returns when all
of them succeed, and else it ends as the first of them that does not. -/
def Counts (pending : σ → List Reply) (n : ℕ) (p : Prog σ ε α) : Prop :=
  ∀ s, Ends p s
    (fun _ s' => firstFailure n (pending s) = none ∧ pending s' = (pending s).drop n)
    (fun _ _ => RefusedWithin n (pending s)) fun _ => firstFailure n (pending s) = some .crash

/-- The first failure of some calls and some more is one of the former, if there is one. -/
theorem firstFailure_add (n m : ℕ) (replies : List Reply) :
    firstFailure (n + m) replies =
      (firstFailure n replies).or (firstFailure m (replies.drop n)) := by
  rw [firstFailure, List.take_add, List.find?_append]
  rfl

theorem counts_pure (a : α) : Counts pending 0 (pure a : Prog σ ε α) := fun _ =>
  ends_pure.mpr ⟨rfl, rfl⟩

theorem counts_modify {f : σ → σ} (h : ∀ s, pending (f s) = pending s) :
    Counts pending 0 (modify f : Prog σ ε Unit) := fun s => ends_modify.mpr ⟨rfl, h s⟩

/-- The calls of two programs in turn add up. -/
theorem Counts.bind {n m : ℕ} {p : Prog σ ε α} {f : α → Prog σ ε β} (hp : Counts pending n p)
    (hf : ∀ a, Counts pending m (f a)) : Counts pending (n + m) (p >>= f) := by
  intro s
  refine ends_bind.mpr (Ends.mono (hp s) (fun a s1 h => ?_) (fun _ s1 h => ?_) fun s1 h => ?_)
  · -- the replies to the second program are what the first one left
    obtain ⟨hnone, hleft⟩ := h
    have hrest : firstFailure (n + m) (pending s) = firstFailure m (pending s1) := by
      rw [firstFailure_add, hnone, Option.none_or, hleft]
    refine Ends.mono (hf a s1) (fun _ s2 h => ?_) (fun _ _ h => ?_) fun _ h => ?_
    · rw [hrest]
      exact ⟨h.1, by rw [h.2, hleft, List.drop_drop]⟩
    · rw [RefusedWithin, hrest]
      exact h
    · rw [hrest]
      exact h
  · obtain ⟨e, applied, h⟩ := h
    exact ⟨e, applied, by rw [firstFailure_add, h, Option.some_or]⟩
  · rw [firstFailure_add, h, Option.some_or]

end Counting

/-- A call takes one reply. -/
theorem counts_call {α : Type} {effect : Prog Engine Storage.Error α}
    (h : Counts Engine.replies 0 effect) : Counts Engine.replies 1 (call effect) := by
  intro e
  refine ends_bind.mpr (ends_bind.mpr (ends_get.mpr ?_))
  cases hreplies : e.replies with
  | nil =>
    refine ends_pure.mpr (Ends.mono (h e) (fun _ e' h' => ?_) (fun _ _ h' => ?_) fun _ h' => ?_)
    · exact ⟨rfl, by rw [h'.2, hreplies]; rfl⟩
    · obtain ⟨x, applied, h'⟩ := h'
      cases h'
    · cases h'
  | cons r rest =>
    refine ends_bind.mpr (ends_set.mpr (ends_pure.mpr ?_))
    cases r with
    | done =>
      refine Ends.mono (h { e with replies := rest }) (fun _ e' h' => ⟨rfl, h'.2⟩)
        (fun _ _ h' => ?_) fun _ h' => ?_
      · obtain ⟨x, applied, h'⟩ := h'
        cases h'
      · cases h'
    | refused x applied => exact ends_fail.mpr ⟨x, applied, rfl⟩
    | crash => exact ends_crashing.mpr rfl

/-- The replies to the calls that a store's engine will be asked to make. -/
abbrev KvStore.pending (s : KvStore) : List Reply := s.engine.replies

theorem Counts.onEngine {α : Type} {n : ℕ} {p : Prog Engine Storage.Error α}
    (h : Counts Engine.replies n p) : Counts KvStore.pending n (onEngine p) := fun s =>
  ends_zoom.mpr (Ends.mono (h s.engine) (fun _ _ h => h) (fun _ _ h => h) fun _ h => h)

theorem counts_beginWrite : Counts KvStore.pending 1 (onEngine beginWrite) :=
  (counts_call fun _ => ends_bind.mpr (ends_get.mpr (ends_pure.mpr ⟨rfl, rfl⟩))).onEngine

theorem counts_remove (txn : WriteTxn) (key : Bytes) :
    Counts KvStore.pending 1 (onEngine (txn.remove key)) := (counts_call (counts_pure _)).onEngine

theorem counts_commit (txn : WriteTxn) : Counts KvStore.pending 1 (onEngine txn.commit) := by
  have heffect : Counts Engine.replies 0 (modify fun e : Engine =>
      { e with commits := txn.working :: e.commits } : Prog Engine Storage.Error Unit) :=
    counts_modify fun _ => rfl
  exact (counts_call heffect).onEngine

theorem counts_removeRecords (chunk : List Revision) (txn : WriteTxn) :
    Counts KvStore.pending (2 * chunk.length) (removeRecords chunk txn) := by
  induction chunk generalizing txn with
  | nil => exact counts_pure txn
  | cons rev rest ih =>
    have hlength : 2 * (rev :: rest).length = 1 + (1 + 2 * rest.length) := by
      rw [List.length_cons]
      omega
    rw [hlength]
    exact (counts_remove _ _).bind fun r => (counts_remove _ _).bind fun r' => ih r'.1

/-- SOURCE: crates/mvcc/src/store.rs:284-295 -/
theorem counts_removeChunks (cs : List (List Revision)) :
    Counts KvStore.pending (2 * cs.flatten.length + 2 * cs.length) (removeChunks cs) := by
  induction cs with
  | nil => exact counts_pure ()
  | cons chunk rest ih =>
    have hcount : 2 * (chunk :: rest).flatten.length + 2 * (chunk :: rest).length =
        1 + (2 * chunk.length + (1 + (2 * rest.flatten.length + 2 * rest.length))) := by
      rw [List.flatten_cons, List.length_append, List.length_cons]
      omega
    rw [hcount]
    exact counts_beginWrite.bind fun txn => (counts_removeRecords chunk txn).bind fun txn =>
      (counts_commit txn).bind fun _ => ih

variable {events : List Event} {high chunk at_ : ℕ} {s s' : KvStore}

/-- A compaction that passes its checks fails exactly when one of its calls is refused.
SOURCE: crates/mvcc/src/store.rs:272-299 -/
theorem fails_iff (haccepts : s.state.accepts at_) :
    (∃ e s', (compactBy chunk at_).exec s = (.error (.error e), s')) ↔
      RefusedWithin (callsToRemove chunk (s.state.index.compact at_).2) s.engine.replies := by
  have hcounts := counts_removeChunks (chunks chunk (s.state.index.compact at_).2)
  rw [flatten_chunks] at hcounts
  have hends : Ends (compactBy chunk at_) s
      (fun _ _ => firstFailure (callsToRemove chunk (s.state.index.compact at_).2)
        s.engine.replies = none)
      (fun _ _ => RefusedWithin (callsToRemove chunk (s.state.index.compact at_).2)
        s.engine.replies)
      (fun _ => firstFailure (callsToRemove chunk (s.state.index.compact at_).2)
        s.engine.replies = some .crash) := by
    refine ends_bind.mpr (ends_get.mpr ?_)
    rw [if_neg (Nat.not_lt.mpr haccepts.2), if_neg (Nat.not_lt.mpr haccepts.1)]
    refine ends_bind.mpr (ends_modify.mpr (ends_bind.mpr ?_))
    refine Ends.mono (hcounts _) (fun _ s1 h => ?_) (fun _ _ h => h) fun _ h => h
    exact ends_bind.mpr (ends_modify.mpr (ends_pure.mpr h.1))
  constructor
  · rintro ⟨e, s', hexec⟩
    exact hends.of_error hexec
  · rintro ⟨x, applied, hrefused⟩
    unfold Ends at hends
    split at hends
    · rw [hrefused] at hends
      cases hends
    · rename_i e s' hexec
      exact ⟨e, s', hexec⟩
    · rw [hrefused] at hends
      cases hends
    · rw [hrefused] at hends
      cases hends

/-! ## What is lost -/

/-- Where a compaction drops anything there is a revision up to its own at which an event is in force
that is not in force at its own.
SOURCE: crates/mvcc/src/index.rs:115-121, 182-210 -/
theorem lost_of_dropped {index : Index} {rev : Revision} (h : Indexes events high index)
    (hdated : Dated Event.date events) (hrev : rev ∈ (index.compact at_).2) :
    ∃ key r p, high ≤ r ∧ r ≤ at_ ∧ inForce Event.date Event.dies r (eventsOf events key) = some p ∧
      inForce Event.date Event.dies at_ (eventsOf events key) ≠ some p := by
  obtain ⟨d, hd, rfl⟩ := event_of_dropped h hdated hrev
  obtain ⟨⟨hidle, hheld⟩, hgone⟩ := (mem_dropped_iff h hdated hd).mp hrev
  have hdatedOf := dated_eventsOf hdated d.2.key
  have hin : d ∈ eventsOf events d.2.key := mem_eventsOf.mpr ⟨hd, rfl⟩
  -- the watermark moves, or nothing would be dropped
  have hlt : high < at_ := by
    by_contra hle
    rw [max_eq_left (Nat.not_lt.mp hle)] at hgone
    exact hgone ⟨hidle, hheld⟩
  rw [max_eq_right hlt.le] at hgone
  have hle : d.date ≤ at_ := by
    by_contra hpast
    exact hgone ⟨hidle, .inl (Nat.not_le.mp hpast)⟩
  cases hdies : d.dies with
  | false =>
    -- a put is in force at its own revision, or else at the watermark
    refine ⟨d.2.key, max high d.date, d, le_max_left _ _, max_le hlt.le hle, ?_, fun hforce =>
      hgone ⟨hidle, .inr hforce⟩⟩
    rcases hheld with hlate | hforce
    · rw [max_eq_right hlate.le]
      exact (inForce_iff hdatedOf).mpr ⟨hin, le_rfl, hdies, fun _ _ hx => hx⟩
    · rw [max_eq_left (mem_of_inForce hforce).2.1]
      exact hforce
  | true =>
    -- a deletion that is not idle ends the life of a put in force just before it
    have hlate : high < d.date := hheld.resolve_right fun hforce => by
      rw [(mem_of_inForce hforce).2.2] at hdies
      cases hdies
    have hcut : upTo Event.date (d.date - 1) (eventsOf events d.2.key) =
        (eventsOf events d.2.key).filter fun x => x.date < d.date :=
      List.filter_congr fun x _ => by
        rw [decide_eq_decide]
        omega
    have hlive : life Event.dies (upTo Event.date (d.date - 1) (eventsOf events d.2.key)) ≠ [] := by
      rw [hcut]
      exact fun hnil => hidle ⟨hdies, hnil⟩
    have hp : inForce Event.date Event.dies (d.date - 1) (eventsOf events d.2.key) =
        some (List.getLast _ hlive) := List.getLast?_eq_some_getLast hlive
    refine ⟨d.2.key, d.date - 1, _, by omega, by omega, hp, fun hforce => ?_⟩
    have hyoungest := ((inForce_iff hdatedOf).mp hforce).2.2.2 d hin hle
    have := (mem_of_inForce hp).2.1
    omega

/-- After a compaction that dropped anything, and did not move the watermark, a key is gone at a
revision that is still accepted.
SOURCE: crates/mvcc/src/store.rs:225-310 -/
theorem not_keepsReads (h : Stands events high s) (h' : Stands events (max high at_) s')
    (hcurrent : s'.state.current = s.state.current)
    (hcompacted : s'.state.compacted = s.state.compacted) (hle : at_ ≤ s.state.current.main)
    {rev : Revision} (hrev : rev ∈ (s.state.index.compact at_).2) : ¬ KeepsReads s s' := by
  intro hkeeps
  obtain ⟨key, r, p, hhigh, hr, hforce, hlost⟩ := lost_of_dropped h.index h.dated hrev
  have hdatedOf := dated_eventsOf h.dated key
  have hresolve : resolve s.state (some r) = .ok r := by
    have := h.compacted_le
    rw [resolve, Option.getD_some, if_neg (by omega), if_neg (by omega)]
  have hresolve' : resolve s'.state (some r) = .ok r := by
    rw [resolve, hcurrent, hcompacted]
    exact hresolve
  -- before the compaction the key is found at the revision
  obtain ⟨found, hfound⟩ : ∃ found, (key, found) ∈ s.state.index.range Bounds.all r := by
    refine (h.mem_range_iff hhigh Bounds.all key).mpr ⟨rfl, view_isSome.mpr fun hnil => ?_⟩
    rw [lifeAt] at hnil
    rw [inForce, hnil] at hforce
    cases hforce
  -- after it what is found there would have to be in force at the watermark as well
  have hnone : ∀ found', (key, found') ∉ s'.state.index.range Bounds.all r := by
    intro found' hmem
    obtain ⟨-, hread⟩ := (Index.mem_range _ _ _ (h'.index.chain h'.dated) _ _).mp hmem
    obtain ⟨e, -, -, -, hdate, hheld⟩ := event_of_readIn h' hread
    rw [max_eq_right (hhigh.trans hr)] at hheld
    have hforce' := inForce_earlier hdatedOf (hheld hr) hdate hr
    rw [hforce] at hforce'
    rw [← Option.some.inj hforce'] at hheld
    exact hlost (hheld hr)
  have hall : ∀ index : Index, index.refuses Bounds.all = false := fun index =>
    index.refuses_built .all
  have hshown := h.shown_eq hresolve (hall _) none
  have hshown' := h'.shown_eq hresolve' (hall _) none
  rcases hkeeps Bounds.all (some r) none with hsame | ⟨a, oldest, hrefused⟩
  · rw [hshown, hshown'] at hsame
    have hkeys := congrArg (List.map (·.key)) (Except.ok.inj hsame)
    simp only [capped, List.map_map] at hkeys
    have hkey : key ∈ (s'.state.index.range Bounds.all r).map
        ((·.key) ∘ fetched s'.engine.committed) := by
      rw [hkeys]
      exact List.mem_map.mpr ⟨(key, found), hfound, rfl⟩
    obtain ⟨⟨k, found'⟩, hmem, rfl⟩ := List.mem_map.mp hkey
    exact hnone found' hmem
  · rw [hshown'] at hrefused
    cases hrefused

/-! ## What a retry leaves -/

/-- No revision is dropped twice. -/
theorem nodup_dropped {index : Index} (h : Indexes events high index)
    (hdated : Dated Event.date events) (at_ : ℕ) : (index.compact at_).2.Nodup := by
  refine List.Pairwise.imp_of_mem (fun {rev rev'} hrev _ hlt heq => ?_)
    (pairwise_compact h hdated at_)
  obtain ⟨e, he, hsame⟩ := event_of_dropped h hdated hrev
  exact lt_irrefl _ (hlt e he e he hsame (hsame.trans heq) rfl)

/-- Compacting again drops nothing. -/
theorem dropped_again {index : Index} (h : Indexes events high index)
    (hdated : Dated Event.date events) (hle : at_ ≤ high) : (index.compact at_).2 = [] := by
  rw [List.eq_nil_iff_forall_not_mem]
  intro rev hrev
  obtain ⟨e, he, rfl⟩ := event_of_dropped h hdated hrev
  obtain ⟨hheld, hgone⟩ := (mem_dropped_iff h hdated he).mp hrev
  rw [max_eq_left hle] at hgone
  exact hgone hheld

theorem ne_nil_of_mem_chunks {n : ℕ} {l c : List Revision} (h : c ∈ chunks n l) : c ≠ [] := by
  induction l using chunks.induct n with
  | case1 => rw [chunks] at h; cases h
  | case2 x xs ih =>
    rw [chunks] at h
    rcases List.mem_cons.mp h with rfl | h
    · exact List.cons_ne_nil _ _
    · exact ih h

/-- A dropped revision's record is there before the compaction. -/
theorem Stands.record_of_dropped (h : Stands events high s) {rev : Revision}
    (hrev : rev ∈ (s.state.index.compact at_).2) :
    ∃ records, Recorded s.engine.committed records ∧ ∃ x ∈ records, x.1 = rev := by
  obtain ⟨e, he, rfl⟩ := event_of_dropped h.index h.dated hrev
  have hheld := ((mem_dropped_iff h.index h.dated he).mp hrev).1
  obtain ⟨records, hrecorded, -, hkept⟩ := h.contents
  have hsurvives : e ∈ kept high events :=
    List.mem_filter.mpr ⟨he, decide_eq_true (survives_iff.mpr (.inr hheld))⟩
  obtain ⟨x, hx, hsame, -⟩ := hkept e hsurvives
  exact ⟨records, hrecorded, x, hx, hsame⟩

/-- A retry removes nothing, so the records of the chunk that was not committed stay.
SOURCE: crates/mvcc/src/store.rs:281-297 -/
theorem not_retryCompletes (h : Stands events high s) (h' : Stands events (max high at_) s')
    (haccepts : s.state.accepts at_) (hcurrent : s'.state.current = s.state.current)
    (hcompacted : s'.state.compacted = s.state.compacted) {done rest : List (List Revision)}
    (hsplit : chunks chunk (s.state.index.compact at_).2 = done ++ rest) (hne : rest ≠ [])
    (hcommits : s'.engine.commits = clearings s.engine.commits done) :
    ¬ RetryCompletes chunk at_ s s' := by
  intro hcompletes
  obtain ⟨c, later, rfl⟩ := List.exists_cons_of_ne_nil hne
  have hchunk : c ∈ chunks chunk (s.state.index.compact at_).2 := by
    rw [hsplit]
    simp
  obtain ⟨rev, hrev⟩ := List.exists_mem_of_ne_nil _ (ne_nil_of_mem_chunks hchunk)
  have hflat : (s.state.index.compact at_).2 = done.flatten ++ (c :: later).flatten := by
    rw [← flatten_chunks chunk (s.state.index.compact at_).2, hsplit, List.flatten_append]
  have hleft : rev ∈ (c :: later).flatten := List.mem_append_left _ hrev
  have hdropped : rev ∈ (s.state.index.compact at_).2 := hflat ▸ List.mem_append_right _ hleft
  have hnodup := nodup_dropped h.index h.dated at_
  rw [hflat] at hnodup
  have hspared : rev ∉ done.flatten := fun hgone =>
    (List.nodup_append.mp hnodup).2.2 rev hgone rev hleft rfl
  -- the retry finds nothing to drop, the compaction that is not refused drops it all
  obtain ⟨s'', hretry, -, hretried, -⟩ := exec_compactBy_calm chunk (s := s'.facing [])
    (hcurrent ▸ haccepts.2 : at_ ≤ s'.state.current.main)
    (hcompacted ▸ haccepts.1 : s'.state.compacted ≤ at_) rfl
  obtain ⟨t, hwhole, -, hcleared, -⟩ := exec_compactBy_calm chunk (s := s.facing []) haccepts.2
    haccepts.1 rfl
  have hsame := hcompletes [] _ _ _ _ hretry hwhole
  have hnothing : ((s'.facing []).state.index.compact at_).2 = [] :=
    dropped_again h'.index h.dated (le_max_right high at_)
  rw [hnothing, chunks] at hretried
  obtain ⟨records, hrecorded, x, hx, rfl⟩ := h.record_of_dropped hdropped
  have hretried' : Recorded s''.engine.committed (records.filter fun e => e.1 ∉ done.flatten) := by
    rw [Engine.committed, hretried]
    show Recorded (s'.engine.commits.headD ∅) _
    rw [hcommits, headD_clearings]
    exact hrecorded.clear done.flatten
  have hcleared' : Recorded t.engine.committed
      (records.filter fun e => e.1 ∉ (s.state.index.compact at_).2) := by
    rw [Engine.committed, hcleared, headD_clearings, flatten_chunks]
    exact hrecorded.clear _
  obtain ⟨marker, hholds⟩ := hretried'.holds
  obtain ⟨marker', hholds'⟩ := hcleared'.holds
  have hraw := hholds.lookup (List.mem_filter.mpr ⟨hx, decide_eq_true hspared⟩)
  rw [hsame x.1 x.dies] at hraw
  obtain ⟨y, hy, hyrev, -⟩ := hholds'.lookup_iff.mp hraw
  exact of_decide_eq_true (List.mem_filter.mp hy).2 (hyrev ▸ hdropped)

/-! ## The compaction that fails -/

/-- A compaction that fails loses a read and cannot be completed.
SOURCE: crates/mvcc/src/store.rs:272-310 -/
theorem Stands.fails (h : Stands events high s) (haccepts : s.state.accepts at_) {e : Error}
    (ran : (compactBy chunk at_).exec s = (.error (.error e), s')) :
    ¬ KeepsReads s s' ∧ ¬ RetryCompletes chunk at_ s s' := by
  obtain ⟨hstate, ⟨done, rest, hsplit, hne, hcommits⟩, -⟩ :=
    (ends_compactBy chunk at_ haccepts.2 haccepts.1).of_error ran
  have h' := h.compact (trimmed_of_compactBy haccepts.2 haccepts.1 ran) haccepts.2
  have hcurrent : s'.state.current = s.state.current := by rw [hstate]
  have hcompacted : s'.state.compacted = s.state.compacted := by rw [hstate]
  refine ⟨?_, not_retryCompletes h h' haccepts hcurrent hcompacted hsplit hne hcommits⟩
  have hdropped : (s.state.index.compact at_).2 ≠ [] := by
    intro hnil
    rw [hnil, chunks] at hsplit
    exact hne (List.append_eq_nil_iff.mp hsplit.symm).2
  obtain ⟨rev, hrev⟩ := List.exists_mem_of_ne_nil _ hdropped
  exact not_keepsReads h h' hcurrent hcompacted haccepts.2 hrev

/-- No compaction that fails leaves the store as it was. So a compaction fails cleanly exactly
where it does not fail at all: where the first of its calls that does not succeed, if there is one,
is not refused.
SOURCE: crates/mvcc/src/store.rs:263-310 -/
theorem failsCleanly_iff (h : Lived s events high) (haccepts : s.state.accepts at_) :
    (FailsCleanly chunk at_ s ↔
        ¬ RefusedWithin (callsToRemove chunk (s.state.index.compact at_).2) s.engine.replies) ∧
      ∀ e s', (compactBy chunk at_).exec s = (.error (.error e), s') →
        ¬ KeepsReads s s' ∧ ¬ RetryCompletes chunk at_ s s' := by
  refine ⟨⟨fun hclean hrefused => ?_, fun hnone e s' ran => ?_⟩, fun e s' ran =>
    h.stands.fails haccepts ran⟩
  · obtain ⟨e, s', ran⟩ := (fails_iff haccepts).mpr hrefused
    exact (h.stands.fails haccepts ran).1 (hclean e s' ran).1
  · exact absurd ((fails_iff haccepts).mp ⟨e, s', ran⟩) hnone

/-- A key is put twice. -/
def overwritten : KvStore :=
  ((Mvcc.apply [.put [107] [1], .put [107] [2]] 2).exec KvStore.fresh).2

theorem overwritten_lived :
    Lived overwritten ([revisionOf 1, revisionOf 2].zip [.put [107] [1], .put [107] [2]]) 0 := by
  have hreturns : (Mvcc.apply [.put [107] [1], .put [107] [2]] 2).returnsFrom KvStore.fresh =
      true := by decide +kernel
  have hrevisions : (Mvcc.apply [.put [107] [1], .put [107] [2]] 2).returned KvStore.fresh [] =
      [revisionOf 1, revisionOf 2] := by decide +kernel
  have hlived := Lived.fresh.applied (exec_returned hreturns [])
  rw [hrevisions] at hlived
  exact hlived

/-- Its compaction makes four calls, and all of them succeed. -/
theorem failsCleanly_overwritten :
    FailsCleanly (compactChunk - 1) 2 (overwritten.facing [.done, .done, .done, .done]) := by
  have haccepts : (overwritten.facing [.done, .done, .done, .done]).state.accepts 2 := by
    decide +kernel
  have hnone : firstFailure (callsToRemove (compactChunk - 1)
      ((overwritten.facing [.done, .done, .done, .done]).state.index.compact 2).2)
      (overwritten.facing [.done, .done, .done, .done]).engine.replies = none := by
    decide +kernel
  refine (failsCleanly_iff (overwritten_lived.faced _) haccepts).1.mpr ?_
  rintro ⟨e, applied, hrefused⟩
  rw [hnone] at hrefused
  cases hrefused

/-- The compaction of the older put is refused as it begins: a read at revision 1 finds the key
before and nothing after. -/
theorem compact_fails_dirty : ¬ ∀ s events high at_, Lived s events high → s.state.accepts at_ →
    FailsCleanly (compactChunk - 1) at_ s := by
  intro h
  have hfailed : ((compact 2).exec (overwritten.facing [.refused ⟨.io, "disk full"⟩ false])).1 =
      .error (.error (.storage ⟨.io, "disk full"⟩)) := by decide +kernel
  have hkeeps := (h _ _ _ 2 (overwritten_lived.faced [.refused ⟨.io, "disk full"⟩ false])
    (by decide +kernel) _ _ (Prod.ext hfailed rfl)).1
  have hbefore : (overwritten.facing [.refused ⟨.io, "disk full"⟩ false]).shown Bounds.all (some 1)
      none = .ok [⟨[107], [1], revisionOf 1, revisionOf 1, 1⟩] := by decide +kernel
  have hafter : ((compact 2).exec (overwritten.facing [.refused ⟨.io, "disk full"⟩ false])).2.shown
      Bounds.all (some 1) none = .ok [] := by decide +kernel
  rcases hkeeps Bounds.all (some 1) none with hsame | ⟨a, oldest, hrefused⟩
  · have heq := hafter.symm.trans (hsame.trans hbefore)
    cases heq
  · have heq := hafter.symm.trans hrefused
    cases heq

end Hadar.Mvcc
