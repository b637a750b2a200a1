import Hadar.Analysis.Tracking
import Hadar.Interface.Reopening

/-!
# The live index describes what is stored

The index is updated mutation by mutation as batches are accepted, and `open` rebuilds one record
by record. Both enter the same mutations under the same revisions into an empty index, since the
engine holds the records of the accepted batches and of no other. So the two are one index,
whatever was refused on the way.
-/

set_option autoImplicit false

namespace Hadar.Mvcc

open Hadar.Lib Hadar.Lib.Prog Hadar.Storage Std

variable {s s' : KvStore}

/-! ## Reads of equal stores -/

theorem exec_lookup_calm (hs : s.engine.replies = []) (view : Keyspace) (key : Bytes) :
    (onEngine (lookup view key)).exec s = (.ok view[key]?, s) := by
  obtain ⟨_, hexec, rfl⟩ := returns_of_calm (reads_onEngine (reads_lookup view key)) hs
  exact hexec

theorem exec_beginWrite_calm (hs : s.engine.replies = []) :
    (onEngine beginWrite).exec s = (.ok ⟨s.engine.committed⟩, s) := by
  obtain ⟨_, hexec, rfl⟩ := returns_of_calm (reads_onEngine reads_beginWrite) hs
  exact hexec

/-- What is fetched depends on the records alone. -/
theorem fetch_congr (hs : s.engine.replies = []) (hs' : s'.engine.replies = []) {txn txn' : WriteTxn}
    (htxn : SameRecords txn.working txn'.working) (limit : Option ℕ)
    (visible : List (Bytes × Found)) (records : List Record) :
    ((fetch txn limit visible records).exec s).1 =
      ((fetch txn' limit visible records).exec s').1 := by
  induction visible generalizing records with
  | nil => rfl
  | cons p rest ih =>
    obtain ⟨key, found⟩ := p
    rw [fetch, fetch]
    split
    · rfl
    · rw [exec_bind_ok (exec_lookup_calm hs _ _), exec_bind_ok (exec_lookup_calm hs' _ _), htxn]
      split
      · rfl
      · split
        · rfl
        · exact ih _

/-- Stores in the same state over the same records answer every read alike.
SOURCE: crates/mvcc/src/store.rs:225-261 -/
theorem range_congr (hs : s.engine.replies = []) (hs' : s'.engine.replies = [])
    (hstate : s.state = s'.state)
    (hcontents : SameRecords s.engine.committed s'.engine.committed ∨ ∀ bounds at_,
      s.state.index.range bounds at_ = []) (bounds : Bounds) (at_ limit : Option ℕ) :
    ((range bounds at_ limit).exec s).1 = ((range bounds at_ limit).exec s').1 := by
  unfold range
  rw [exec_bind_ok (exec_get s), exec_bind_ok (exec_get s'), ← hstate]
  split
  · rfl
  · split
    · rfl
    · dsimp only
      rw [exec_bind_ok (exec_beginWrite_calm hs), exec_bind_ok (exec_beginWrite_calm hs')]
      rcases hcontents with hsame | hempty
      · exact fetch_congr hs hs' hsame _ _ _
      · rw [hempty]
        rfl

theorem SameRecords.refl (contents : Keyspace) : SameRecords contents contents := fun _ _ => rfl

/-- A position is no record. -/
theorem sameRecords_mark (contents : Keyspace) (value : Bytes) :
    SameRecords (contents.insert appliedKey value) contents :=
  getElem?_marked contents value

/-! ## The store of the accepted batches -/

/-- The store is what entering some mutations in an empty one makes it, but for the position, which
is what the engine holds. -/
structure Reflects (s : KvStore) (log : List Mutation) : Prop where
  fits : Fits log
  state : s.state = { stateOf log with applied := s.state.applied }
  position : s.state.applied < 2 ^ 64
  contents : ∃ marker : Option ℕ, marker.getD 0 = s.state.applied ∧
    Holds s.engine.committed marker (stamped log)

section Reflects

variable {log : List Mutation}

theorem Reflects.later (h : Reflects s log) (hlater : s.Later s') : Reflects s' log := by
  obtain ⟨marker, hmarker, hholds⟩ := h.contents
  refine ⟨h.fits, ?_, ?_, marker, ?_, ?_⟩
  · rw [hlater.state]
    exact h.state
  · rw [hlater.state]
    exact h.position
  · rw [hlater.state]
    exact hmarker
  · rw [hlater.engine.committed]
    exact hholds

theorem Reflects.current (h : Reflects s log) : s.state.current = revisionOf log.length := by
  rw [h.state]
  rfl

/-- Opening rebuilds the state, position and all.
SOURCE: crates/mvcc/src/store.rs:66-117 -/
theorem Reflects.restored (h : Reflects s log) {marker : Option ℕ}
    (hmarker : marker.getD 0 = s.state.applied) :
    restoredState marker (stamped log) = s.state := by
  have hcount : restoredState (some log.length) (stamped log) = stateOf log :=
    restoredState_eq rfl h.fits
  have hposition : (marker.map (· % 2 ^ 64)).getD 0 = s.state.applied := by
    have hlt := h.position
    cases marker with
    | none => exact hmarker
    | some position =>
      obtain rfl : position = s.state.applied := hmarker
      exact Nat.mod_eq_of_lt hlt
  calc restoredState marker (stamped log)
      = { restoredState (some log.length) (stamped log) with applied := s.state.applied } := by
        rw [← hposition]
        rfl
    _ = s.state := by rw [hcount, ← h.state]

theorem Reflects.openStore (h : Reflects s log) :
    openStore (Engine.calmed s.engine) = (.ok s.state, Engine.calmed s.engine) := by
  obtain ⟨marker, hmarker, hholds⟩ := h.contents
  rw [← h.restored hmarker]
  exact openStore_eq (e := Engine.calmed s.engine) hholds rfl

/-- A batch that is accepted is entered in the index and in the contents alike.
SOURCE: crates/mvcc/src/store.rs:171-213 -/
theorem Reflects.ends_apply (h : Reflects s log) {batch : List Mutation} {upto : ℕ}
    (hkeys : ∀ m ∈ batch, m.key.length ≤ u32Max) (hupto : upto < 2 ^ 64) :
    Ends (Mvcc.apply batch upto) s (fun _ s' => Reflects s' (log ++ batch)) (fun _ s' => s.Later s')
      fun s' => s.Later s' := by
  have hcount := h.fits.count
  refine Ends.mono (Mvcc.ends_apply h.current hcount batch upto) (fun _ s' hok => ?_)
    (fun _ _ hfails => hfails.1) fun _ hstops => hstops.1
  obtain ⟨hroom, -, hstate, hcommits, -, -⟩ := hok
  rw [← List.length_append] at hroom
  have hdated : Dated Event.date (stamped log ++ stampedFrom log.length batch) := by
    rw [← stamped_append]
    exact dated_stamped hroom
  obtain ⟨marker, -, hholds⟩ := h.contents
  have happlied : s'.state.applied = upto := by rw [hstate]; rfl
  refine ⟨⟨fun m hm => ?_, hroom⟩, ?_, ?_, some upto, ?_, ?_⟩
  · exact (List.mem_append.mp hm).elim (h.fits.keys m) (hkeys m)
  · rw [happlied, ← stateOf_entered, hstate, h.state]
    rfl
  · rw [happlied]
    exact hupto
  · rw [happlied]
    rfl
  · rw [Engine.committed, hcommits, stamped_append]
    exact (hholds.insert_all hdated).mark _

/-- A checkpoint writes the position again, if it writes anything.
SOURCE: crates/mvcc/src/store.rs:148-160 -/
theorem Reflects.ends_checkpoint (h : Reflects s log) :
    Ends Mvcc.checkpoint s (fun _ s' => Reflects s' log)
      (fun _ s' => Reflects s' log ∧ s'.state = s.state ∧
        SameRecords s'.engine.committed s.engine.committed)
      fun s' => s.Later s' := by
  obtain ⟨marker, -, hholds⟩ := h.contents
  have hmarked : ∀ s' : KvStore, s'.state = s.state → s'.engine.commits =
      s.engine.committed.insert appliedKey (encodePosition s.state.applied) :: s.engine.commits →
      Reflects s' log := by
    intro s' hstate hcommits
    refine ⟨h.fits, ?_, ?_, some s.state.applied, ?_, ?_⟩
    · rw [hstate]
      exact h.state
    · rw [hstate]
      exact h.position
    · rw [hstate]
      rfl
    · rw [Engine.committed, hcommits]
      exact hholds.mark _
  refine Ends.mono Mvcc.ends_checkpoint (fun _ s' hok => ?_) (fun _ s' herr => ?_)
    fun _ hstops => hstops.1
  · obtain ⟨-, hstate, hcommits, -, -⟩ := hok
    exact hmarked s' hstate hcommits
  · rcases herr.1 with hlater | ⟨hstate, hcommits, -, -⟩
    · refine ⟨h.later hlater, hlater.state, ?_⟩
      rw [hlater.engine.committed]
      exact SameRecords.refl _
    · refine ⟨hmarked s' hstate hcommits, hstate, ?_⟩
      rw [Engine.committed, hcommits]
      exact sameRecords_mark _ _

end Reflects

/-! ## Runs -/

/-- What a call ends in: an error leaves the state as it was, and the records. -/
theorem Reflects.ends_move {log : List Mutation} (h : Reflects s log) {move : Move}
    (hallowed : move.Allowed) :
    Ends move.prog s (fun _ s' => ∃ log, Reflects s' log)
      (fun _ s' => (∃ log, Reflects s' log) ∧ s'.state = s.state ∧
        SameRecords s'.engine.committed s.engine.committed)
      fun s' => ∃ log, Reflects s' log := by
  cases move with
  | apply batch upto =>
    refine ends_bind.mpr (Ends.mono (h.ends_apply hallowed.1 hallowed.2)
      (fun _ s' hok => ends_pure.mpr ⟨_, hok⟩) (fun _ s' hlater => ⟨⟨log, h.later hlater⟩,
        hlater.state, ?_⟩) fun s' hlater => ⟨log, h.later hlater⟩)
    rw [hlater.engine.committed]
    exact SameRecords.refl _
  | checkpoint =>
    exact ends_bind.mpr (Ends.mono h.ends_checkpoint (fun _ s' hok => ends_pure.mpr ⟨log, hok⟩)
      (fun _ s' herr => ⟨⟨log, herr.1⟩, herr.2⟩) fun s' hlater => ⟨log, h.later hlater⟩)

theorem Trial.reflects (h : Trial s) : ∃ log, Reflects s log := by
  induction h with
  | opened ran =>
    rename_i replies state e
    have hopened := (reads_openState (e := ⟨[], 0, replies⟩) holds_empty).of_ok ran
    obtain ⟨rfl, hlater⟩ := hopened
    have hfits : Fits [] := ⟨fun m hm => absurd hm List.not_mem_nil, Nat.zero_le _⟩
    have hstate : restoredState none (stamped []) = stateOf [] := restoredState_eq rfl hfits
    have happlied : (restoredState none (stamped [])).applied = 0 := rfl
    refine ⟨[], hfits, ?_, ?_, none, happlied.symm, ?_⟩
    · exact hstate
    · show (restoredState none (stamped [])).applied < 2 ^ 64
      rw [happlied]
      exact Nat.two_pow_pos 64
    · rw [hlater.committed]
      exact holds_empty
  | moved move before allowed ih =>
    obtain ⟨log, hreflects⟩ := ih
    exact Ends.left (Ends.mono (hreflects.ends_move allowed) (fun _ _ h => h)
      (fun _ _ h => h.1) fun _ h => h)

/-- **The live index describes what is stored.** After any run in which calls of the engine are
refused in any pattern, a store opened over the committed contents shows what the live one shows,
and a call that returns an error changes none of it. -/
theorem trial_reflected (h : Trial s) :
    (∃ state, openStore (Engine.calmed s.engine) = (.ok state, Engine.calmed s.engine) ∧
        SameView ⟨s.engine, state⟩ s) ∧
      ∀ move : Move, move.Allowed → ∀ e s', move.prog.exec s = (.error (.error e), s') →
        SameView s' s := by
  obtain ⟨log, hreflects⟩ := h.reflects
  refine ⟨⟨s.state, hreflects.openStore, rfl, rfl, fun _ _ _ _ => rfl⟩, ?_⟩
  intro move hallowed e s' hexec
  obtain ⟨-, hstate, hrecords⟩ := (hreflects.ends_move hallowed).of_error hexec
  refine ⟨congrArg State.current hstate, congrArg State.applied hstate, fun bounds at_ limit _ => ?_⟩
  exact @range_congr ⟨Engine.calmed s'.engine, s'.state⟩ ⟨Engine.calmed s.engine, s.state⟩ rfl rfl
    hstate (.inl hrecords) bounds at_ limit

/-! ## A checkpoint refused after it was applied -/

/-- A store opened over an empty engine. -/
def openedOver (replies : List Reply) : KvStore :=
  match openState.exec ⟨[], 0, replies⟩ with
  | (.ok state, e) => ⟨e, state⟩
  | (.error _, e) => ⟨e, ⟨Index.empty, Revision.zero, 0, 0⟩⟩

theorem trial_openedOver {replies : List Reply}
    (h : openState.returnsFrom ⟨[], 0, replies⟩ = true) : Trial (openedOver replies) := by
  obtain ⟨state, hexec⟩ := exec_of_returnsFrom h
  have hopened : openedOver replies = ⟨(openState.exec ⟨[], 0, replies⟩).2, state⟩ := by
    rw [openedOver, hexec]
  rw [hopened]
  exact .opened hexec

/-- A key is put and one that does not exist is deleted; the checkpoint after that is refused. -/
def unsureStore : KvStore :=
  ((Move.apply [.put [107] [1], .delete [108]] 2).prog.exec
    (openedOver (List.replicate 10 .done ++ [.refused ⟨.io, "no space left"⟩ true]))).2

theorem trial_reflected_unsure :
    (∃ state, openStore (Engine.calmed unsureStore.engine) =
        (.ok state, Engine.calmed unsureStore.engine) ∧
        SameView ⟨unsureStore.engine, state⟩ unsureStore) ∧
      ∃ e s', Move.checkpoint.prog.exec unsureStore = (.error (.error e), s') ∧
        SameView s' unsureStore := by
  have htrial : Trial unsureStore := by
    refine .moved _ (trial_openedOver (by decide +kernel)) ⟨?_, by decide⟩
    decide +kernel
  obtain ⟨hreopened, hkept⟩ := trial_reflected htrial
  have hrefused : ∃ e s', Move.checkpoint.prog.exec unsureStore = (.error (.error e), s') :=
    ⟨_, _, rfl⟩
  obtain ⟨e, s', hexec⟩ := hrefused
  exact ⟨hreopened, e, s', hexec, hkept .checkpoint trivial e s' hexec⟩

end Hadar.Mvcc
