import Hadar.Analysis.Stores
import Hadar.Interface.Batching

/-!
# Batches applied in turn and at once

What a batch leaves depends on the mutations and on where the store was, so two batches in
turn leave what the two of them in one would: the revisions go on where they stopped, the
entries are written one after another, and the later marker replaces the earlier one.
-/

set_option autoImplicit false

namespace Hadar.Mvcc

open Hadar.Lib Hadar.Lib.Prog Hadar.Storage Std

/-! ## What a batch leaves -/

theorem enteredContents_append (contents : Keyspace) (a b : List Event) :
    enteredContents contents (a ++ b) = enteredContents (enteredContents contents a) b :=
  List.foldl_append

/-- The marker is out of the way of the entries. -/
theorem enteredContents_marked (contents : Keyspace) (value : Bytes) (batch : List Event) :
    enteredContents (contents.insert appliedKey value) batch =
      (enteredContents contents batch).insert appliedKey value := by
  induction batch generalizing contents with
  | nil => rfl
  | cons e rest ih =>
    have hcomm : (contents.insert appliedKey value).insert e.entry.1 e.entry.2 =
        (contents.insert e.entry.1 e.entry.2).insert appliedKey value :=
      OrderedMap.insert_comm (entry_ne_appliedKey e).symm
    show enteredContents ((contents.insert appliedKey value).insert e.entry.1 e.entry.2) rest = _
    rw [hcomm, ih]
    rfl

/-- A later marker replaces an earlier one. -/
theorem enteredContents_remarked (contents : Keyspace) (value value' : Bytes)
    (batch : List Event) :
    (enteredContents (contents.insert appliedKey value) batch).insert appliedKey value' =
      (enteredContents contents batch).insert appliedKey value' := by
  rw [enteredContents_marked, OrderedMap.insert_insert]

theorem State.entered_entered (state : State) (a b : List Event) (current current' : Revision)
    (upto upto' : ℕ) :
    (state.entered a current upto).entered b current' upto' =
      state.entered (a ++ b) current' upto' := by
  simp only [State.entered, List.foldl_append]

/-- From `s` to `s'` the mutations were given to the store, up to a position, and it answered
with the revisions. -/
structure Took (s : KvStore) (mutations : List Mutation) (upto : ℕ) (revisions : List Revision)
    (s' : KvStore) : Prop where
  fits : s.state.current.main + mutations.length ≤ i64Max
  revisions : revisions = (stampedFrom s.state.current.main mutations).map (·.1)
  contents : s'.engine.committed = (enteredContents s.engine.committed
    (stampedFrom s.state.current.main mutations)).insert appliedKey (encodePosition upto)
  state : s'.state = s.state.entered (stampedFrom s.state.current.main mutations)
    (s.state.current.after mutations.length) upto

section Took

variable {s t s' s'' : KvStore} {a b : List Mutation} {upto upto' : ℕ}
  {revisions revisions' : List Revision}

/-- One batch.
SOURCE: crates/mvcc/src/store.rs:171-213 -/
theorem ends_apply_took (batch : List Mutation) (upto : ℕ) :
    Ends (apply batch upto) s (fun revisions s' => Took s batch upto revisions s') (Fails False s)
      (Stops (i64Max < s.state.current.main + batch.length) s) :=
  Ends.mono (ends_apply_any batch upto)
    (fun _ _ h => ⟨h.1, h.2.1, congrArg (List.headD · ∅) h.2.2.2.1, h.2.2.1⟩) (fun _ _ h => h)
    fun _ h => h

/-- Two batches in turn are the two in one. -/
theorem Took.trans (h : Took s a upto revisions s') (h' : Took s' b upto' revisions' s'') :
    Took s (a ++ b) upto' (revisions ++ revisions') s'' := by
  have hmain : s'.state.current.main = s.state.current.main + a.length := by
    rw [h.state]
    exact Revision.main_after h.fits
  have hfits := h'.fits
  rw [hmain] at hfits
  refine ⟨by rw [List.length_append]; omega, ?_, ?_, ?_⟩
  · rw [h.revisions, h'.revisions, hmain, stampedFrom_append, List.map_append]
  · rw [h'.contents, h.contents, hmain, enteredContents_remarked, stampedFrom_append,
      enteredContents_append]
  · rw [h'.state, hmain, stampedFrom_append, List.length_append, ← Revision.after_after h.fits]
    rw [h.state, State.entered_entered]
    rfl

/-- What the store was given decides what it is then. -/
theorem Took.same {t' : KvStore} (h : Took s a upto revisions s') (hsame : SameStore s t)
    (h' : Took t a upto revisions' t') : revisions' = revisions ∧ SameStore s' t' := by
  refine ⟨?_, ?_, ?_⟩
  · rw [h.revisions, h'.revisions, hsame.state]
  · rw [h.contents, h'.contents, hsame.state, hsame.contents]
  · rw [h.state, h'.state, hsame.state]

end Took

/-! ## Any way of cutting -/

/-- Batches in turn are one batch, whatever they are cut into. -/
theorem took_applyAll {front : List (List Mutation × ℕ)} {last : List Mutation} {upto : ℕ}
    {s s' : KvStore} {revisions : List Revision}
    (h : (applyAll (front ++ [(last, upto)])).exec s = (.ok revisions, s')) :
    Took s ((front ++ [(last, upto)]).flatMap (·.1)) upto revisions s' := by
  induction front generalizing s revisions with
  | nil =>
    rw [List.nil_append, applyAll, exec_bind] at h
    cases hrun : (Mvcc.apply last upto).exec s with
    | mk outcome s1 =>
      rw [hrun] at h
      cases outcome with
      | error e => cases h
      | ok taken =>
        have htook := (ends_apply_took last upto).of_ok hrun
        obtain ⟨rfl, rfl⟩ : taken ++ [] = revisions ∧ s1 = s' := by
          simpa [applyAll, exec_bind] using h
        simpa using htook
  | cons piece rest ih =>
    obtain ⟨batch, position⟩ := piece
    rw [List.cons_append, applyAll, exec_bind] at h
    cases hrun : (Mvcc.apply batch position).exec s with
    | mk outcome s1 =>
      rw [hrun] at h
      cases outcome with
      | error e => cases h
      | ok taken =>
        dsimp only at h
        rw [exec_bind] at h
        cases hmore : (applyAll (rest ++ [(last, upto)])).exec s1 with
        | mk outcome' s2 =>
          rw [hmore] at h
          cases outcome' with
          | error e => cases h
          | ok more =>
            obtain ⟨rfl, rfl⟩ : taken ++ more = revisions ∧ s2 = s' := by simpa using h
            exact ((ends_apply_took batch position).of_ok hrun).trans (ih hmore)

/-- Replay in one batch equals the batches it replays. Where a store took a list of mutations in
consecutive batches, the same store takes the whole list in one batch up to the last position:
it ends with the same contents and the same state, and answers with the revisions the batches
were answered with, one after another. Only the engine can make the one batch fail.
SOURCE: crates/mvcc/src/store.rs:171-213, crates/wal/src/wal.rs:250-254 -/
theorem batches_merge {s t s' : KvStore} {front : List (List Mutation × ℕ)}
    {last : List Mutation} {upto : ℕ} {revisions : List Revision}
    (hran : (applyAll (front ++ [(last, upto)])).exec s = (.ok revisions, s'))
    (hsame : SameStore s t) :
    (∀ whole t', (Mvcc.apply ((front ++ [(last, upto)]).flatMap (·.1)) upto).exec t =
      (.ok whole, t') → whole = revisions ∧ SameStore s' t') ∧
    (t.engine.replies = [] →
      ∃ whole t', (Mvcc.apply ((front ++ [(last, upto)]).flatMap (·.1)) upto).exec t =
        (.ok whole, t')) := by
  have htook := took_applyAll hran
  refine ⟨fun whole t' hwhole => htook.same hsame ((ends_apply_took _ upto).of_ok hwhole),
    fun hcalm => ?_⟩
  have hfits := htook.fits
  rw [← hsame.state] at hfits
  obtain ⟨whole, t', hexec, -⟩ := Ends.returns (Ends.mono
    (ends_apply_took (s := t) ((front ++ [(last, upto)]).flatMap (·.1)) upto)
    (fun _ _ h => h) (fun _ _ h => (Engine.calm hcalm).1 (h.2.resolve_right id))
    fun _ h => (Engine.calm hcalm).2 (h.2.resolve_right (Nat.not_lt_of_le hfits)))
  exact ⟨whole, t', hexec⟩

/-- A key put, deleted and put again in three batches, one of them empty. -/
theorem batches_merge_three :
    ∃ revisions s', (applyAll [([.put [107] [1], .delete [107]], 1), ([], 1),
        ([.put [107] [2]], 3)]).exec KvStore.fresh = (.ok revisions, s') ∧
      ∀ whole t', (Mvcc.apply [.put [107] [1], .delete [107], .put [107] [2]] 3).exec
        KvStore.fresh = (.ok whole, t') → whole = revisions ∧ SameStore s' t' := by
  obtain ⟨revisions, hran⟩ := exec_of_returnsFrom
    (p := applyAll ([([.put [107] [1], .delete [107]], 1), ([], 1)] ++ [([.put [107] [2]], 3)]))
    (s := KvStore.fresh) (by decide +kernel)
  exact ⟨revisions, _, hran, (batches_merge hran ⟨rfl, rfl⟩).1⟩

end Hadar.Mvcc
