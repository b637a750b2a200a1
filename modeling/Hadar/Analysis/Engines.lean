import Hadar.Lib.Faults
import Hadar.Model.Storage

/-!
# Calls of the engine

What each call of the engine can end in, for every list of replies. A call that does not
commit leaves the contents alone; a commit adds its contents or does not, and a refused
durable one may have done either.
-/

set_option autoImplicit false

namespace Hadar.Storage

open Hadar.Lib Hadar.Lib.Prog Std

namespace Engine

/-- The engine some calls later, with nothing committed in between. -/
structure Later (e e' : Engine) : Prop where
  commits : e'.commits = e.commits
  durable : e'.durable = e.durable
  replies : e'.replies <:+ e.replies

theorem Later.refl (e : Engine) : e.Later e := ⟨rfl, rfl, List.suffix_refl _⟩

theorem Later.trans {e e' e'' : Engine} (h : e.Later e') (h' : e'.Later e'') : e.Later e'' :=
  ⟨h'.commits.trans h.commits, h'.durable.trans h.durable, h'.replies.trans h.replies⟩

instance : Faults Engine where
  Later := Later
  Refuses := fun e => ∃ x applied, Reply.refused x applied ∈ e.replies
  Crashes := fun e => Reply.crash ∈ e.replies
  refl := Later.refl
  trans := Later.trans
  refuses := fun h ⟨x, applied, hmem⟩ => ⟨x, applied, h.replies.subset hmem⟩
  crashes := fun h hmem => h.replies.subset hmem

variable {e e' : Engine}

theorem Later.committed (h : e.Later e') : e'.committed = e.committed := by
  rw [Engine.committed, Engine.committed, h.commits]

/-- An engine whose calls all succeed neither refuses nor crashes. -/
theorem calm (h : e.replies = []) : ¬ Faults.Refuses e ∧ ¬ Faults.Crashes e := by
  constructor
  · rintro ⟨x, applied, hmem⟩
    rw [h] at hmem
    cases hmem
  · intro hmem
    have hmem' : Reply.crash ∈ e.replies := hmem
    rw [h] at hmem'
    cases hmem'

/-- Such an engine stays as it is. -/
theorem Later.eq_of_calm (h : e.Later e') (hcalm : e.replies = []) : e' = e := by
  obtain ⟨commits', durable', replies'⟩ := e'
  obtain ⟨commits, durable, replies⟩ := e
  obtain ⟨rfl, rfl, hreplies⟩ := h
  dsimp only at hcalm hreplies
  rw [hcalm, List.suffix_nil] at hreplies
  rw [hcalm, hreplies]

end Engine

variable {α : Type} {e : Engine}

/-! ## The calls -/

/-- Taking a reply. -/
theorem ends_nextReply : Ends nextReply e
    (fun r e' => e.Later e' ∧ ((∃ x applied, r = .refused x applied) → Faults.Refuses e) ∧
      (r = .crash → Faults.Crashes e))
    (fun _ _ => False) (fun _ => False) := by
  unfold nextReply
  refine ends_bind.mpr (ends_get.mpr ?_)
  cases hr : e.replies with
  | nil =>
    refine ends_pure.mpr ⟨Faults.refl e, ?_, ?_⟩
    · rintro ⟨_, _, h⟩; cases h
    · intro h; cases h
  | cons r rest =>
    refine ends_bind.mpr (ends_set.mpr (ends_pure.mpr ⟨⟨rfl, rfl, ?_⟩, ?_, ?_⟩))
    · rw [hr]; exact List.suffix_cons r rest
    · rintro ⟨x, applied, rfl⟩
      exact ⟨x, applied, by rw [hr]; exact List.mem_cons_self ..⟩
    · rintro rfl
      show Reply.crash ∈ e.replies
      rw [hr]
      exact List.mem_cons_self ..

/-- A call takes effect if it is not refused and nothing stops. -/
theorem ends_call {effect : Prog Engine Error α} {ok : α → Engine → Prop}
    (h : ∀ e', e.Later e' → Ends effect e' ok (Fails False e) (Stops False e)) :
    Ends (call effect) e ok (Fails False e) (Stops False e) := by
  refine ends_bind.mpr (Ends.mono ends_nextReply (fun r e' hr => ?_) (fun _ _ h => h.elim)
    fun _ h => h.elim)
  obtain ⟨hlater, hrefused, hcrash⟩ := hr
  cases r with
  | done => exact h e' hlater
  | refused x applied => exact ends_fail.mpr ⟨hlater, .inl (hrefused ⟨x, applied, rfl⟩)⟩
  | crash => exact ends_crashing.mpr ⟨hlater, .inl (hcrash rfl)⟩

/-- A call that only returns something. -/
theorem reads_call {a : α} : Reads False False (call (pure a)) e (· = a) :=
  ends_call fun _ h => ends_pure.mpr ⟨rfl, h⟩

theorem reads_beginRead : Reads False False beginRead e (· = ⟨e.committed⟩) :=
  ends_call fun _ h => ends_bind.mpr (ends_get.mpr (ends_pure.mpr
    ⟨congrArg ReadTxn.mk h.committed, h⟩))

theorem reads_beginWrite : Reads False False beginWrite e (· = ⟨e.committed⟩) :=
  ends_call fun _ h => ends_bind.mpr (ends_get.mpr (ends_pure.mpr
    ⟨congrArg WriteTxn.mk h.committed, h⟩))

theorem reads_lookup (view : Keyspace) (key : Bytes) :
    Reads False False (lookup view key) e (· = view[key]?) := reads_call

theorem reads_scan (view : Keyspace) {bounds : Bounds} (limit : Option ℕ)
    (hb : bounds.panics = false) :
    Reads False False (scan view bounds limit) e
      (· = capped limit (entriesIn view bounds)) := by
  unfold scan
  rw [hb, Bool.and_false]
  exact reads_call

theorem reads_insert (txn : WriteTxn) (key value : Bytes) :
    Reads False False (txn.insert key value) e (· = ⟨txn.working.insert key value⟩) := reads_call

theorem reads_remove (txn : WriteTxn) (key : Bytes) :
    Reads False False (txn.remove key) e (·.1 = ⟨txn.working.erase key⟩) :=
  Reads.mono reads_call (fun _ h => congrArg Prod.fst h) id id

/-- A commit adds its contents or changes nothing. -/
theorem ends_commit (txn : WriteTxn) : Ends txn.commit e
    (fun _ e' => e'.commits = txn.working :: e.commits ∧ e'.durable = e.durable ∧
      e'.replies <:+ e.replies)
    (Fails False e) (Stops False e) :=
  ends_call fun e' h => ends_modify.mpr ⟨by rw [h.commits], h.durable, h.replies⟩

/-- A durable commit adds its contents and makes all contents durable; refused, it may
still have added them.
SOURCE: crates/storage-api/src/engine.rs:134-152 -/
theorem ends_commitDurable (txn : WriteTxn) : Ends txn.commitDurable e
    (fun _ e' => e'.commits = txn.working :: e.commits ∧
      e'.durable = e.commits.length + 1 ∧ e'.replies <:+ e.replies)
    (fun _ e' => (e.Later e' ∨ (e'.commits = txn.working :: e.commits ∧
      e'.durable = e.durable ∧ e'.replies <:+ e.replies)) ∧ Faults.Refuses e)
    (Stops False e) := by
  refine ends_bind.mpr (Ends.mono ends_nextReply (fun r e' hr => ?_) (fun _ _ h => h.elim)
    fun _ h => h.elim)
  obtain ⟨hlater, hrefused, hcrash⟩ := hr
  cases r with
  | done =>
    refine ends_modify.mpr ⟨by rw [hlater.commits], by rw [hlater.commits], hlater.replies⟩
  | refused x applied =>
    cases applied with
    | false => exact ends_fail.mpr ⟨.inl hlater, hrefused ⟨x, _, rfl⟩⟩
    | true =>
      refine ends_bind.mpr (ends_modify.mpr (ends_fail.mpr
        ⟨.inr ⟨?_, hlater.durable, hlater.replies⟩, hrefused ⟨x, _, rfl⟩⟩))
      rw [← hlater.commits]
  | crash => exact ends_crashing.mpr ⟨hlater, .inl (hcrash rfl)⟩

end Hadar.Storage
