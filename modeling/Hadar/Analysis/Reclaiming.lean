import Hadar.Analysis.Refinement
import Hadar.Interface.Compaction

/-!
# What a compaction leaves behind

A compaction removes the records of the revisions that the index drops. The index holds a revision
for each record but one kind: a deletion of a key that does not exist is written to the engine and
leaves the index alone. So a compaction leaves just what it may exactly when there is no such
deletion up to it.
-/

set_option autoImplicit false

namespace Hadar.Mvcc

open Hadar.Lib Hadar.Lib.Prog Hadar.Storage Std

variable {s s' : KvStore} {mutations : List Mutation}

/-- What is in force is what is visible. -/
theorem visibleAt_iff {events : List Event} {at_ : ℕ} {e : Event} (hdated : Dated Event.date events)
    (he : e ∈ events) :
    VisibleAt events at_ e ↔
      inForce Event.date Event.dies at_ (eventsOf events e.2.key) = some e := by
  unfold VisibleAt view
  constructor
  · rintro ⟨record, hview, hmodified⟩
    cases hlast : (lifeAt events at_ e.2.key).getLast? with
    | none => simp [hlast] at hview
    | some last =>
      cases hfirst : (lifeAt events at_ e.2.key).head? with
      | none => simp [hfirst] at hview
      | some first =>
        rw [hlast, hfirst] at hview
        obtain rfl := Option.some.inj hview
        have hin := (mem_of_inForce hlast).1
        have hsame : last = e := hdated.eq_of_date (mem_eventsOf.mp hin).1 he
          (congrArg Revision.main hmodified)
        rw [← hsame]
        rw [← hsame] at hlast
        exact hlast
  · intro hforce
    have hlast : (lifeAt events at_ e.2.key).getLast? = some e := hforce
    cases hlife : lifeAt events at_ e.2.key with
    | nil => simp [hlife] at hlast
    | cons first rest =>
      rw [← hlife, hlast, hlife]
      exact ⟨_, rfl, rfl⟩

/-- A deletion is idle when its key is not visible just before it. -/
theorem vacuous_iff {events : List Event} {e : Event} (hpos : 0 < e.date) :
    Vacuous events e ↔ Idle Event.date Event.dies (eventsOf events e.2.key) e := by
  have hcut : upTo Event.date (e.date - 1) (eventsOf events e.2.key) =
      (eventsOf events e.2.key).filter fun x => x.date < e.date := by
    refine List.filter_congr fun x _ => decide_eq_decide.mpr ?_
    omega
  have hview : view events (e.date - 1) e.2.key = none ↔
      lifeAt events (e.date - 1) e.2.key = [] := by
    unfold view
    cases hlife : lifeAt events (e.date - 1) e.2.key with
    | nil => simp
    | cons first rest =>
      rw [List.getLast?_eq_some_getLast (List.cons_ne_nil first rest)]
      simp
  unfold Vacuous Idle
  rw [hview, lifeAt, hcut]

theorem carries_freshOver (replies : List Reply) :
    Carries MultiVersion.empty (freshOver replies) where
  count := Nat.zero_le _
  watermark_le := le_rfl
  current := rfl
  compacted := rfl
  index := indexes_empty
  contents := ⟨none, holds_empty⟩

theorem Worked.carries (h : Worked s mutations) : ∃ w, Carries ⟨mutations, w⟩ s := by
  induction h with
  | fresh replies => exact ⟨0, carries_freshOver replies⟩
  | applied before ran ih =>
    obtain ⟨w, hcarries⟩ := ih
    exact ⟨w, (hcarries.ends_apply _ _).of_ok ran⟩
  | compacted before ran ih =>
    obtain ⟨w, hcarries⟩ := ih
    exact ⟨_, (hcarries.of_compact_ok ran).2.2⟩

/-- A compaction that succeeds leaves the records it may and no others exactly when no deletion at
or below it was of a key that did not exist.
SOURCE: crates/mvcc/src/store.rs:171-213, 263-299, crates/mvcc/src/index.rs:75-93, 182-210 -/
theorem compact_reclaims_iff (h : Worked s mutations) {at_ n : ℕ}
    (hok : (compact at_).exec s = (.ok n, s')) :
    Reclaimed mutations at_ s'.engine.committed ↔
      ∀ e ∈ stamped mutations, e.date ≤ at_ → ¬ Vacuous (stamped mutations) e := by
  obtain ⟨w, hcarries⟩ := h.carries
  obtain ⟨-, -, hcompacted⟩ := hcarries.of_compact_ok hok
  obtain ⟨marker, hholds⟩ := hcompacted.contents
  have hdated : Dated Event.date (stamped mutations) := hcompacted.live.dated
  have hpos : ∀ e ∈ stamped mutations, 0 < e.date := fun e he =>
    pos_of_mem_stamped hcompacted.count he
  have hkept : ∀ e, e ∈ kept at_ (stamped mutations) ↔ e ∈ stamped mutations ∧
      (at_ < e.date ∨ VisibleAt (stamped mutations) at_ e ∨ Vacuous (stamped mutations) e) := by
    intro e
    rw [kept, List.mem_filter, decide_eq_true_eq, Survives]
    refine and_congr_right fun he => ?_
    rw [visibleAt_iff hdated he, vacuous_iff (hpos e he)]
  constructor
  · intro hreclaimed e he hle hvacuous
    have hheld : e ∈ kept at_ (stamped mutations) := (hkept e).mpr ⟨he, .inr (.inr hvacuous)⟩
    obtain ⟨x, hx, hrev, -, -, hwhy⟩ := (hreclaimed e.1 e.dies _).mp (hholds.lookup hheld)
    obtain rfl : x = e := hdated.eq_of_date hx he (congrArg Revision.main hrev)
    rcases hwhy with hlt | hvisible
    · omega
    · have halive := (mem_of_inForce ((visibleAt_iff hdated he).mp hvisible)).2.2
      rw [hvacuous.1] at halive
      cases halive
  · intro hnone rev tombstone raw
    rw [hholds.lookup_iff]
    constructor
    · rintro ⟨e, he, hrev, hdies, hraw⟩
      obtain ⟨hin, hwhy⟩ := (hkept e).mp he
      refine ⟨e, hin, hrev, hdies, hraw, ?_⟩
      rcases hwhy with hlt | hvisible | hvacuous
      · exact .inl hlt
      · exact .inr hvisible
      · by_cases hlt : at_ < e.date
        · exact .inl hlt
        · exact absurd hvacuous (hnone e hin (by omega))
    · rintro ⟨e, hin, hrev, hdies, hraw, hwhy⟩
      exact ⟨e, (hkept e).mpr ⟨hin, hwhy.imp_right .inl⟩, hrev, hdies, hraw⟩

/-- A key is put twice and compacted at the second put. -/
def worked : KvStore :=
  ((Mvcc.apply [.put [107] [1], .put [107] [2]] 2).exec (freshOver [])).2

theorem worked_worked : Worked worked [.put [107] [1], .put [107] [2]] := by
  have hreturns : (Mvcc.apply [.put [107] [1], .put [107] [2]] 2).returnsFrom (freshOver []) =
      true := by decide +kernel
  obtain ⟨revisions, hexec⟩ := exec_of_returnsFrom hreturns
  exact .applied (.fresh []) hexec

theorem compact_reclaims_worked :
    Reclaimed [.put [107] [1], .put [107] [2]] 2 ((compact 2).exec worked).2.engine.committed := by
  have hreturns : (compact 2).returnsFrom worked = true := by decide +kernel
  obtain ⟨n, hexec⟩ := exec_of_returnsFrom hreturns
  refine (compact_reclaims_iff worked_worked hexec).mpr fun e he _ hvacuous => ?_
  have halive : ∀ e ∈ stamped [.put [107] [1], .put [107] [2]], e.dies = false := by decide
  exact Bool.false_ne_true ((halive e he).symm.trans hvacuous.1)

/-- The record of a deletion of a key that never existed is still there after a compaction past
it. -/
theorem compact_leaves_vacuous :
    ¬ ∀ s mutations at_ n s', Worked s mutations → (compact at_).exec s = (.ok n, s') →
      Reclaimed mutations at_ s'.engine.committed := by
  intro h
  have happly : (Mvcc.apply [.delete [107]] 1).returnsFrom (freshOver []) = true := by
    decide +kernel
  obtain ⟨revisions, happly⟩ := exec_of_returnsFrom happly
  have hcompact : (compact 1).returnsFrom ((Mvcc.apply [.delete [107]] 1).exec (freshOver [])).2 =
      true := by decide +kernel
  obtain ⟨n, hcompact⟩ := exec_of_returnsFrom hcompact
  have hreclaimed := h _ _ _ _ _ (.applied (.fresh []) happly) hcompact
  have hleft : ((compact 1).exec ((Mvcc.apply [.delete [107]] 1).exec (freshOver [])).2).2.engine.committed[
      backendKey (revisionOf 1) true]? = some (encodeRecord [107] []) := by decide +kernel
  obtain ⟨e, he, -, hdies, -, hwhy⟩ := (hreclaimed _ _ _).mp hleft
  have hall : ∀ e ∈ stamped [.delete [107]], e.date ≤ 1 ∧ view (stamped [.delete [107]]) 1 e.2.key =
      none := by decide +kernel
  rcases hwhy with hlt | ⟨record, hview, -⟩
  · have := (hall e he).1
    omega
  · exact Option.some_ne_none record (hview.symm.trans (hall e he).2)

end Hadar.Mvcc
