import Hadar.Analysis.Lives
import Hadar.Analysis.Refinement
import Hadar.Interface.Atomicity

/-!
# Writes across a crash

Recovery takes the records that are complete, one by one, so what survives of a batch is as many
of its mutations as fit in the bytes the crash left. A write is visible whole or not at all
exactly when that number does not fall inside it.
-/

set_option autoImplicit false

namespace Hadar.Mvcc

open Hadar.Lib Hadar.Lib.Prog Hadar.Storage Std

variable {s : KvStore} {log front : List Mutation} {m : Mutation}

/-! ## The newest mutation of a key -/

/-- A store that has applied a log shows it. -/
theorem Tracks.shows (h : Tracks s log) (hkeys : ∀ m ∈ log, m.key.length ≤ u32Max) :
    Shows (stamped log) 0 s := by
  have hdated : Dated Event.date (stamped log) := dated_stamped h.count
  have hpos : ∀ e ∈ stamped log, 0 < e.date := fun e he =>
    (lt_date_of_mem_stampedFrom (by rw [Nat.zero_add]; exact h.count) he).1
  obtain ⟨-, -, marker, -, hholds⟩ := h.newest
  rw [List.take_length] at hholds
  refine ⟨hdated, fun e he => hkeys e.2 (mem_of_mem_stampedFrom he), ?_, marker, ?_⟩
  · rw [h.state]
    exact indexes_empty.enter_all hdated hpos
  · have hall : kept 0 (stamped log) = stamped log :=
      List.filter_eq_self.mpr fun e he => decide_eq_true (.inl (hpos e he))
    rwa [hall]

/-- At its own revision a mutation is the last one of its key. -/
theorem upTo_eventsOf_stamped {back : List Mutation}
    (hcount : (front ++ m :: back).length ≤ i64Max) :
    upTo Event.date (front.length + 1) (eventsOf (stamped (front ++ m :: back)) m.key) =
      eventsOf (stamped front) m.key ++ [(revisionOf (front.length + 1), m)] := by
  rw [List.length_append, List.length_cons] at hcount
  have hdate : Event.date (revisionOf (front.length + 1), m) = front.length + 1 :=
    Nat.min_eq_left (by omega)
  rw [stamped_append, stampedFrom_cons, eventsOf_append, upTo_append]
  congr 1
  · refine upTo_eq_self fun e he => ?_
    have hmem := (mem_eventsOf.mp he).1
    have := (lt_date_of_mem_stampedFrom (n := 0) (a := front) (by omega) hmem).2
    omega
  · have hlater : upTo Event.date (front.length + 1)
        (eventsOf (stampedFrom (front.length + 1) back) m.key) = [] := by
      refine upTo_eq_nil fun e he => ?_
      exact (lt_date_of_mem_stampedFrom (by omega) (mem_eventsOf.mp he).1).1
    have hhere : eventsOf ((revisionOf (front.length + 1), m) ::
        stampedFrom (front.length + 1) back) m.key = (revisionOf (front.length + 1), m) ::
          eventsOf (stampedFrom (front.length + 1) back) m.key :=
      List.filter_cons_of_pos (by simp)
    rw [hhere, ← List.singleton_append, upTo_append, hlater, List.append_nil]
    exact upTo_eq_self fun e he => by rw [List.mem_singleton.mp he, hdate]

/-- At its own revision a put is what the key's record tells of. -/
theorem view_put {back : List Mutation} {key value : Bytes}
    (hlog : log = front ++ .put key value :: back) (hcount : log.length ≤ i64Max) :
    ∃ r, view (stamped log) (front.length + 1) key = some r ∧
      r.modified.main = front.length + 1 ∧ r.value = value := by
  subst hlog
  have hlife : lifeAt (stamped (front ++ .put key value :: back)) (front.length + 1) key =
      life Event.dies (eventsOf (stamped front) key) ++
        [(revisionOf (front.length + 1), .put key value)] :=
    (congrArg _ (upTo_eventsOf_stamped (m := .put key value) hcount)).trans (life_concat_alive rfl)
  rw [List.length_append, List.length_cons] at hcount
  obtain ⟨first, hfirst⟩ : ∃ first, (life Event.dies (eventsOf (stamped front) key) ++
      [(revisionOf (front.length + 1), Mutation.put key value)]).head? = some first :=
    Option.isSome_iff_exists.mp (by simp)
  simp only [view, hlife, List.getLast?_concat, hfirst]
  exact ⟨_, rfl, Nat.min_eq_left (by omega), rfl⟩

/-- At the revision of a delete the key has no record. -/
theorem view_delete {back : List Mutation} {key : Bytes}
    (hlog : log = front ++ .delete key :: back) (hcount : log.length ≤ i64Max) :
    view (stamped log) (front.length + 1) key = none := by
  subst hlog
  have hlife : lifeAt (stamped (front ++ .delete key :: back)) (front.length + 1) key = [] :=
    (congrArg _ (upTo_eventsOf_stamped (m := .delete key) hcount)).trans (life_concat_dies rfl)
  simp only [view, hlife, List.head?_nil]

theorem contains_point_iff {key key' : Bytes} :
    (Bounds.point key).contains key' = true ↔ key' = key := by
  rw [Bounds.contains, Bounds.point, Bool.and_eq_true]
  constructor
  · rintro ⟨hstart, hstop⟩
    exact (LawfulEqCmp.eq_of_compare (OrientedCmp.isLE_antisymm hstart hstop)).symm
  · rintro rfl
    exact ⟨ReflCmp.isLE_rfl, ReflCmp.isLE_rfl⟩

/-- A store that has applied a log shows just its mutations, each at its own revision. -/
theorem Tracks.visible_iff (h : Tracks s log) (hkeys : ∀ m ∈ log, m.key.length ≤ u32Max)
    {number : ℕ} (hpos : 0 < number) (hm : number ≤ log.length → log[number - 1]? = some m) :
    Wal.Visible s number m ↔ number ≤ log.length := by
  have hcurrent : s.state.current.main = log.length := by
    rw [h.current]
    exact Nat.min_eq_left h.count
  constructor
  · rintro ⟨records, hexec, -⟩
    by_contra hlt
    have hfuture : ((range (Bounds.point m.key) (some number) none).exec
        (Wal.KvStore.calmed s)).1 =
        .error (.error (.futureRevision number s.state.current.main)) := by
      have hresolve : resolve s.state (some number) =
          .error (.futureRevision number s.state.current.main) := by
        rw [resolve, Option.getD_some, if_pos (by omega)]
      unfold range
      rw [exec_bind_ok (exec_get _), show (Wal.KvStore.calmed s).state = s.state from rfl, hresolve]
      rfl
    rw [hfuture] at hexec
    cases hexec
  · intro hle
    have hcalmed : Tracks (Wal.KvStore.calmed s) log := ⟨h.count, h.state, h.newest⟩
    have hshows := hcalmed.shows hkeys
    have hcompacted : s.state.compacted = 0 := by
      rw [h.state]
      rfl
    obtain ⟨records, hexec, hrecords⟩ := returns_of_calm (reads_range hshows.serves
      (Index.refuses_built _ (.point m.key)) none (some number) rfl (Nat.zero_le _)
      (show s.state.compacted ≤ number by omega) (show number ≤ s.state.current.main by omega)) rfl
    have hlists : Lists (stamped log) (Bounds.point m.key) number _ :=
      lists_tell (Bounds.point m.key) hshows.serves (Nat.zero_le _)
    rw [show records = _ from hrecords] at hexec
    refine ⟨_, by rw [hexec], ?_⟩
    -- the mutation with the log before it and the log after it
    obtain ⟨hlt, hget⟩ := List.getElem?_eq_some_iff.mp (hm hle)
    have hsplit : log = log.take (number - 1) ++ m :: log.drop (number - 1 + 1) := by
      rw [← hget, List.getElem_cons_drop, List.take_append_drop]
    have hlength : (log.take (number - 1)).length + 1 = number := by
      rw [List.length_take_of_le (by omega)]
      omega
    cases m with
    | put key value =>
      obtain ⟨r, hr, hmodified, hvalue⟩ := view_put hsplit h.count
      rw [hlength] at hr hmodified
      have hkey := key_of_view hr
      refine ⟨r, (hlists.mem_iff r).mpr ⟨contains_point_iff.mpr hkey, ?_⟩, hmodified, hvalue⟩
      rw [hkey]
      exact hr
    | delete key =>
      refine List.eq_nil_iff_forall_not_mem.mpr fun r hr => ?_
      obtain ⟨hin, hr⟩ := (hlists.mem_iff r).mp hr
      have hnone := view_delete hsplit h.count
      rw [hlength] at hnone
      rw [contains_point_iff.mp hin] at hr
      exact absurd (hnone.symm.trans hr) (by simp)

end Hadar.Mvcc

namespace Hadar.Wal

open Hadar.Lib Hadar.Lib.Prog Hadar.Storage Hadar.Mvcc Std

/-! ## What a torn append leaves -/

theorem mem_numberedFrom_iff {first : ℕ} {mutations : List Mutation} {p : ℕ × Mutation} :
    p ∈ numberedFrom first mutations ↔ first < p.1 ∧ mutations[p.1 - (first + 1)]? = some p.2 := by
  rw [numberedFrom, List.mem_map]
  constructor
  · rintro ⟨q, hq, rfl⟩
    rw [List.mem_zipIdx_iff_getElem?] at hq
    refine ⟨by dsimp only; omega, ?_⟩
    rw [← hq]
    congr 1
    dsimp only
    omega
  · rintro ⟨hlt, hget⟩
    refine ⟨(p.2, p.1 - (first + 1)), List.mem_zipIdx_iff_getElem?.mpr hget, ?_⟩
    refine Prod.ext ?_ rfl
    dsimp only
    omega

section Torn

variable [Crc32] {options : Options} {w w' w₂ : Writer} {log : List Mutation} {settled cut : ℕ}
  {replies : List Reply} {calls : List Storage.Reply} {batch : List Request} {disk : Disk}
  {engine : Engine}

/-- Of a batch that was being appended the records that fit are left.
SOURCE: crates/wal/src/writer.rs:182-197 -/
theorem TornAppend.dormant (h : TornAppend (w.given replies calls) batch cut w' disk engine)
    (hsteady : Steady w log) (hobliging : Obliging replies calls) :
    Dormant disk engine (log ++ (mutationsOf batch).take (fitting cut (mutationsOf batch))) := by
  obtain ⟨start, older, active, hfollows, hsound, hflushed⟩ := hsteady.given replies calls
  obtain ⟨bytes, rolled, file, hencode, hroll, happend, hfile, hleft⟩ := h.crashed
  obtain ⟨hbatch, rfl⟩ := encodable_of_encodeBatch hencode
  have hrolled := (hfollows.placed.ends_rollIfFull hfollows.applied).of_ok hroll
  obtain ⟨older₁, active₁, torn₁, h₁, hstore₁, hroom₁⟩ := hfollows.rolled hrolled
  have hsound₁ : rolled.segment.poisoned = false := by
    by_contra hpoisoned
    rw [hrolled.eq_of_poisoned (by simpa using hpoisoned)] at hpoisoned
    exact hpoisoned hsound
  obtain rfl := h₁.clean hsound₁
  obtain ⟨-, hstore, hdead⟩ :=
    (h₁.placed.ends_append hsound₁ hroom₁ hbatch).of_dead happend (.inr rfl)
  obtain ⟨files, last, hlist, -, -⟩ := h₁.placed.exists_file
  obtain ⟨reach, -, hwritten⟩ := hdead.resolve_left
    (fun hrefused => hobliging.disk _ (hrolled.refuses hrefused)) files last hlist
  obtain rfl : last = file :=
    Option.some.inj ((OrderedMap.getElem?_of_toList hlist).symm.trans hfile)
  -- all but the active segment is as it was, and of that one the bytes are known
  obtain ⟨rest, -, hlist'⟩ := h.onDisk.toList hwritten fun p hp =>
    hrolled.flushed hflushed p (by rw [hlist]; exact List.mem_append_left _ hp)
  have hrest := (OrderedMap.getElem?_of_toList hlist').symm.trans hleft
  rw [Option.some.injEq, File.mk.injEq] at hrest
  exact h₁.resting.dormant_torn hbatch hlist hrest.1 hlist' h.onDisk.flushed
    (hstore ▸ h.inEngine)

/-- What a restart finds of the batch is visible up to where it was cut. -/
theorem visible_iff_of_torn {n : ℕ} (hsteady : Steady w₂ (log ++ (mutationsOf batch).take n))
    (hn : n ≤ (mutationsOf batch).length) {before after : List Request} {request : Request}
    (hbatch : batch = before ++ request :: after) {p : ℕ × Mutation}
    (hp : p ∈ numberedFrom (log.length + (mutationsOf before).length) request.mutations) :
    Visible w₂.host.store p.1 p.2 ↔ p.1 ≤ log.length + n := by
  obtain ⟨start, older, active, hfollows, -, -⟩ := hsteady
  obtain ⟨hlt, hget⟩ := mem_numberedFrom_iff.mp hp
  have hlength : (log ++ (mutationsOf batch).take n).length = log.length + n := by
    rw [List.length_append, List.length_take_of_le hn]
  have hkeys : ∀ m ∈ log ++ (mutationsOf batch).take n, m.key.length ≤ u32Max :=
    fun m hm => (hfollows.encodable m hm).key_le
  rw [hfollows.tracks.visible_iff hkeys (by omega) fun hle => ?_, hlength]
  rw [hlength] at hle
  rw [List.getElem?_append_right (by omega), List.getElem?_take_of_lt (by omega), hbatch, mutationsOf,
    List.flatMap_append, List.flatMap_cons]
  rw [mutationsOf] at hlt hget
  rw [List.getElem?_append_right (by omega), List.getElem?_append_left, ← hget]
  · congr 1
    omega
  · have := (List.getElem?_eq_some_iff.mp hget).1
    omega

omit [Crc32] in
/-- The batch up to some mutation of one of its writes. -/
theorem take_mutationsOf {before after : List Request} {request : Request}
    (hbatch : batch = before ++ request :: after) {j : ℕ} (hj : j ≤ request.mutations.length) :
    (mutationsOf batch).take ((mutationsOf before).length + j) =
      mutationsOf before ++ request.mutations.take j := by
  rw [hbatch, mutationsOf, mutationsOf, List.flatMap_append, List.flatMap_cons,
    List.take_length_add_append, List.take_append_of_le_length hj]

/-- A write is cut in two where the number of records that fit falls inside it. -/
theorem cutsWrite_iff : CutsWrite batch cut ↔
    ∃ before request after, batch = before ++ request :: after ∧
      (mutationsOf before).length < fitting cut (mutationsOf batch) ∧
      fitting cut (mutationsOf batch) <
        (mutationsOf before).length + request.mutations.length := by
  unfold CutsWrite
  refine exists_congr fun before => exists_congr fun request => exists_congr fun after =>
    and_congr_right fun hbatch => ?_
  have hlength : (mutationsOf batch).length = (mutationsOf before).length +
      (request.mutations.length + (mutationsOf after).length) := by
    rw [hbatch, mutationsOf, List.flatMap_append, List.flatMap_cons, List.length_append,
      List.length_append]
    rfl
  have hwhole := @records_le_iff _ (mutationsOf batch) cut
    ((mutationsOf before).length + request.mutations.length) (by omega)
  rw [take_mutationsOf hbatch (Nat.le_refl _), List.take_length] at hwhole
  cases hmutations : request.mutations with
  | nil =>
    rw [hmutations, List.append_nil] at hwhole
    simp only [List.take_nil, List.append_nil, List.length_nil, Nat.add_zero]
    omega
  | cons m rest =>
    have hone : 1 ≤ request.mutations.length := by rw [hmutations]; exact Nat.succ_pos _
    have hfirst := @records_le_iff _ (mutationsOf batch) cut ((mutationsOf before).length + 1)
      (by omega)
    rw [take_mutationsOf hbatch hone] at hfirst
    rw [← hmutations, hfirst]
    omega

/-- With the first `n` mutations of a batch in the store, each of its writes is there whole or not
at all exactly when `n` falls inside none of them. -/
theorem allOrNone_iff {n : ℕ} (hsteady : Steady w₂ (log ++ (mutationsOf batch).take n))
    (hn : n ≤ (mutationsOf batch).length) :
    AllOrNone w₂.host.store log.length batch ↔
      ¬ ∃ before request after, batch = before ++ request :: after ∧
        (mutationsOf before).length < n ∧
        n < (mutationsOf before).length + request.mutations.length := by
  constructor
  · rintro hall ⟨before, request, after, hbatch, hlow, hhigh⟩
    have hvisible := fun p hp => visible_iff_of_torn (p := p) hsteady hn hbatch hp
    obtain ⟨first, hfirst⟩ : ∃ first, request.mutations[0]? = some first :=
      ⟨_, List.getElem?_eq_getElem (by omega)⟩
    obtain ⟨last, hlast⟩ : ∃ last, request.mutations[request.mutations.length - 1]? = some last :=
      ⟨_, List.getElem?_eq_getElem (by omega)⟩
    rcases hall before request after hbatch with hwhole | hnone
    · have hmem : (log.length + (mutationsOf before).length + request.mutations.length, last) ∈
          numberedFrom (log.length + (mutationsOf before).length) request.mutations := by
        refine mem_numberedFrom_iff.mpr ⟨by dsimp only; omega, ?_⟩
        rw [← hlast]
        congr 1
        dsimp only
        omega
      have hle : log.length + (mutationsOf before).length + request.mutations.length ≤ _ :=
        (hvisible _ hmem).mp (hwhole _ hmem)
      omega
    · have hmem : (log.length + (mutationsOf before).length + 1, first) ∈
          numberedFrom (log.length + (mutationsOf before).length) request.mutations := by
        refine mem_numberedFrom_iff.mpr ⟨by dsimp only; omega, ?_⟩
        rw [← hfirst]
        congr 1
        dsimp only
        omega
      refine hnone _ hmem ((hvisible _ hmem).mpr ?_)
      show log.length + (mutationsOf before).length + 1 ≤ _
      omega
  · intro hclear before request after hbatch
    have hvisible := fun p hp => visible_iff_of_torn (p := p) hsteady hn hbatch hp
    have hrange : ∀ p ∈ numberedFrom (log.length + (mutationsOf before).length) request.mutations,
        log.length + (mutationsOf before).length < p.1 ∧
          p.1 ≤ log.length + (mutationsOf before).length + request.mutations.length := by
      intro p hp
      obtain ⟨hlt, hget⟩ := mem_numberedFrom_iff.mp hp
      have := (List.getElem?_eq_some_iff.mp hget).1
      omega
    by_cases hlow : (mutationsOf before).length < n
    · have hhigh : (mutationsOf before).length + request.mutations.length ≤
          n := by
        by_contra hlt
        exact hclear ⟨before, request, after, hbatch, hlow, by omega⟩
      refine .inl fun p hp => (hvisible p hp).mpr ?_
      have := hrange p hp
      omega
    · refine .inr fun p hp hseen => ?_
      have := (hvisible p hp).mp hseen
      have := hrange p hp
      omega

/-- A write of a batch that a crash cut short is visible whole or not at all exactly when the
bytes that are left do not end inside it past its first record.
SOURCE: crates/wal/src/writer.rs:182-197, crates/wal/src/wal.rs:197-257 -/
theorem restart_allOrNone {replies' : List Reply} {calls' : List Storage.Reply} {m : Disk × Engine}
    (h : Life options (.up w) log settled) (hobliging : Obliging replies calls)
    (hcut : TornAppend (w.given replies calls) batch cut w' disk engine)
    (hboot : (boot options).exec ({ disk with replies := replies' },
      { engine with replies := calls' }) = (.ok w₂, m)) :
    AllOrNone w₂.host.store log.length batch ↔ ¬ CutsWrite batch cut := by
  have hdormant := hcut.dormant h.sound.of_up.2 hobliging
  have hsteady := ((hdormant.given replies' calls').ends_boot options).of_ok hboot
  rw [cutsWrite_iff]
  exact allOrNone_iff hsteady (fitting_le cut _)

end Torn

/-! ## One write of two puts -/

/-- A write of two puts, whose records take sixteen bytes each. -/
def twoPuts : List Request := [⟨[.put [107] [118], .put [108] [118]]⟩]

/-- The writer whose append of them is cut short after the first record. -/
def tornWriter : Writer :=
  ((Writer.onSegment (Segment.append (@recordsOf crc32fast (mutationsOf twoPuts)))).exec
    (freshWriter.given [.crash 16] [])).2

theorem tornAppend_twoPuts : @TornAppend crc32fast (freshWriter.given [.crash 16] []) twoPuts 16
    tornWriter tornWriter.host.disk.kept tornWriter.host.store.engine := by
  have hcrashes : (Writer.onSegment (Segment.append (@recordsOf crc32fast
      (mutationsOf twoPuts)))).crashesFrom (freshWriter.given [.crash 16] []) = true := by
    decide +kernel
  have hroom : (freshWriter.given [.crash 16] []).segment.isFull = false := by decide +kernel
  have hrolled : rollIfFull.exec (freshWriter.given [.crash 16] []) =
      (.ok (), freshWriter.given [.crash 16] []) := by
    rw [rollIfFull, exec_bind_ok (exec_get _), hroom, if_neg Bool.false_ne_true, exec_pure]
  exact @TornAppend.mk crc32fast _ _ _ _ _ _
    ⟨@recordsOf crc32fast (mutationsOf twoPuts), freshWriter.given [.crash 16] [], ⟨[], []⟩,
      @encodeBatch_eq crc32fast _ (by decide +kernel) [], hrolled, exec_of_crashesFrom hcrashes,
      by decide +kernel, by decide +kernel⟩ (Disk.crashed_kept (by decide +kernel))
    ⟨List.suffix_refl _, rfl, by decide +kernel⟩

/-- The restart after it returns. -/
theorem exists_boot_tornWriter : ∃ w, (@boot crc32fast Options.default).exec
    ({ tornWriter.host.disk.kept with replies := [] },
      { tornWriter.host.store.engine with replies := [] }) =
    (.ok w, ((@boot crc32fast Options.default).exec
      ({ tornWriter.host.disk.kept with replies := [] },
        { tornWriter.host.store.engine with replies := [] })).2) :=
  exec_of_returnsFrom (by decide +kernel)

/-- The write is cut in two, and so it is seen. -/
theorem restart_allOrNone_twoPuts :
    ∃ w m, (@boot crc32fast Options.default).exec
      ({ tornWriter.host.disk.kept with replies := [] },
        { tornWriter.host.store.engine with replies := [] }) = (.ok w, m) ∧
      (AllOrNone w.host.store 0 twoPuts ↔ ¬ @CutsWrite crc32fast twoPuts 16) := by
  obtain ⟨w, hboot⟩ := exists_boot_tornWriter
  exact ⟨w, _, hboot, @restart_allOrNone crc32fast _ _ _ w [] 0 16 [.crash 16] [] twoPuts _ _ [] []
    _ life_freshWriter ⟨by simp, by simp⟩ tornAppend_twoPuts hboot⟩

/-- After the crash one of the two puts is visible and the other one is not. -/
theorem restart_half_twoPuts :
    ¬ ∀ (options : Options) (w w' w₂ : Writer) (log : List Mutation) (settled cut : ℕ)
      (replies replies' : List Reply) (calls calls' : List Storage.Reply) (batch : List Request)
      (disk : Disk) (engine : Engine) (m : Disk × Engine),
      @Life crc32fast options (.up w) log settled → Obliging replies calls →
      @TornAppend crc32fast (w.given replies calls) batch cut w' disk engine →
      (@boot crc32fast options).exec ({ disk with replies := replies' },
        { engine with replies := calls' }) = (.ok w₂, m) →
      AllOrNone w₂.host.store log.length batch := by
  intro hall
  obtain ⟨w, hboot⟩ := exists_boot_tornWriter
  have hseen := hall Options.default freshWriter tornWriter w [] 0 16 [.crash 16] [] [] [] twoPuts
    _ _ _ life_freshWriter ⟨by simp, by simp⟩ tornAppend_twoPuts hboot
  have hdormant := @TornAppend.dormant crc32fast _ _ [] 16 [.crash 16] [] twoPuts _ _
    tornAppend_twoPuts (@Sound.of_up crc32fast _ _ _
      (@Life.sound crc32fast _ _ _ _ life_freshWriter)).2 ⟨by simp, by simp⟩
  have hone : @fitting crc32fast 16 (mutationsOf twoPuts) = 1 := by decide +kernel
  rw [hone] at hdormant
  have hsteady := (@Dormant.ends_boot crc32fast _ _ _
    (@Dormant.given crc32fast _ _ _ hdormant [] []) Options.default).of_ok hboot
  exact (@allOrNone_iff crc32fast w [] twoPuts 1 hsteady (by decide)).mp hseen
    ⟨[], _, [], rfl, by decide, by decide⟩

end Hadar.Wal
