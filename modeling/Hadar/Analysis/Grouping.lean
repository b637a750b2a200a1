import Hadar.Analysis.Lives
import Hadar.Analysis.Lasting
import Hadar.Interface.Grouping

/-!
# What grouping shows

Where nothing is refused a batch fails for one reason only: a mutation of it cannot be encoded,
and then every write of the batch fails. So what each write is answered, and what the store holds
in the end, depend on nothing but the queue and on which writes were in such a batch; and nobody is
refused for another's sake exactly where no batch has both writes that can be encoded and writes that
cannot.
-/

set_option autoImplicit false

namespace Hadar.Wal

open Hadar.Lib Hadar.Lib.Prog Hadar.Storage Hadar.Mvcc Std

/-! ## What the flags decide -/

section Flags

/-- The mutations of the writes that are not flagged. -/
def taken (queue : List (Request × Bool)) : List Mutation :=
  queue.flatMap fun p => if p.2 then [] else p.1.mutations

/-- What each write is answered when `n` mutations came before. -/
def expected : ℕ → List (Request × Bool) → List (Option (List Revision))
  | _, [] => []
  | n, (_, true) :: rest => none :: expected n rest
  | n, (request, false) :: rest =>
    some ((stampedFrom n request.mutations).map (·.1)) ::
      expected (n + request.mutations.length) rest

theorem taken_append (a b : List (Request × Bool)) : taken (a ++ b) = taken a ++ taken b :=
  List.flatMap_append

theorem expected_append (n : ℕ) (a b : List (Request × Bool)) :
    expected n (a ++ b) = expected n a ++ expected (n + (taken a).length) b := by
  induction a generalizing n with
  | nil => rfl
  | cons p rest ih =>
    obtain ⟨request, flag⟩ := p
    cases flag with
    | true => exact congrArg _ (ih n)
    | false =>
      have hlength : (taken ((request, false) :: rest)).length =
          request.mutations.length + (taken rest).length := List.length_append
      rw [List.cons_append, expected, ih, expected, hlength, Nat.add_assoc]
      rfl

/-- The flags can be read off the answers. -/
theorem isNone_expected (n : ℕ) (queue : List (Request × Bool)) :
    (expected n queue).map (·.isNone) = queue.map (·.2) := by
  induction queue generalizing n with
  | nil => rfl
  | cons p rest ih =>
    obtain ⟨request, flag⟩ := p
    cases flag with
    | true => exact congrArg _ (ih n)
    | false => exact congrArg _ (ih _)

/-- Those that are not flagged are answered as they are without the others. -/
theorem expected_filter (n : ℕ) (queue : List Request) (fits : Request → Bool) :
    ((queue.zip (expected n (queue.map fun r => (r, !fits r)))).filter fun p => fits p.1).map (·.2) =
      expected n ((queue.filter fits).map (·, false)) := by
  induction queue generalizing n with
  | nil => rfl
  | cons r rest ih =>
    cases hfits : fits r with
    | true => simp [expected, hfits, ih]
    | false => simp [expected, hfits, ih]

theorem taken_filter (queue : List Request) (fits : Request → Bool) :
    taken (queue.map fun r => (r, !fits r)) = taken ((queue.filter fits).map (·, false)) := by
  induction queue with
  | nil => rfl
  | cons r rest ih =>
    have hcons : ∀ (p : Request × Bool) (l : List (Request × Bool)),
        taken (p :: l) = (if p.2 then [] else p.1.mutations) ++ taken l := fun _ _ => rfl
    cases hfits : fits r with
    | true => simp [hcons, hfits, ih]
    | false => simp [hcons, hfits, ih]

/-- A batch whose writes are all flagged, or none. -/
theorem taken_flagged (batch : List Request) : taken (batch.map (·, true)) = [] := by
  induction batch with
  | nil => rfl
  | cons request rest ih => exact ih

theorem taken_unflagged (batch : List Request) :
    taken (batch.map (·, false)) = mutationsOf batch := by
  induction batch with
  | nil => rfl
  | cons request rest ih => exact congrArg (request.mutations ++ ·) ih

theorem outcomesOf_append (told told' : List Exchange) :
    outcomesOf (told ++ told') = outcomesOf told ++ outcomesOf told' := List.map_append

/-- A batch that was retired answers as is expected of writes that are not flagged. -/
theorem outcomesOf_answer_ok (n : ℕ) (batch : List Request) :
    outcomesOf (batch.zip (answer batch (.ok ((stampedFrom n (mutationsOf batch)).map (·.1))))) =
      expected n (batch.map (·, false)) := by
  induction batch generalizing n with
  | nil => rfl
  | cons request rest ih =>
    have hsplit : (stampedFrom n (mutationsOf (request :: rest))).map (·.1) =
        (stampedFrom n request.mutations).map (·.1) ++
          (stampedFrom (n + request.mutations.length) (mutationsOf rest)).map (·.1) := by
      rw [← List.map_append, ← stampedFrom_append]
      rfl
    have hlength : ((stampedFrom n request.mutations).map (·.1)).length =
        request.mutations.length := by rw [List.length_map, length_stampedFrom]
    rw [hsplit, answer, List.take_left' hlength, List.drop_left' hlength, List.zip_cons_cons,
      List.map_cons, expected, ← ih]
    rfl

/-- A batch that failed answers as is expected of writes that are flagged. -/
theorem outcomesOf_answer_error (n : ℕ) (batch : List Request) (e : Error) :
    outcomesOf (batch.zip (answer batch (.error e))) = expected n (batch.map (·, true)) := by
  induction batch with
  | nil => rfl
  | cons request rest ih => exact congrArg (none :: ·) ih

end Flags

/-! ## Turns that nothing disturbs -/

section Turns

variable [Crc32] {w w' : Writer} {log : List Mutation} {batch : List Request} {interval : ℕ}
  {requested : Bool}

omit [Crc32] in
theorem spoiled_eq_false_iff : spoiled batch = false ↔ ∀ m ∈ mutationsOf batch, Encodable m := by
  rw [spoiled, Bool.not_eq_false', decide_eq_true_iff]

/-- A batch is retired unless a mutation of it cannot be encoded. -/
theorem Steady.ends_retire_calm (h : Steady w log) (hcalm : w.Calm) (hpos : 1 ≤ w.segment.limit) :
    Ends (retire batch) w
      (fun revisions w' => (spoiled batch = false ∧
        revisions = (stampedFrom log.length (mutationsOf batch)).map (·.1) ∧
        Steady w' (log ++ mutationsOf batch)) ∧ w'.Calm ∧ w'.segment.limit = w.segment.limit)
      (fun _ w' => (spoiled batch = true ∧ Steady w' log) ∧ w'.Calm ∧
        w'.segment.limit = w.segment.limit)
      (fun _ => spoiled batch = false ∧ i64Max < (log ++ mutationsOf batch).length) := by
  have hdisk := Disk.calm hcalm.1
  have hengine := Engine.calm hcalm.2
  obtain ⟨start, older, active, hfollows, hsound, hflushed⟩ := h
  cases hspoiled : spoiled batch with
  | true =>
    have hbatch : ¬ ∀ m ∈ mutationsOf batch, Encodable m := by
      rw [← spoiled_eq_false_iff, hspoiled]
      exact Bool.noConfusion
    refine Ends.mono (ends_retire_spoiled hbatch) (fun _ _ h => h.elim) (fun _ w' hw' => ?_)
      fun _ h => h.elim
    subst hw'
    exact ⟨⟨rfl, start, older, active, hfollows, hsound, hflushed⟩, hcalm, rfl⟩
  | false =>
    have hbatch := spoiled_eq_false_iff.mp hspoiled
    refine Ends.mono (hfollows.ends_retire batch) (fun revisions w' hw' => ?_) (fun _ w' hw' => ?_)
      fun w' hw' => ⟨rfl, hw'.1.resolve_left fun hcrashes => hcrashes.elim hdisk.2 hengine.2⟩
    · obtain ⟨older', active', hfollows'⟩ := hw'.follows
      exact ⟨⟨rfl, hw'.revisions, start, older', active', hfollows', hw'.sound,
        hw'.flushed hflushed⟩, ⟨List.suffix_nil.mp (hcalm.1 ▸ hw'.replies),
          List.suffix_nil.mp (hcalm.2 ▸ hw'.calls)⟩, hw'.limit⟩
    · exfalso
      cases hw' with
      | unchanged d same later why =>
        rcases why with hunfit | hrefuses | hpoisoned | hlimit
        · exact hunfit hbatch
        · exact hdisk.1 hrefuses
        · rw [hsound] at hpoisoned
          cases hpoisoned
        · omega
      | unappended appends refused follows => exact hdisk.1 refused
      | unapplied appends refused denied follows sound flushed => exact hengine.1 refused

/-- A turn answers as its batch's flag decides, and takes the batch's mutations or none. -/
theorem Steady.ends_turn_calm (h : Steady w log) (hcalm : w.Calm) (hpos : 1 ≤ w.segment.limit) :
    Ends (turn interval batch requested) w
      (fun answers w' => outcomesOf (batch.zip answers.writes) =
          expected log.length (batch.map (·, spoiled batch)) ∧
        Steady w' (log ++ taken (batch.map (·, spoiled batch))) ∧
        w'.segment.limit = w.segment.limit)
      (fun _ _ => False)
      (fun _ => i64Max < (log ++ taken (batch.map (·, spoiled batch))).length) := by
  let done (writes : List (Except Error (List Revision))) (w' : Writer) : Prop :=
    outcomesOf (batch.zip writes) = expected log.length (batch.map (·, spoiled batch)) ∧
      Steady w' (log ++ taken (batch.map (·, spoiled batch))) ∧ w'.segment.limit = w.segment.limit
  let told (writes : List (Except Error (List Revision))) (w' : Writer) : Prop :=
    done writes w' ∧ w'.Calm
  refine @ends_turn w batch _ interval requested told done _ (fun hnil => ?_) (fun _ => ?_)
    (fun writes w' hw' => ?_) fun writes w' hw' _ => hw'.1
  · subst hnil
    refine ⟨⟨rfl, ?_, rfl⟩, hcalm⟩
    rw [List.map_nil, taken, List.flatMap_nil, List.append_nil]
    exact h
  · refine Ends.mono (h.ends_retire_calm hcalm hpos) (fun revisions w' hw' => ?_)
      (fun e w' hw' => ?_) fun w' hw' => ?_
    · obtain ⟨⟨hspoiled, rfl, hsteady⟩, hcalm', hlimit⟩ := hw'
      refine ⟨⟨?_, ?_, hlimit⟩, hcalm'⟩
      · rw [hspoiled, outcomesOf_answer_ok]
      · rw [hspoiled, taken_unflagged]
        exact hsteady
    · obtain ⟨⟨hspoiled, hsteady⟩, hcalm', hlimit⟩ := hw'
      refine ⟨⟨?_, ?_, hlimit⟩, hcalm'⟩
      · rw [hspoiled, outcomesOf_answer_error]
      · rw [hspoiled, taken_flagged, List.append_nil]
        exact hsteady
    · rw [hw'.1, taken_unflagged]
      exact hw'.2
  · obtain ⟨⟨houtcomes, hsteady, hlimit⟩, hcalm'⟩ := hw'
    refine Ends.mono hsteady.ends_checkpoint (fun _ w'' hw'' => ?_) (fun _ w'' hw'' => ?_)
      fun w'' hw'' => absurd hw''.2 fun hcrashes =>
        hcrashes.elim (Disk.calm hcalm'.1).2 (Engine.calm hcalm'.2).2
    · refine ⟨houtcomes, hw''.1.counting 0, ?_⟩
      rw [← hlimit, ← hw''.2]
    · refine ⟨houtcomes, hw''.1, ?_⟩
      rw [hw''.2, hlimit]

end Turns

/-! ## Whole runs -/

section Runs

variable [Crc32] {options : Options} {interval settled : ℕ} {w₀ w w₁ : Writer}
  {log : List Mutation} {turns turns₁ turns₂ : List Turn} {told told₁ : List Exchange}

/-- The writes of a queue with their flags. -/
def flagged (batches : List (List Request)) : List (Request × Bool) :=
  batches.flatMap fun batch => batch.map (·, spoiled batch)

omit [Crc32] in
theorem flagged_concat (batches : List (List Request)) (batch : List Request) :
    flagged (batches ++ [batch]) = flagged batches ++ batch.map (·, spoiled batch) := by
  rw [flagged, List.flatMap_append, List.flatMap_singleton]
  rfl

omit [Crc32] in
theorem map_fst_flagged (batches : List (List Request)) :
    (flagged batches).map (·.1) = batches.flatten := by
  rw [flagged, List.map_flatMap, ← List.flatMap_id]
  refine List.flatMap_congr fun batch _ => ?_
  rw [List.map_map]
  exact List.map_id batch

omit [Crc32] in
theorem map_snd_flagged (batches : List (List Request)) :
    (flagged batches).map (·.2) = spoiledBy batches := by
  rw [flagged, List.map_flatMap]
  refine List.flatMap_congr fun batch _ => ?_
  rw [List.map_map]
  rfl

omit [Crc32] in
/-- A queue and its flags are all there is to it. -/
theorem flagged_eq {batches batches' : List (List Request)}
    (hqueue : batches.flatten = batches'.flatten) (hflags : spoiledBy batches = spoiledBy batches') :
    flagged batches = flagged batches' := by
  rw [List.zip_of_prod (map_fst_flagged batches) (map_snd_flagged batches), hqueue, hflags]
  exact (List.zip_of_prod (map_fst_flagged batches') (map_snd_flagged batches')).symm

/-- What a run answers, and what log it leaves, is decided by the queue and the flags. -/
theorem CalmRun.grouped (h : CalmRun interval w₀ turns w told) (hsteady : Steady w₀ log)
    (hpos : 1 ≤ w₀.segment.limit) :
    outcomesOf told = expected log.length (flagged (turns.map (·.batch))) ∧
      Steady w (log ++ taken (flagged (turns.map (·.batch)))) ∧
      w.segment.limit = w₀.segment.limit := by
  induction h with
  | start => exact ⟨rfl, by rwa [List.map_nil, flagged, List.flatMap_nil, taken,
      List.flatMap_nil, List.append_nil], rfl⟩
  | @turned turns w w' told t answers before permitted ran ih =>
    obtain ⟨houtcomes, hsteady', hlimit⟩ := ih
    have hcalm : (w.given t.replies t.calls).Calm := permitted
    obtain ⟨houtcomes', hsteady'', hlimit'⟩ := ((hsteady'.given t.replies t.calls).ends_turn_calm
      hcalm (hpos.trans (Nat.le_of_eq hlimit.symm))).of_ok ran
    rw [List.map_append, List.map_singleton, flagged_concat]
    refine ⟨?_, ?_, hlimit'.trans hlimit⟩
    · rw [outcomesOf_append, houtcomes, houtcomes', expected_append, List.length_append]
    · rw [taken_append, ← List.append_assoc]
      exact hsteady''

/-- A run goes on to its end as long as there are revisions left. -/
theorem exists_calmRun (hsteady : Steady w₀ log) (hpos : 1 ≤ w₀.segment.limit)
    (hcalm : ∀ t ∈ turns, t.replies = [] ∧ t.calls = [])
    (hroom : (log ++ taken (flagged (turns.map (·.batch)))).length ≤ i64Max) :
    ∃ w told, CalmRun interval w₀ turns w told := by
  induction turns using List.reverseRecOn with
  | nil => exact ⟨w₀, [], .start⟩
  | append_singleton turns t ih =>
    rw [List.map_append, List.map_singleton, flagged_concat, taken_append, ← List.append_assoc]
      at hroom
    have hless : (log ++ taken (flagged (turns.map (·.batch)))).length ≤ i64Max := by
      rw [List.length_append] at hroom
      omega
    obtain ⟨w, told, hrun⟩ := ih (fun t' ht' => hcalm t' (List.mem_append_left _ ht')) hless
    obtain ⟨-, hsteady', hlimit⟩ := CalmRun.grouped hrun hsteady hpos
    have ht := hcalm t (List.mem_append_right _ (List.mem_singleton_self t))
    have hends : Ends (turn interval t.batch t.requested) (w.given t.replies t.calls) _ _ _ :=
      (hsteady'.given t.replies t.calls).ends_turn_calm ht (hpos.trans (Nat.le_of_eq hlimit.symm))
    obtain ⟨answers, w', hexec, -⟩ := (Ends.mono hends (fun _ _ h => h) (fun _ _ h => h)
      fun _ hover => absurd hroom (Nat.not_le.mpr hover)).returns
    exact ⟨w', _, hrun.turned ht hexec⟩

omit [Crc32] in
/-- Stores that have applied the same log and nothing else. -/
theorem sameStore_of_tracks {s s' : KvStore} (h : Tracks s log) (h' : Tracks s' log) :
    SameStore s s' := by
  obtain ⟨-, -, marker, -, hholds⟩ := h.newest
  obtain ⟨-, -, marker', -, hholds'⟩ := h'.newest
  refine ⟨h.state.trans h'.state.symm, fun key hkey => ?_,
    (h.newest.markerOf).trans h'.newest.markerOf.symm⟩
  have hsame := (hholds.mark 0).unique (hholds'.mark 0)
  have hkeyed := congrArg (·[key]?) hsame
  simp only [ExtTreeMap.getElem?_insert, hkey] at hkeyed
  simpa using hkeyed

/-- What each write was answered goes with its flag. -/
theorem CalmRun.flags (h : CalmRun interval w₀ turns w told) (hsteady : Steady w₀ log)
    (hpos : 1 ≤ w₀.segment.limit) :
    told.map (fun x => (x.1, x.2.toOption.isNone)) = flagged (turns.map (·.batch)) := by
  have hqueue : (told.map fun x => (x.1, x.2.toOption.isNone)).map (·.1) =
      (flagged (turns.map (·.batch))).map (·.1) := by
    rw [map_fst_flagged, List.map_map, ← List.flatMap_def]
    exact (Run.answered h).queue
  have hflags : (told.map fun x => (x.1, x.2.toOption.isNone)).map (·.2) =
      (flagged (turns.map (·.batch))).map (·.2) := by
    have hnone := isNone_expected log.length (flagged (turns.map (·.batch)))
    rw [← hnone, ← (h.grouped hsteady hpos).1, outcomesOf, List.map_map, List.map_map]
    rfl
  rw [List.zip_of_prod hqueue hflags]
  exact (List.zip_of_prod rfl rfl).symm

omit [Crc32] in
theorem spoiled_eq_any (batch : List Request) : spoiled batch = batch.any fun r => !fits r := by
  rw [Bool.eq_iff_iff, List.any_eq_true, spoiled, Bool.not_eq_true', decide_eq_false_iff_not]
  simp only [mutationsOf, List.mem_flatMap, fits, Bool.not_eq_true', decide_eq_false_iff_not]
  constructor
  · intro hnot
    by_contra hnone
    refine hnot fun m hmem => ?_
    obtain ⟨r, hr, hm⟩ := hmem
    by_contra hunfit
    exact hnone ⟨r, hr, fun hall => hunfit (hall m hm)⟩
  · rintro ⟨r, hr, hunfit⟩ hall
    exact hunfit fun m hm => hall m ⟨r, hr, hm⟩

omit [Crc32] in
/-- In batches that are not mixed the flags are the writes' own. -/
theorem flagged_unmixed {batches : List (List Request)} (h : ∀ batch ∈ batches, mixed batch = false) :
    flagged batches = batches.flatten.map fun r => (r, !fits r) := by
  induction batches with
  | nil => rfl
  | cons batch rest ih =>
    obtain ⟨hbatch, hrest⟩ := List.forall_mem_cons.mp h
    have hcons : flagged (batch :: rest) = batch.map (·, spoiled batch) ++ flagged rest := rfl
    rw [hcons, ih hrest, List.flatten_cons, List.map_append]
    congr 1
    refine List.map_congr_left fun r hr => ?_
    rw [spoiled_eq_any]
    cases hspoiled : batch.any fun r => !fits r with
    | false =>
      have hfits := List.any_eq_false.mp hspoiled r hr
      rw [Bool.not_eq_true] at hfits
      rw [hfits]
    | true =>
      rw [mixed, hspoiled, Bool.and_true] at hbatch
      have hunfit : fits r = false := Bool.of_not_eq_true (List.any_eq_false.mp hbatch r hr)
      rw [hunfit]
      rfl

/-- Nobody is refused for another's sake exactly where no batch is mixed.
SOURCE: crates/wal/src/writer.rs:175-226 -/
theorem CalmRun.refusedAlone_iff (h : CalmRun interval w₀ turns w told) (hsteady : Steady w₀ log)
    (hpos : 1 ≤ w₀.segment.limit) :
    RefusedAlone interval w₀ w told ↔ ∀ t ∈ turns, mixed t.batch = false := by
  have hflags := h.flags hsteady hpos
  have hqueue := (Run.answered h).queue
  constructor
  · intro halone t ht
    -- without the others, all that can be encoded may come in one batch
    obtain ⟨w', told', h', hsame, -⟩ := halone.others
      [⟨(told.map (·.1)).filter fits, false, [], []⟩] (by simp) (by simp)
    have hclean : spoiled ((told.map (·.1)).filter fits) = false := by
      rw [spoiled_eq_any, List.any_eq_false]
      intro r hr
      simp [(List.mem_filter.mp hr).2]
    have hkept : ∀ x ∈ told, fits x.1 = true → x.2.toOption.isNone = false := by
      intro x hx hfits
      have hin : x.2.toOption ∈ outcomesOf told' := by
        rw [← hsame]
        exact List.mem_map_of_mem (List.mem_filter.mpr ⟨hx, hfits⟩)
      obtain ⟨x', hx', heq⟩ := List.mem_map.mp hin
      have hflag : (x'.1, x'.2.toOption.isNone) ∈ flagged [(told.map (·.1)).filter fits] := by
        have hown := CalmRun.flags h' hsteady hpos
        simp only [List.map_cons, List.map_nil] at hown
        rw [← hown]
        exact List.mem_map_of_mem hx'
      obtain ⟨batch, hbatch, hmem⟩ := List.mem_flatMap.mp hflag
      obtain ⟨r, -, hr⟩ := List.mem_map.mp hmem
      rw [List.mem_singleton.mp hbatch, hclean] at hr
      rw [← heq]
      exact (congrArg Prod.snd hr).symm
    by_contra hmixed
    obtain ⟨hsome, hnot⟩ := Bool.and_eq_true_iff.mp (eq_true_of_ne_false hmixed)
    obtain ⟨r, hr, hfits⟩ := List.any_eq_true.mp hsome
    have hin : (r, true) ∈ flagged (turns.map (·.batch)) := by
      refine List.mem_flatMap.mpr ⟨t.batch, List.mem_map_of_mem ht, ?_⟩
      rw [spoiled_eq_any, hnot]
      exact List.mem_map_of_mem hr
    rw [← hflags] at hin
    obtain ⟨x, hx, heq⟩ := List.mem_map.mp hin
    obtain ⟨rfl, hnone⟩ := Prod.mk.inj heq
    rw [hkept x hx hfits] at hnone
    cases hnone
  · intro hunmixed
    have hown : flagged (turns.map (·.batch)) =
        (told.map (·.1)).map fun r => (r, !fits r) := by
      rw [flagged_unmixed (by simpa using hunmixed), hqueue, ← List.flatMap_def]
    obtain ⟨houtcomes, hsteady', -⟩ := h.grouped hsteady hpos
    rw [hown] at houtcomes hsteady' hflags
    refine ⟨fun x hx hunfit => ?_, fun turns' hcalm hqueue' => ?_⟩
    · have hin : (x.1, x.2.toOption.isNone) ∈ (told.map (·.1)).map fun r => (r, !fits r) := by
        rw [← hflags]
        exact List.mem_map_of_mem hx
      obtain ⟨r, -, heq⟩ := List.mem_map.mp hin
      obtain ⟨rfl, hnone⟩ := Prod.mk.inj heq
      rw [hunfit] at hnone
      exact Option.isNone_iff_eq_none.mp hnone.symm
    · have hclean : flagged (turns'.map (·.batch)) =
          ((told.map (·.1)).filter fits).map (·, false) := by
        have hfit : ∀ r ∈ turns'.flatMap (·.batch), fits r = true := fun r hr =>
          (List.mem_filter.mp (hqueue' ▸ hr)).2
        have hbatches : ∀ batch ∈ turns'.map (·.batch), mixed batch = false := by
          intro batch hbatch
          obtain ⟨t, ht, rfl⟩ := List.mem_map.mp hbatch
          rw [mixed, Bool.and_eq_false_iff, List.any_eq_false, List.any_eq_false]
          refine .inr fun r hr => ?_
          simp [hfit r (List.mem_flatMap.mpr ⟨t, ht, hr⟩)]
        rw [flagged_unmixed hbatches, ← List.flatMap_def, hqueue']
        refine List.map_congr_left fun r hr => ?_
        rw [(List.mem_filter.mp hr).2]
        rfl
      obtain ⟨start, older, active, hfollows, -, -⟩ := hsteady'
      have hroom := hfollows.tracks.count
      rw [taken_filter, ← hclean] at hroom
      obtain ⟨w', told', h'⟩ := exists_calmRun hsteady hpos hcalm hroom
      obtain ⟨houtcomes', ⟨start', older', active', hfollows', -, -⟩, -⟩ :=
        CalmRun.grouped h' hsteady hpos
      refine ⟨w', told', h', ?_, sameStore_of_tracks hfollows.tracks ?_⟩
      · rw [houtcomes', hclean, ← expected_filter log.length (told.map (·.1)) fits, ← houtcomes,
          outcomesOf, outcomesOf, List.zip_map', List.filter_map, List.map_map]
        rfl
      · rw [taken_filter, ← hclean]
        exact hfollows'.tracks

/-- Two ways of cutting a queue answer each write the same, and leave the same store, exactly where
the same writes share a batch with a mutation that cannot be encoded. -/
theorem CalmRun.same_iff (hsteady : Steady w₀ log) (hpos : 1 ≤ w₀.segment.limit)
    (h : CalmRun interval w₀ turns₁ w₁ told₁)
    (hcalm : ∀ t ∈ turns₂, t.replies = [] ∧ t.calls = [])
    (hqueue : turns₁.flatMap (·.batch) = turns₂.flatMap (·.batch)) :
    (∃ w₂ told₂, CalmRun interval w₀ turns₂ w₂ told₂ ∧ outcomesOf told₁ = outcomesOf told₂ ∧
        SameStore w₁.host.store w₂.host.store) ↔
      spoiledBy (turns₁.map (·.batch)) = spoiledBy (turns₂.map (·.batch)) := by
  obtain ⟨houtcomes₁, hsteady₁, -⟩ := h.grouped hsteady hpos
  constructor
  · rintro ⟨w₂, told₂, h₂, hsame, -⟩
    obtain ⟨houtcomes₂, -, -⟩ := CalmRun.grouped h₂ hsteady hpos
    rw [houtcomes₁, houtcomes₂] at hsame
    have hflags := congrArg (List.map (·.isNone)) hsame
    rwa [isNone_expected, isNone_expected, map_snd_flagged, map_snd_flagged] at hflags
  · intro hflags
    have hflagged : flagged (turns₁.map (·.batch)) = flagged (turns₂.map (·.batch)) :=
      flagged_eq hqueue hflags
    obtain ⟨start₁, older₁, active₁, hfollows₁, -, -⟩ := hsteady₁
    have hroom := hfollows₁.tracks.count
    rw [hflagged] at hroom houtcomes₁ hfollows₁
    obtain ⟨w₂, told₂, h₂⟩ := exists_calmRun hsteady hpos hcalm hroom
    obtain ⟨houtcomes₂, ⟨start₂, older₂, active₂, hfollows₂, -, -⟩, -⟩ :=
      CalmRun.grouped h₂ hsteady hpos
    exact ⟨w₂, told₂, h₂, houtcomes₁.trans houtcomes₂.symm,
      sameStore_of_tracks hfollows₁.tracks hfollows₂.tracks⟩

/-- Grouping is invisible exactly where no batch is mixed. Of two ways of cutting a queue into
batches, where nothing is refused and segments have a limit: each write is answered the same under
both, the store ends the same, and under both the writes that cannot be encoded are refused alone, if
and only if neither of them has a batch with a write that can be encoded and one that cannot.
SOURCE: crates/wal/src/writer.rs:175-226 -/
theorem grouping_invisible_iff (hlife : Life options (.up w₀) log settled)
    (hpos : 1 ≤ w₀.segment.limit) (h : CalmRun interval w₀ turns₁ w₁ told₁)
    (hcalm : ∀ t ∈ turns₂, t.replies = [] ∧ t.calls = [])
    (hqueue : turns₁.flatMap (·.batch) = turns₂.flatMap (·.batch)) :
    (RefusedAlone interval w₀ w₁ told₁ ∧ ∃ w₂ told₂, CalmRun interval w₀ turns₂ w₂ told₂ ∧
        outcomesOf told₁ = outcomesOf told₂ ∧ SameStore w₁.host.store w₂.host.store ∧
        RefusedAlone interval w₀ w₂ told₂) ↔
      (∀ t ∈ turns₁, mixed t.batch = false) ∧ ∀ t ∈ turns₂, mixed t.batch = false := by
  have hsteady := hlife.sound.of_up.2
  constructor
  · rintro ⟨halone₁, w₂, told₂, h₂, -, -, halone₂⟩
    exact ⟨(h.refusedAlone_iff hsteady hpos).mp halone₁,
      (CalmRun.refusedAlone_iff h₂ hsteady hpos).mp halone₂⟩
  · rintro ⟨hunmixed₁, hunmixed₂⟩
    have hflags : spoiledBy (turns₁.map (·.batch)) = spoiledBy (turns₂.map (·.batch)) := by
      rw [← map_snd_flagged, ← map_snd_flagged, flagged_unmixed (by simpa using hunmixed₁),
        flagged_unmixed (by simpa using hunmixed₂), ← List.flatMap_def, ← List.flatMap_def, hqueue]
    obtain ⟨w₂, told₂, h₂, hsame, hstore⟩ := (CalmRun.same_iff hsteady hpos h hcalm hqueue).mpr hflags
    exact ⟨(h.refusedAlone_iff hsteady hpos).mpr hunmixed₁, w₂, told₂, h₂, hsame, hstore,
      (CalmRun.refusedAlone_iff h₂ hsteady hpos).mpr hunmixed₂⟩

end Runs

/-! ## Two writes, together and apart -/

def smallWrite : Request := ⟨[.put [107] [118]]⟩

/-- A put whose value alone fills a frame. -/
def largeWrite : Request := ⟨[.put [] (List.replicate maxPayloadLen 0)]⟩

/-- A turn with a batch and nothing else. -/
def quietTurn (batch : List Request) : Turn := ⟨batch, false, [], []⟩

theorem spoiled_small : spoiled [smallWrite] = false := by decide +kernel

theorem not_encodable_of_filling {value : Bytes} (h : value.length = maxPayloadLen) (key : Bytes) :
    ¬ Encodable (.put key value) := by
  intro hfits
  rw [Encodable, length_payloadOf] at hfits
  have hvalue : (Mutation.put key value).value.length = maxPayloadLen := h
  omega

theorem spoiled_of_large {batch : List Request} (h : largeWrite ∈ batch) : spoiled batch = true := by
  refine Bool.of_not_eq_false fun hfalse => ?_
  have hunfit := @not_encodable_of_filling (List.replicate maxPayloadLen 0) List.length_replicate []
  refine hunfit (spoiled_eq_false_iff.mp hfalse _ ?_)
  exact List.mem_flatMap.mpr ⟨largeWrite, h, List.mem_singleton_self _⟩

theorem flagged_apart : flagged [[smallWrite], [largeWrite]] =
    [(smallWrite, false), (largeWrite, true)] := by
  simp only [flagged, List.flatMap_cons, List.flatMap_nil, List.map_cons, List.map_nil,
    spoiled_small, spoiled_of_large (List.mem_singleton_self largeWrite), List.append_nil,
    List.cons_append, List.nil_append]

theorem flagged_together : flagged [[smallWrite, largeWrite]] =
    [(smallWrite, true), (largeWrite, true)] := by
  have hlarge : largeWrite ∈ [smallWrite, largeWrite] := by simp
  simp only [flagged, List.flatMap_cons, List.flatMap_nil, List.map_cons, List.map_nil,
    spoiled_of_large hlarge, List.append_nil]

theorem limit_freshWriter : 1 ≤ freshWriter.segment.limit := by decide +kernel

theorem fits_small : fits smallWrite = true := by decide +kernel

theorem fits_large : fits largeWrite = false := by
  have hspoiled := spoiled_of_large (List.mem_singleton_self largeWrite)
  rw [spoiled_eq_any, List.any_cons, List.any_nil, Bool.or_false, Bool.not_eq_true'] at hspoiled
  exact hspoiled

/-- Two small writes and a large one that comes in a batch of its own: in one batch or in two, the
small ones are answered as they would be if it had not come. -/
theorem grouping_invisible_small : ∃ w₁ told₁ w₂ told₂,
    @CalmRun crc32fast 1000 freshWriter
      [quietTurn [smallWrite, smallWrite], quietTurn [largeWrite]] w₁ told₁ ∧
    @RefusedAlone crc32fast 1000 freshWriter w₁ told₁ ∧
    @CalmRun crc32fast 1000 freshWriter
      [quietTurn [smallWrite], quietTurn [smallWrite], quietTurn [largeWrite]] w₂ told₂ ∧
    outcomesOf told₁ = outcomesOf told₂ ∧ SameStore w₁.host.store w₂.host.store ∧
    @RefusedAlone crc32fast 1000 freshWriter w₂ told₂ := by
  obtain ⟨-, hsteady⟩ := @Sound.of_up crc32fast _ _ _ (@Life.sound crc32fast _ _ _ _ life_freshWriter)
  have hunmixed₁ : ∀ t ∈ [quietTurn [smallWrite, smallWrite], quietTurn [largeWrite]],
      mixed t.batch = false := by
    simp [quietTurn, mixed, fits_small, fits_large]
  have hunmixed₂ : ∀ t ∈ [quietTurn [smallWrite], quietTurn [smallWrite], quietTurn [largeWrite]],
      mixed t.batch = false := by
    simp [quietTurn, mixed, fits_small, fits_large]
  have hflagged : flagged [[smallWrite, smallWrite], [largeWrite]] =
      [(smallWrite, false), (smallWrite, false), (largeWrite, true)] := by
    rw [flagged_unmixed (by simpa [quietTurn] using hunmixed₁)]
    simp only [List.flatten_cons, List.flatten_nil, List.append_nil, List.cons_append,
      List.nil_append, List.map_cons, List.map_nil, fits_small, fits_large, Bool.not_true,
      Bool.not_false]
  obtain ⟨w₁, told₁, h₁⟩ := @exists_calmRun crc32fast 1000 _ _
    [quietTurn [smallWrite, smallWrite], quietTurn [largeWrite]] hsteady limit_freshWriter
    (by simp [quietTurn]) (by
      simp only [quietTurn, List.map_cons, List.map_nil, hflagged]
      exact show 2 ≤ i64Max by decide)
  obtain ⟨halone₁, w₂, told₂, h₂, hsame, hstore, halone₂⟩ :=
    (@grouping_invisible_iff crc32fast _ _ _ _ _ _ _
      [quietTurn [smallWrite], quietTurn [smallWrite], quietTurn [largeWrite]] _ life_freshWriter
      limit_freshWriter h₁ (by simp [quietTurn]) rfl).mpr ⟨hunmixed₁, hunmixed₂⟩
  exact ⟨w₁, told₁, w₂, told₂, h₁, halone₁, h₂, hsame, hstore, halone₂⟩

/-- A small write fails in one batch with a large one, and not in a batch of its own. -/
theorem grouping_shows_large :
    ¬ ∀ turns₁ turns₂ w₁ told₁ w₂ told₂, @CalmRun crc32fast 1000 freshWriter turns₁ w₁ told₁ →
      @CalmRun crc32fast 1000 freshWriter turns₂ w₂ told₂ →
      turns₁.flatMap (·.batch) = turns₂.flatMap (·.batch) →
        outcomesOf told₁ = outcomesOf told₂ ∧ SameStore w₁.host.store w₂.host.store := by
  intro hall
  obtain ⟨-, hsteady⟩ := @Sound.of_up crc32fast _ _ _ (@Life.sound crc32fast _ _ _ _ life_freshWriter)
  have hpos := limit_freshWriter
  obtain ⟨w₁, told₁, h₁⟩ := @exists_calmRun crc32fast 1000 _ _ [quietTurn [smallWrite, largeWrite]]
    hsteady hpos (by simp [quietTurn]) (by
      simp only [quietTurn, List.map_cons, List.map_nil, flagged_together]
      exact Nat.zero_le _)
  obtain ⟨w₂, told₂, h₂⟩ := @exists_calmRun crc32fast 1000 _ _
    [quietTurn [smallWrite], quietTurn [largeWrite]] hsteady hpos (by simp [quietTurn]) (by
      simp only [quietTurn, List.map_cons, List.map_nil, flagged_apart]
      exact show 1 ≤ i64Max by decide)
  have hsame := (hall _ _ _ _ _ _ h₁ h₂ rfl).1
  rw [(@CalmRun.grouped crc32fast _ _ _ _ _ _ h₁ hsteady hpos).1,
    (@CalmRun.grouped crc32fast _ _ _ _ _ _ h₂ hsteady hpos).1] at hsame
  simp only [quietTurn, List.map_cons, List.map_nil, flagged_together, flagged_apart] at hsame
  cases hsame

end Hadar.Wal
