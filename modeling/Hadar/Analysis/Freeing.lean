import Hadar.Analysis.Rolling
import Hadar.Interface.Freeing

/-!
# The segment behind the active one

While the directory holds one segment, all that was appended since the last checkpoint is in it.
So the bytes come to two segments only with a batch that leaves a full segment, and then that
segment is behind, or with a batch that goes to one with room and is itself as long as what is
missing.
-/

set_option autoImplicit false

namespace Hadar.Wal

open Hadar.Lib Hadar.Lib.Prog Hadar.Storage Hadar.Mvcc Std

/-! ## What is removed -/

/-- The loop of `compact` counts the files it takes away. -/
theorem ends_removeCovered_count (durable : ℕ) {names : List ℕ} {d : Disk}
    (hheld : ∀ name ∈ names, d.files.contains name = true) (hdistinct : names.Nodup)
    (removed : ℕ) :
    Ends (removeCovered durable names removed) d
      (fun n d' => n + d'.files.size = removed + d.files.size) (fun _ _ => True)
      fun _ => True := by
  induction names generalizing d removed with
  | nil => exact ends_pure.mpr rfl
  | cons first rest ih =>
    cases rest with
    | nil => exact ends_pure.mpr rfl
    | cons next rest =>
      rw [removeCovered]
      split
      · exact ends_pure.mpr rfl
      · refine ends_bind.mpr (ends_bind.mpr (Ends.mono ends_nextReply (fun r d1 hr => ?_)
          (fun _ _ h => h.elim) fun _ h => h.elim))
        obtain ⟨hlater, -, -⟩ := hr
        cases r with
        | refused cut => exact ends_fail.mpr trivial
        | crash cut => exact ends_crashing.mpr trivial
        | done =>
          obtain ⟨hfirst, hrest⟩ := List.forall_mem_cons.mp hheld
          obtain ⟨hnew, hdistinct⟩ := List.nodup_cons.mp hdistinct
          have hsize : (d1.files.erase first).size + 1 = d.files.size := by
            rw [hlater.files]
            exact OrderedMap.size_erase_of_contains hfirst
          have hkept : ∀ name ∈ next :: rest, (d1.files.erase first).contains name = true := by
            intro name hname
            have hne : first ≠ name := fun heq => hnew (heq ▸ hname)
            rw [hlater.files, ExtTreeMap.contains_erase, hrest name hname, Bool.and_true]
            simpa using hne
          refine ends_modify.mpr (Ends.mono
            (ih (d := { d1 with files := d1.files.erase first }) hkept hdistinct (removed + 1))
            (fun n d' h => ?_) (fun _ _ h => h) fun _ h => h)
          dsimp only at h
          omega

/-- A checkpoint returns how many files it took away.
SOURCE: crates/wal/src/wal.rs:265-285 -/
theorem ends_compact_count (h : Host) :
    Ends compact h (fun removed h' => removed + h'.disk.files.size = h.disk.files.size)
      (fun _ _ => True) fun _ => True := by
  refine ends_bind.mpr (ends_zoom.mpr (Ends.mono (ends_left checkpoint h.store)
    (fun _ s _ => ?_) (fun _ _ _ => trivial) fun _ _ => trivial))
  refine ends_bind.mpr (ends_zoom.mpr (Ends.mono reads_list (fun segments d hd => ?_)
    (fun _ _ _ => trivial) fun _ _ => trivial))
  obtain ⟨rfl, hlater⟩ := hd
  have hheld : ∀ name ∈ h.disk.files.toList.map (·.1), d.files.contains name = true := by
    intro name hname
    obtain ⟨p, hp, rfl⟩ := List.mem_map.mp hname
    rw [hlater.files]
    exact OrderedMap.contains_iff.mpr ⟨p.2, hp⟩
  have hdistinct : (h.disk.files.toList.map (·.1)).Nodup := by
    refine List.pairwise_map.mpr ((OrderedMap.ascending_toList h.disk.files).imp fun hlt => ?_)
    exact ne_of_cmp_lt hlt
  refine ends_zoom.mpr (Ends.mono (ends_removeCovered_count _ hheld hdistinct 0)
    (fun n d' h' => ?_) (fun _ _ h => h) fun _ h => h)
  show n + d'.files.size = _
  rw [h', Nat.zero_add, hlater.files]

/-! ## Retiring where nothing is refused -/

section Freeing

variable [Crc32] {w w' w₀ w₁ : Writer} {log : List Mutation} {older : List (ℕ × File)} {file : File}
  {batch : List Request} {interval : ℕ} {options : Options}

omit [Crc32] in
theorem given_calm (h : w.Calm) : w.given [] [] = w := by
  obtain ⟨hdisk, hengine⟩ := h
  obtain ⟨⟨disk, ⟨engine, state⟩⟩, segment, appended⟩ := w
  obtain ⟨files, replies⟩ := disk
  obtain ⟨commits, durable, calls⟩ := engine
  subst hdisk hengine
  rfl

omit [Crc32] in
/-- What a batch of `n` bytes that was retired made of what the writer counts. -/
structure Lengthened (w w' : Writer) (n : ℕ) : Prop where
  sound : w'.segment.poisoned = false
  limit : w'.segment.limit = w.segment.limit
  written : w'.segment.written = w.counted + n
  appended : w'.appended = w.appended + n
  size : w'.host.disk.files.size = w.host.disk.files.size + if w.segment.isFull then 1 else 0

theorem Trails.size (h : Trails w log older file) :
    w.host.disk.files.size = older.length + 1 := by
  rw [← ExtTreeMap.length_toList, h.files, List.length_append, List.length_singleton]

/-- There is one segment only where the batch went to the only one there was. -/
theorem Lengthened.stayed {n : ℕ} (h : Lengthened w w₁ n) (htrails : Trails w log older file)
    (hone : w₁.host.disk.files.size = 1) :
    w.segment.isFull = false ∧ w.host.disk.files.size = 1 := by
  have hsize := htrails.size
  rw [h.size] at hone
  cases hfull : w.segment.isFull with
  | true =>
    rw [hfull, if_pos rfl] at hone
    omega
  | false =>
    rw [hfull, if_neg Bool.false_ne_true] at hone
    exact ⟨rfl, hone⟩

/-- Where there are two files, one is named below the active segment's. -/
theorem Trails.exists_behind (h : Trails w log older file)
    (htwo : 2 ≤ w.host.disk.files.size) :
    ∃ name, name < w.segment.sink ∧ w.host.disk.files.contains name = true := by
  rw [h.size] at htwo
  obtain ⟨p, rest, rfl⟩ := List.exists_cons_of_ne_nil
    (List.length_pos_iff.mp (Nat.le_of_succ_le_succ htwo))
  refine ⟨p.1, ?_, OrderedMap.contains_iff.mpr ⟨p.2, ?_⟩⟩
  · have hasc := OrderedMap.ascending_toList w.host.disk.files
    rw [h.files] at hasc
    exact Nat.compare_eq_lt.mp ((List.pairwise_append.mp hasc).2.2 p (List.mem_cons_self ..) _
      (List.mem_singleton_self _))
  · rw [h.files]
    exact List.mem_append_left _ (List.mem_cons_self ..)

/-- A batch that can be encoded counts as its bytes.
SOURCE: crates/wal/src/writer.rs:175-208 -/
theorem Trails.ends_retire_lengthened (h : Trails w log older file)
    (hlimit : 1 ≤ w.segment.limit) (hcalm : w.Calm) (hsound : w.segment.poisoned = false)
    (hbatch : ∀ m ∈ mutationsOf batch, Encodable m) :
    Ends (retire batch) w
      (fun _ w' => Lengthened w w' (recordsOf (mutationsOf batch)).length ∧ w'.Calm)
      (fun _ _ => True) fun _ => True := by
  rw [retire, encodeBatch_eq hbatch, List.nil_append]
  refine ends_bind.mpr (Ends.mono ((ends_rollIfFull_ready h hlimit).and (ends_rollIfFull_any w))
    (fun (_ : Unit) w₁ h₁ => ?_) (fun _ _ _ => trivial) fun _ _ => trivial)
  obtain ⟨⟨hready, older₁, file₁, htrails₁⟩, hrolled⟩ := h₁
  have hcounts : w₁.appended = w.appended ∧ w₁.host.disk.files.size =
      w.host.disk.files.size + if w.segment.isFull then 1 else 0 := by
    rcases hrolled with ⟨hroom, rfl⟩ | ⟨hfull, hfresh, -, d, rfl, -, hfiles⟩
    · rw [hroom, if_neg Bool.false_ne_true]
      exact ⟨rfl, rfl⟩
    · refine ⟨rfl, ?_⟩
      show d.files.size = _
      rw [hfiles, ExtTreeMap.size_insert, hfresh, if_neg Bool.false_ne_true, hfull, if_pos rfl]
  have hsound₁ : w₁.segment.poisoned = false := by
    rw [hready.poisoned, hsound, Bool.and_false]
  have hcalm₁ : w₁.Calm := by
    refine ⟨?_, by rw [hready.store]; exact hcalm.2⟩
    rw [hready.replies, Writer.appending, hcalm.1]
    split <;> rfl
  obtain ⟨mutations, -, -, hwritten⟩ := htrails₁.sound hsound₁
  refine ends_bind.mpr (ends_zoom.mpr (Ends.mono (ends_append_at
    (OrderedMap.getElem?_of_toList htrails₁.files) hwritten hsound₁ _) (fun (_ : Unit) t ht => ?_)
    (fun _ _ _ => trivial) fun _ _ => trivial))
  obtain ⟨-, hsegment, hreplies, hfiles⟩ := ht
  have hsize : t.disk.files.size = w₁.host.disk.files.size := by
    have hheld : w₁.host.disk.files.contains w₁.segment.sink = true :=
      OrderedMap.contains_iff.mpr ⟨file₁, by simp [htrails₁.files]⟩
    rw [hfiles, ExtTreeMap.size_insert, if_pos hheld]
  refine ends_bind.mpr (ends_modify.mpr (ends_bind.mpr (ends_get.mpr (ends_zoom.mpr (ends_zoom.mpr
    (Ends.mono (ends_apply_any _ _) (fun _ s hs => ?_) (fun _ _ _ => trivial)
      fun _ _ => trivial))))))
  obtain ⟨-, -, -, -, -, hcalls⟩ := hs
  refine ⟨⟨?_, ?_, ?_, ?_, ?_⟩, ?_, ?_⟩
  · show t.segment.poisoned = false
    rw [hsegment]
    exact hsound₁
  · show t.segment.limit = w.segment.limit
    rw [hsegment]
    exact hready.limit
  · show t.segment.written = _
    rw [hsegment, ← hready.counted]
  · show w₁.appended + _ = _
    rw [hcounts.1]
  · exact hsize.trans hcounts.2
  · exact List.suffix_nil.mp (hcalm₁.1 ▸ hreplies)
  · exact List.suffix_nil.mp (hcalm₁.2 ▸ hcalls)

/-! ## What a turn leaves -/

/-- While there is one segment, what was appended since the last checkpoint is in it. -/
structure Backs (options : Options) (w : Writer) : Prop where
  clear : Clear w
  sound : w.segment.poisoned = false
  limit : w.segment.limit = options.segmentLimit
  counted : w.host.disk.files.size = 1 → w.appended ≤ w.segment.written

theorem Backs.given (h : Backs options w) (replies : List Reply) (calls : List Storage.Reply) :
    Backs options (w.given replies calls) :=
  ⟨h.clear.given replies calls, h.sound, h.limit, h.counted⟩

/-- The writer once the batch is dealt with. -/
structure Dealt (options : Options) (w w₁ : Writer) (batch : List Request) : Prop where
  backs : Backs options w₁
  calm : w₁.Calm
  settled : w₁ = w.settled batch
  outcome : (batch = [] ∨ ¬ ∀ m ∈ mutationsOf batch, Encodable m) ∧ w₁ = w ∨
    (∀ m ∈ mutationsOf batch, Encodable m) ∧
      Lengthened w w₁ (recordsOf (mutationsOf batch)).length

/-- A batch that goes to the only segment is added to both counts, and one that leaves it makes
two of it. -/
theorem Backs.lengthened (h : Backs options w) {n : ℕ} (hlengthened : Lengthened w w₁ n)
    (hclear : Clear w₁) : Backs options w₁ := by
  obtain ⟨log, older, file, htrails⟩ := h.clear.trails
  refine ⟨hclear, hlengthened.sound, hlengthened.limit.trans h.limit, fun hone => ?_⟩
  obtain ⟨hroom, honly⟩ := hlengthened.stayed htrails hone
  have hcounted := h.counted honly
  rw [hlengthened.appended, hlengthened.written, Writer.counted, hroom, if_neg Bool.false_ne_true]
  omega

/-- SOURCE: crates/wal/src/writer.rs:175-208 -/
theorem Backs.ends_retire (h : Backs options w) (hcalm : w.Calm) (hne : batch ≠ []) :
    Ends (retire batch) w (fun _ w₁ => Dealt options w w₁ batch)
      (fun _ w₁ => Dealt options w w₁ batch) fun _ => True := by
  obtain ⟨log, older, file, htrails⟩ := h.clear.trails
  have hpassing : Passing w batch := given_calm hcalm ▸ passing_calm w batch
  have hleft : ∀ w₁, w₁ = ((retire batch).exec w).2 → w₁ = w.settled batch := by
    intro w₁ hw₁
    rw [Writer.settled, if_neg (by simpa using hne), hw₁]
  by_cases hbatch : ∀ m ∈ mutationsOf batch, Encodable m
  · refine Ends.mono ((htrails.ends_retire_lengthened h.clear.positive hcalm h.sound hbatch).and
      ((h.clear.ends_retire hpassing).and ((htrails.ends_retire_ahead h.clear.positive
        h.clear.ahead hpassing).and (ends_left (retire batch) w)))) (fun _ w₁ hw₁ => ?_)
      (fun _ w₁ hw₁ => ?_) fun _ _ => trivial
    · obtain ⟨⟨hlengthened, hcalm₁⟩, hclear, -, hsettled⟩ := hw₁
      exact ⟨h.lengthened hlengthened hclear, hcalm₁, hleft w₁ hsettled,
        .inr ⟨hbatch, hlengthened⟩⟩
    · obtain ⟨-, -, ⟨-, hwhy⟩, -⟩ := hw₁
      exact absurd hcalm (hwhy hbatch h.sound)
  · refine Ends.mono ((ends_retire_spoiled hbatch).and (ends_left (retire batch) w))
      (fun _ _ h => h.1.elim) (fun _ w₁ hw₁ => ?_) fun _ _ => trivial
    obtain ⟨rfl, hsettled⟩ := hw₁
    exact ⟨h, hcalm, hleft _ hsettled, .inl ⟨.inr hbatch, rfl⟩⟩

/-- A checkpoint that nothing disturbs removes all segments but one.
SOURCE: crates/wal/src/wal.rs:265-285 -/
theorem Backs.ends_compact (h : Backs options w) (hcalm : w.Calm) :
    Ends (Writer.onHost compact) w
      (fun removed w' => (∃ host, w' = { w with host := host } ∧
        compact.exec w.host = (.ok removed, host)) ∧ removed + 1 = w.host.disk.files.size ∧
          Backs options { w' with appended := 0 }) (fun _ _ => False) fun _ => True := by
  obtain ⟨log, older, file, htrails⟩ := h.clear.trails
  have hnames : ∀ p ∈ w.host.disk.files.toList, p.1 ≤ w.host.store.state.applied := fun p hp =>
    (name_le_last htrails.files hp).trans htrails.begins
  refine ends_zoom.mpr (Ends.mono ((ends_zoom.mp h.clear.ends_compact).and
    ((Wal.ends_compact htrails.files).and ((ends_compact_count w.host).and
      (ends_exec compact w.host)))) (fun removed host hhost => ?_) (fun _ host hhost => ?_)
    fun _ _ => trivial)
  · obtain ⟨hclear, ⟨-, hlast⟩, hcount, hexec⟩ := hhost
    have hone : host.disk.files.size = 1 := by
      rw [← ExtTreeMap.length_toList, hlast hnames, List.length_singleton]
    rw [hone] at hcount
    exact ⟨⟨host, rfl, hexec⟩, hcount, hclear 0, h.sound, h.limit, fun _ => Nat.zero_le _⟩
  · obtain ⟨-, ⟨-, hrefuses⟩, -⟩ := hhost
    exact hrefuses.elim (Disk.calm hcalm.1).1 (Engine.calm hcalm.2).1

/-- A turn once its batch is dealt with: less than the interval was appended since the last
checkpoint, or a checkpoint removed all segments but one. -/
structure Concluded (options : Options) (w w' : Writer) (batch : List Request) : Prop where
  dealt : Dealt options w (w.settled batch) batch
  backs : Backs options w'
  outcome : w' = w.settled batch ∧ (w.settled batch).appended < options.checkpointInterval ∨
    w'.appended = 0 ∧ ∃ removed, compact.exec (w.settled batch).host = (.ok removed, w'.host) ∧
      removed + 1 = (w.settled batch).host.disk.files.size

/-- SOURCE: crates/wal/src/writer.rs:140-171 -/
theorem Backs.ends_turn (h : Backs options w) (hcalm : w.Calm) (requested : Bool) :
    Ends (turn options.checkpointInterval batch requested) w
      (fun _ w' => Concluded options w w' batch) (fun _ _ => False) fun _ => True := by
  refine @Wal.ends_turn w batch _ options.checkpointInterval requested
    (fun _ w₁ => Dealt options w w₁ batch) (fun _ w' => Concluded options w w' batch) _
    (fun hempty => ?_) (fun hne => h.ends_retire hcalm hne) (fun _ w₁ hdealt => ?_)
    fun _ w₁ hdealt hlt => ?_
  · subst hempty
    exact ⟨h, hcalm, rfl, .inl ⟨.inl rfl, rfl⟩⟩
  · refine Ends.mono (hdealt.backs.ends_compact hdealt.calm) (fun removed w' hw' => ?_)
      (fun _ _ h => h.elim) fun _ h => h
    obtain ⟨⟨host, rfl, hexec⟩, hremoved, hbacks⟩ := hw'
    have hsettled := hdealt.settled
    subst hsettled
    exact ⟨hdealt, hbacks, .inr ⟨rfl, removed, hexec, hremoved⟩⟩
  · have hsettled := hdealt.settled
    subst hsettled
    exact ⟨hdealt, hdealt.backs, .inl ⟨rfl, hlt⟩⟩

theorem Concluded.idle (h : Concluded options w w' batch)
    (hinterval : 1 ≤ options.checkpointInterval) : w'.appended < options.checkpointInterval := by
  rcases h.outcome with ⟨rfl, hlt⟩ | ⟨hnone, -⟩
  · exact hlt
  · rw [hnone]
    exact hinterval

/-! ## Which turns free something -/

section Turn

variable {t : Turn} {answers : Answers}

/-- The batch of a turn that leaps was retired into the only segment.
SOURCE: crates/wal/src/writer.rs:165-169 -/
theorem Concluded.of_leaps (h : Concluded options w w' t.batch)
    (hidle : w.appended < options.checkpointInterval)
    (hleaps : Leaps options.checkpointInterval w t) :
    Automatic options.checkpointInterval w t ∧
      (w.settled t.batch).host.disk.files.size = 1 := by
  obtain ⟨bytes, hbytes, hreached⟩ := hleaps.reached
  obtain ⟨hbatch, rfl⟩ := encodable_of_encodeBatch hbytes
  rcases h.dealt.outcome with ⟨hempty | hspoiled, -⟩ | ⟨-, hlengthened⟩
  · -- without a batch nothing comes to the interval
    rw [hempty] at hreached
    exact absurd hreached (Nat.not_le.mpr hidle)
  · exact absurd hbatch hspoiled
  · refine ⟨⟨hleaps.unrequested, ?_⟩, ?_⟩
    · rw [hlengthened.appended]
      exact hreached
    · rw [hlengthened.size, hleaps.only, hleaps.room, if_neg Bool.false_ne_true]

/-- Where a turn comes to a checkpoint that nobody asked for, and there is one segment, it leaps. -/
theorem Concluded.leaps (h : Concluded options w w' t.batch) (hbacks : Backs options w)
    (hidle : w.appended < options.checkpointInterval)
    (hautomatic : Automatic options.checkpointInterval w t)
    (hone : (w.settled t.batch).host.disk.files.size = 1) :
    Leaps options.checkpointInterval w t := by
  obtain ⟨hunrequested, hreached⟩ := hautomatic
  rcases h.dealt.outcome with ⟨-, hsame⟩ | ⟨hbatch, hlengthened⟩
  · rw [hsame] at hreached
    exact absurd hreached (Nat.not_le.mpr hidle)
  · obtain ⟨log, older, file, htrails⟩ := hbacks.clear.trails
    obtain ⟨hroom, honly⟩ := hlengthened.stayed htrails hone
    rw [hlengthened.appended] at hreached
    exact ⟨hunrequested, honly, hroom, _, encodeBatch_eq hbatch [], hreached⟩

/-- A checkpoint that nobody asked for removes all segments but one. -/
theorem Concluded.removes (h : Concluded options w w' t.batch)
    (hautomatic : Automatic options.checkpointInterval w t) : ∃ removed,
      compact.exec (w.settled t.batch).host = (.ok removed, w'.host) ∧
        removed + 1 = (w.settled t.batch).host.disk.files.size := by
  rcases h.outcome with ⟨-, hlt⟩ | ⟨-, hremoved⟩
  · exact absurd hautomatic.2 (Nat.not_le.mpr hlt)
  · exact hremoved

/-- A turn frees a segment exactly if it does not leap.
SOURCE: crates/wal/src/writer.rs:165-169, crates/wal/src/wal.rs:265-285 -/
theorem Concluded.frees_iff (h : Concluded options w w' t.batch) (hbacks : Backs options w)
    (hidle : w.appended < options.checkpointInterval)
    (hran : (turn options.checkpointInterval t.batch t.requested).exec w = (.ok answers, w')) :
    Frees options.checkpointInterval w t ↔ ¬ Leaps options.checkpointInterval w t := by
  constructor
  · intro hfrees hleaps
    obtain ⟨hautomatic, hone⟩ := h.of_leaps hidle hleaps
    obtain ⟨-, removed, hpositive, hexec⟩ := hfrees hautomatic
    obtain ⟨removed', hexec', hsize⟩ := h.removes hautomatic
    rw [hexec] at hexec'
    obtain rfl : removed = removed' := Except.ok.inj (Prod.mk.inj hexec').1
    omega
  · intro hleaps hautomatic
    obtain ⟨removed, hexec, hsize⟩ := h.removes hautomatic
    have hpositive : 1 ≤ removed := by
      by_contra hnone
      exact hleaps (h.leaps hbacks hidle hautomatic (by omega))
    obtain ⟨log, older, file, htrails⟩ := h.dealt.backs.clear.trails
    refine ⟨htrails.exists_behind (by omega), removed, hpositive, ?_⟩
    rw [hran]
    exact hexec

/-- No batch leaps that is shorter than what a full segment leaves of the interval. -/
theorem Backs.not_leaps (h : Backs options w)
    (hlimits : options.segmentLimit ≤ options.checkpointInterval)
    (hsmall : AtMost (options.checkpointInterval - options.segmentLimit) t.batch) :
    ¬ Leaps options.checkpointInterval w t := by
  rintro ⟨-, honly, hroom, bytes, hbytes, hreached⟩
  have hlength := hsmall bytes hbytes
  have hcounted := h.counted honly
  have hwritten := of_decide_eq_false hroom
  have hlimit := h.limit
  omega

end Turn

/-! ## Runs -/

section Run

variable {turns : List Turn} {told : List Exchange}

/-- What holds of a turn from a writer that is idle holds of every turn. -/
theorem Run.backs {P Q : Writer → Turn → Prop} (h : Backs options w₀)
    (hidle : w₀.appended < options.checkpointInterval)
    (hturn : ∀ (w w' : Writer) (t : Turn) (answers : Answers), Backs options w →
      w.appended < options.checkpointInterval → Concluded options w w' t.batch →
      (turn options.checkpointInterval t.batch t.requested).exec w = (.ok answers, w') →
      P w t → Q w t)
    (hrun : Run options.checkpointInterval (fun w t => t.Calm ∧ P w t) w₀ turns w told) :
    Run options.checkpointInterval (fun w t => t.Calm ∧ Q w t) w₀ turns w told ∧
      Backs options w ∧ w.appended < options.checkpointInterval := by
  induction hrun with
  | start => exact ⟨.start, h, hidle⟩
  | @turned turns w w' told t answers before permitted ran ih =>
    obtain ⟨hbefore, hbacks, hlt⟩ := ih
    obtain ⟨hcalm, hP⟩ := permitted
    have hgiven := hbacks.given t.replies t.calls
    have hconcluded := (hgiven.ends_turn hcalm t.requested).of_ok ran
    refine ⟨.turned hbefore ⟨hcalm, hturn _ _ t answers hgiven hlt hconcluded ran hP⟩ ran,
      hconcluded.backs, hconcluded.idle (Nat.one_le_of_lt hlt)⟩

/-- A writer that was just opened. -/
theorem backs_boot {disk : Disk} {engine : Engine} {m : Disk × Engine} {replies : List Reply}
    {calls : List Storage.Reply} (h : Career options (.down disk engine))
    (hpositive : 1 ≤ options.segmentLimit)
    (hran : (boot options).exec ({ disk with replies }, { engine with replies := calls }) =
      (.ok w, m)) : Backs options w ∧ w.appended = 0 := by
  obtain ⟨⟨first, written, hsegment⟩, happended⟩ := (ends_boot_segment _).of_ok hran
  refine ⟨⟨clear_boot h hpositive hran, by rw [hsegment], by rw [hsegment], fun _ => ?_⟩,
    happended⟩
  rw [happended]
  exact Nat.zero_le _

/-- In a run in which nothing is refused every checkpoint that nobody asked for frees a segment
exactly if no turn leaps, whatever life the writer was opened after.
SOURCE: crates/wal/src/wal.rs:11-29, crates/wal/src/writer.rs:140-208 -/
theorem run_frees {disk : Disk} {engine : Engine} {m : Disk × Engine} {replies : List Reply}
    {calls : List Storage.Reply} (h : Career options (.down disk engine))
    (hpositive : 1 ≤ options.segmentLimit)
    (hinterval : 2 * options.segmentLimit ≤ options.checkpointInterval)
    (hopened : (boot options).exec ({ disk with replies }, { engine with replies := calls }) =
      (.ok w₀, m)) :
    Run options.checkpointInterval (fun w t => t.Calm ∧ Frees options.checkpointInterval w t)
        w₀ turns w told ↔
      Run options.checkpointInterval (fun w t => t.Calm ∧ ¬ Leaps options.checkpointInterval w t)
        w₀ turns w told := by
  obtain ⟨hbacks, happended⟩ := backs_boot h hpositive hopened
  have hidle : w₀.appended < options.checkpointInterval := by omega
  constructor
  · intro hrun
    refine (hrun.backs hbacks hidle fun w w' t answers hbacks hlt hconcluded hran hfrees => ?_).1
    exact (hconcluded.frees_iff hbacks hlt hran).mp hfrees
  · intro hrun
    refine (hrun.backs hbacks hidle fun w w' t answers hbacks hlt hconcluded hran hleaps => ?_).1
    exact (hconcluded.frees_iff hbacks hlt hran).mpr hleaps

/-- So does every one where no batch is longer than the interval without a segment.
SOURCE: crates/wal/src/wal.rs:11-29 -/
theorem run_frees_atMost {disk : Disk} {engine : Engine} {m : Disk × Engine}
    {replies : List Reply} {calls : List Storage.Reply} (h : Career options (.down disk engine))
    (hpositive : 1 ≤ options.segmentLimit)
    (hinterval : 2 * options.segmentLimit ≤ options.checkpointInterval)
    (hopened : (boot options).exec ({ disk with replies }, { engine with replies := calls }) =
      (.ok w₀, m))
    (hrun : Run options.checkpointInterval (fun _ t => t.Calm ∧
      AtMost (options.checkpointInterval - options.segmentLimit) t.batch) w₀ turns w told) :
    Run options.checkpointInterval (fun w t => t.Calm ∧ Frees options.checkpointInterval w t)
      w₀ turns w told := by
  obtain ⟨hbacks, happended⟩ := backs_boot h hpositive hopened
  have hidle : w₀.appended < options.checkpointInterval := by omega
  refine (hrun.backs hbacks hidle fun w w' t answers hbacks hlt hconcluded hran hsmall => ?_).1
  exact (hconcluded.frees_iff hbacks hlt hran).mpr (hbacks.not_leaps (by omega) hsmall)

end Run

end Freeing

/-! ## A record as long as the interval -/

section Run

variable [Crc32] {interval : ℕ} {allowed : Writer → Turn → Prop} {w₀ w : Writer}
  {told : List Exchange}

theorem Run.of_nil (h : Run interval allowed w₀ [] w told) : w = w₀ := by
  generalize hturns : ([] : List Turn) = turns at h
  cases h with
  | start => rfl
  | turned before permitted ran => simp at hturns

theorem Run.of_singleton {t : Turn} (h : Run interval allowed w₀ [t] w told) :
    allowed (w₀.given t.replies t.calls) t := by
  generalize hturns : [t] = turns at h
  cases h with
  | start => cases hturns
  | @turned turns w w' told t' answers before permitted ran =>
    have hsplit : turns ++ [t'] = [] ++ [t] := hturns.symm
    obtain ⟨rfl, hlast⟩ := List.append_inj' hsplit rfl
    obtain rfl := List.singleton_inj.mp hlast
    rwa [before.of_nil] at permitted

end Run

/-- The first writer of a log. -/
def openedWith (options : Options) : Writer :=
  (@boot crc32fast options).returned (Disk.empty, Engine.empty)
    ⟨⟨Disk.empty, KvStore.fresh⟩, ⟨0, 0, 0, false⟩, 0⟩

theorem boot_openedWith {options : Options}
    (h : (@boot crc32fast options).returnsFrom (Disk.empty, Engine.empty) = true) :
    (@boot crc32fast options).exec (Disk.empty, Engine.empty) =
      (.ok (openedWith options), ((@boot crc32fast options).exec (Disk.empty, Engine.empty)).2) :=
  exec_returned h _

/-- Segments and intervals of a few records. -/
def short : Options := ⟨20, 40⟩

/-- A put does not leap where its record is too short. -/
theorem not_leaps_put {w : Writer} (h : w.appended + 16 < 40) :
    ¬ @Leaps crc32fast 40 w (putTurn 107 [] []) := by
  rintro ⟨-, -, -, bytes, hbytes, hreached⟩
  have hlength := atMost_put bytes hbytes
  omega

/-- Of three puts the second fills the first segment and the third goes to another one, and then
the checkpoint removes the first. -/
theorem run_frees_three :
    ∃ w told, @Run crc32fast 40 (fun w t => t.Calm ∧ @Frees crc32fast 40 w t) (openedWith short)
        [putTurn 107 [] [], putTurn 107 [] [], putTurn 107 [] []] w told ∧
      w.segment.sink = 2 ∧ w.host.disk.files.size = 1 ∧ w.appended = 0 := by
  obtain ⟨first, h₁⟩ := @Run.next _ crc32fast _ _ _ _ _
    (@Run.start crc32fast 40 (fun w t => t.Calm ∧ ¬ @Leaps crc32fast 40 w t) (openedWith short))
    (putTurn 107 [] []) ⟨⟨rfl, rfl⟩, not_leaps_put (by decide +kernel)⟩ (by decide +kernel)
  obtain ⟨second, h₂⟩ := @Run.next _ crc32fast _ _ _ _ _ h₁ (putTurn 107 [] [])
    ⟨⟨rfl, rfl⟩, not_leaps_put (by decide +kernel)⟩ (by decide +kernel)
  -- the segment is full before the third
  obtain ⟨third, h₃⟩ := @Run.next _ crc32fast _ _ _ _ _ h₂ (putTurn 107 [] [])
    ⟨⟨rfl, rfl⟩, fun hleaps => absurd (@Leaps.room crc32fast _ _ _ hleaps) (by decide +kernel)⟩
    (by decide +kernel)
  have hfrees := (@run_frees crc32fast _ _ short _ _ Disk.empty Engine.empty _ [] []
    (@Career.fresh crc32fast short) (by decide) (by decide) (boot_openedWith (by decide +kernel))).mpr h₃
  exact ⟨_, _, hfrees, by decide +kernel, by decide +kernel, by decide +kernel⟩

/-- A record as long as an interval of two segments. -/
def leapt : Options := ⟨8, 16⟩

/-- The first put comes to the interval at once, and the checkpoint finds nothing to remove. -/
theorem run_frees_leapt :
    ¬ ∀ options : Options, 1 ≤ options.segmentLimit →
      2 * options.segmentLimit ≤ options.checkpointInterval → ∀ w₀ m,
      (@boot crc32fast options).exec (Disk.empty, Engine.empty) = (.ok w₀, m) →
      ∀ turns w told, @CalmRun crc32fast options.checkpointInterval w₀ turns w told →
        @Run crc32fast options.checkpointInterval
          (fun w t => t.Calm ∧ @Frees crc32fast options.checkpointInterval w t) w₀ turns w told := by
  intro hall
  obtain ⟨answers, hrun⟩ := @Run.next _ crc32fast _ _ _ _ _
    (@Run.start crc32fast 16 (fun _ t => t.replies = [] ∧ t.calls = []) (openedWith leapt))
    (putTurn 107 [] []) ⟨rfl, rfl⟩ (by decide +kernel)
  have hruns := hall leapt (by decide) (by decide) _ _ (boot_openedWith (by decide +kernel)) _ _ _ hrun
  obtain ⟨-, hfrees⟩ := @Run.of_singleton crc32fast _ _ _ _ _ _ hruns
  obtain ⟨⟨name, hname, -⟩, -⟩ := hfrees ⟨rfl, by decide +kernel⟩
  have hsink : (@Writer.settled crc32fast ((openedWith leapt).given [] [])
      (putTurn 107 [] []).batch).segment.sink = 0 := by decide +kernel
  exact Nat.not_lt_zero name (hsink ▸ hname)

end Hadar.Wal
