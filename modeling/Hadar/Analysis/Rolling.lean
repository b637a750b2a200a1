import Hadar.Analysis.Backlog
import Hadar.Analysis.Ordering
import Hadar.Interface.Rolling

/-!
# The next segment's name

The active segment is the last one and is never named past the store's position. It becomes full
only when a batch is written, and a batch that is then applied moves the store past its name.
Where the batch is not applied the name may still be the store's position, and then the segment
is full for good.
-/

set_option autoImplicit false

namespace Hadar.Wal

open Hadar.Lib Hadar.Lib.Prog Hadar.Storage Hadar.Mvcc Std

section Rolling

variable [Crc32]

/-- A full segment is named before the store's position. -/
def Ahead (w : Writer) : Prop :=
  w.segment.isFull = true → w.segment.sink < w.host.store.state.applied

section Ahead

variable {w w' : Writer} {log : List Mutation} {older : List (ℕ × File)} {file : File}
  {batch : List Request}

omit [Crc32] in
theorem Ahead.of_room (h : w.segment.isFull = false) : Ahead w := fun hfull =>
  absurd (h.symm.trans hfull) Bool.false_ne_true

omit [Crc32] in
theorem Ahead.of_same (h : Ahead w) (hsegment : w'.segment = w.segment)
    (happlied : w'.host.store.state.applied = w.host.store.state.applied) : Ahead w' := by
  rw [Ahead, hsegment, happlied]
  exact h

omit [Crc32] in
theorem granted_nil (n : ℕ) : Granted n [] := by
  intro e applied hmem
  rw [List.take_nil] at hmem
  cases hmem

omit [Crc32] in
/-- The writer of the segment a batch goes to: the same one, or one with a new segment in the place
of a full one. -/
structure Ready (w w₁ : Writer) : Prop where
  room : w₁.segment.isFull = false
  limit : w₁.segment.limit = w.segment.limit
  counted : w₁.segment.written = w.counted
  poisoned : w₁.segment.poisoned = (!w.segment.isFull && w.segment.poisoned)
  store : w₁.host.store = w.host.store
  replies : w₁.host.disk.replies = w.appending
  named : w₁.segment.sink = w.host.store.state.applied →
    w.segment.isFull = true ∨ w.segment.sink = w.host.store.state.applied
  moved : w.segment.isFull = true → w.host.disk.replies.headD .done = .done ∧
    w.host.disk.files.contains w.host.store.state.applied = false

/-- A full segment is left, or nothing changes.
SOURCE: crates/wal/src/writer.rs:191-196 -/
theorem ends_rollIfFull_ready (h : Trails w log older file) (hlimit : 1 ≤ w.segment.limit) :
    Ends rollIfFull w (fun _ w₁ => Ready w w₁ ∧ ∃ older file, Trails w₁ log older file)
      (fun _ w₁ => w₁.segment = w.segment ∧ w₁.host.store = w.host.store ∧
        ((∃ cut, w.host.disk.replies.headD .done = .refused cut) ∨ ¬ Ahead w)) fun _ => True := by
  refine Ends.mono ((ends_rollIfFull_any w).and h.ends_rollIfFull) (fun _ w₁ hok => ?_)
    (fun _ w₁ hfailed => ?_) fun _ _ => trivial
  · obtain ⟨hrolled, -, -, htrails⟩ := hok
    refine ⟨?_, htrails⟩
    rcases hrolled with ⟨hroom, rfl⟩ | ⟨hfull, hfresh, hreply, d, rfl, hreplies, -⟩
    · refine ⟨hroom, rfl, ?_, ?_, rfl, ?_, .inr, fun hfull => ?_⟩
      · rw [Writer.counted, hroom, if_neg Bool.false_ne_true]
      · rw [hroom]
        rfl
      · rw [Writer.appending, hroom, if_neg Bool.false_ne_true]
      · exact absurd (hroom.symm.trans hfull) Bool.false_ne_true
    · refine ⟨decide_eq_false (Nat.not_le.mpr hlimit), rfl, ?_, ?_, rfl, ?_, fun _ => .inl hfull,
        fun _ => ⟨hreply, hfresh⟩⟩
      · rw [Writer.counted, hfull, if_pos rfl]
      · rw [hfull]
        rfl
      · rw [Writer.appending, hfull, if_pos rfl]
        exact hreplies
  · obtain ⟨⟨⟨d, rfl, -⟩, hwhy⟩, -⟩ := hfailed
    refine ⟨rfl, rfl, hwhy.imp_right ?_⟩
    rintro ⟨hfull, htaken⟩ hahead
    -- no file is named past the active segment
    obtain ⟨file', hfile'⟩ := OrderedMap.contains_iff.mp htaken
    have hle := name_le_last h.files hfile'
    exact Nat.not_le.mpr (hahead hfull) hle

variable {w₁ w₂ : Writer}

/-- A batch written in full to a segment named after the store's position, which it fills. -/
theorem Ready.overfills (h : Ready w w₁) (hbatch : ∀ m ∈ mutationsOf batch, Encodable m)
    (hsound : w₁.segment.poisoned = false) (hdone : w.appending.headD .done = .done)
    (hnamed : w₁.segment.sink = w.host.store.state.applied)
    (hfull : w₁.segment.limit ≤ w₁.segment.written + (recordsOf (mutationsOf batch)).length) :
    Overfills w batch := by
  refine ⟨⟨hbatch, h.moved, fun hroom => ?_⟩, hdone, h.named hnamed, ?_⟩
  · have hpoisoned := h.poisoned
    rw [hroom, hsound] at hpoisoned
    exact hpoisoned.symm
  · rw [← h.limit, ← h.counted]
    exact hfull

/-- A batch that is not appended leaves the segment with room, or it fills a segment named before
the store's position.
SOURCE: crates/wal/src/segment.rs:99-129 -/
theorem Ready.ends_append (h : Ready w w₁) (htrails : Trails w₁ log older file)
    (hbatch : ∀ m ∈ mutationsOf batch, Encodable m) (hpassing : Passing w batch) :
    Ends (Writer.onSegment (Segment.append (recordsOf (mutationsOf batch)))) w₁
      (fun _ w₂ => w₂.segment = { w₁.segment with
          written := w₁.segment.written + (recordsOf (mutationsOf batch)).length } ∧
        w₂.host.store = w₁.host.store ∧ w₁.segment.poisoned = false ∧
        w.appending.headD .done = .done)
      (fun _ w₂ => Ahead w₂ ∧ w₂.segment.limit = w₁.segment.limit ∧
        (w₁.segment.poisoned = true ∨ Faults.Refuses w₁.host.disk)) fun _ => True := by
  cases hpoisoned : w₁.segment.poisoned with
  | true =>
    refine Ends.mono (ends_append_poisoned hpoisoned _) (fun _ _ h => h.elim)
      (fun _ w₂ hw₂ => ?_) fun _ _ => trivial
    subst hw₂
    exact ⟨.of_room h.room, rfl, .inl rfl⟩
  | false =>
    obtain ⟨mutations, -, -, hwritten⟩ := htrails.sound hpoisoned
    refine ends_zoom.mpr (Ends.mono (ends_append_at
      (OrderedMap.getElem?_of_toList htrails.files) hwritten hpoisoned _) (fun _ t ht => ?_)
      (fun _ t ht => ?_) fun _ _ => trivial)
    · exact ⟨ht.2.1, rfl, rfl, h.replies ▸ ht.1⟩
    · obtain ⟨hrefuses, -, file', hfallen, -⟩ := ht
      obtain ⟨segment, hsegment⟩ : ∃ segment, t.segment = segment := ⟨_, rfl⟩
      rw [hsegment] at hfallen
      -- what was not counted leaves as much room as there was
      have hroom : ∀ poisoned, t.segment = { w₁.segment with poisoned } →
          t.segment.isFull = false ∧ t.segment.limit = w₁.segment.limit := fun poisoned ht =>
        ht ▸ ⟨h.room, rfl⟩
      cases hfallen with
      | rewound poisoned first kept =>
        obtain ⟨hfull, hlimit⟩ := hroom poisoned hsegment
        exact ⟨.of_room hfull, hlimit, .inr hrefuses⟩
      | stuck first next =>
        obtain ⟨hfull, hlimit⟩ := hroom true hsegment
        exact ⟨.of_room hfull, hlimit, .inr hrefuses⟩
      | unflushed first next =>
        have hsink : t.segment.sink = w₁.segment.sink := by rw [hsegment]
        refine ⟨fun hfull => ?_, by rw [hsegment], .inr hrefuses⟩
        have hle : w₁.segment.limit ≤
            w₁.segment.written + (recordsOf (mutationsOf batch)).length := by
          have hover := of_decide_eq_true hfull
          dsimp only at hover
          rw [hsegment] at hover
          exact hover
        have hne : w₁.segment.sink ≠ w₁.host.store.state.applied := fun hnamed => by
          rw [h.store] at hnamed
          have hcalm := (hpassing (h.overfills hbatch hpoisoned (h.replies ▸ first) hnamed hle)).1
          exact hcalm _ (h.replies ▸ next)
        dsimp only
        rw [hsink]
        exact Nat.lt_of_le_of_ne htrails.begins hne

/-- A batch that is applied moves the store on; one that is not leaves room in the segment, or the
segment is named before the store's position.
SOURCE: crates/wal/src/writer.rs:201-207 -/
theorem Ready.ends_apply (h : Ready w w₁) (htrails : Trails w₁ log older file)
    (hbatch : ∀ m ∈ mutationsOf batch, Encodable m) (hpassing : Passing w batch)
    (hsound : w₁.segment.poisoned = false) (hdone : w.appending.headD .done = .done)
    (hsegment : w₂.segment = { w₁.segment with
      written := w₁.segment.written + (recordsOf (mutationsOf batch)).length })
    (hstore : w₂.host.store = w₁.host.store) :
    Ends (Writer.onHost (Host.onStore (Mvcc.apply (mutationsOf batch)
        (w₂.host.store.state.applied + (mutationsOf batch).length)))) w₂
      (fun _ w₃ => Ahead w₃ ∧ w₃.segment.limit = w₁.segment.limit)
      (fun _ w₃ => (Ahead w₃ ∧ w₃.segment.limit = w₁.segment.limit) ∧
        ¬ Granted ((mutationsOf batch).length + 3) w.host.store.engine.replies)
      fun _ => True := by
  have hlimit : w₂.segment.limit = w₁.segment.limit := by rw [hsegment]
  have hsink : w₂.segment.sink = w₁.segment.sink := by rw [hsegment]
  have hover : w₂.segment.isFull = true →
      w₁.segment.limit ≤ w₁.segment.written + (recordsOf (mutationsOf batch)).length := by
    intro hfull
    have hover := of_decide_eq_true hfull
    rw [hsegment] at hover
    exact hover
  have hbegins := htrails.begins
  have hbound := htrails.keeping.bound
  have hkeeping : Keeping w₂.host.store log := hstore ▸ htrails.keeping
  refine ends_zoom.mpr (ends_zoom.mpr (Ends.mono ((hkeeping.ends_apply (mutationsOf batch)
    (by rw [List.length_append, hstore]; omega)).and (ends_apply_refused _ _)) (fun _ s hs => ?_)
    (fun _ s hs => ?_) fun _ _ => trivial))
  · obtain ⟨⟨-, -, happlied, -⟩, -⟩ := hs
    refine ⟨fun hfull => ?_, hlimit⟩
    -- the segment had room, so the batch is not empty
    have hroom := of_decide_eq_false h.room
    have hle := hover hfull
    have hnonempty : 0 < (mutationsOf batch).length := by
      rw [List.length_pos_iff]
      intro hnil
      rw [hnil, recordsOf_nil, List.length_nil] at hle
      omega
    dsimp only
    rw [happlied, hsink, hstore]
    omega
  · obtain ⟨hlater, hrefused⟩ := hs
    rw [hstore, h.store] at hrefused
    refine ⟨⟨fun hfull => ?_, hlimit⟩, hrefused⟩
    have hne : w₁.segment.sink ≠ w₁.host.store.state.applied := fun hnamed => by
      rw [h.store] at hnamed
      exact hrefused (hpassing (h.overfills hbatch hsound hdone hnamed (hover hfull))).2
    dsimp only
    rw [hsink, KvStore.Later.state hlater, hstore]
    exact Nat.lt_of_le_of_ne hbegins hne

/-- Retiring a batch leaves a segment that can be left, if the batch passes. It is refused only
where something is, or where the segment could not be left before or is poisoned.
SOURCE: crates/wal/src/writer.rs:175-208 -/
theorem Trails.ends_retire_ahead (h : Trails w log older file) (hlimit : 1 ≤ w.segment.limit)
    (hahead : Ahead w) (hpassing : Passing w batch) :
    Ends (retire batch) w
      (fun _ w' => Ahead w' ∧ w'.segment.limit = w.segment.limit)
      (fun _ w' => (Ahead w' ∧ w'.segment.limit = w.segment.limit) ∧
        ((∀ m ∈ mutationsOf batch, Encodable m) → w.segment.poisoned = false →
          ¬ (w.host.disk.replies = [] ∧ w.host.store.engine.replies = [])))
      fun _ => True := by
  by_cases hbatch : ∀ m ∈ mutationsOf batch, Encodable m
  case neg =>
    refine Ends.mono (ends_retire_spoiled hbatch) (fun _ _ h => h.elim) (fun _ w' hw' => ?_)
      fun _ h => h.elim
    subst hw'
    exact ⟨⟨hahead, rfl⟩, fun hall => absurd hall hbatch⟩
  rw [retire, encodeBatch_eq hbatch, List.nil_append]
  refine ends_bind.mpr (Ends.mono (ends_rollIfFull_ready h hlimit) (fun (_ : Unit) w₁ h₁ => ?_)
    (fun _ w₁ h₁ => ?_) fun _ h => h)
  · obtain ⟨hready, older₁, file₁, htrails₁⟩ := h₁
    refine ends_bind.mpr (Ends.mono (hready.ends_append htrails₁ hbatch hpassing)
      (fun (_ : Unit) w₂ h₂ => ?_) (fun _ w₂ h₂ => ?_) fun _ h => h)
    · obtain ⟨hsegment, hstore, hsound, hdone⟩ := h₂
      refine ends_bind.mpr (ends_modify.mpr (ends_bind.mpr (ends_get.mpr ?_)))
      refine Ends.mono (hready.ends_apply htrails₁ hbatch hpassing hsound hdone hsegment
        hstore) (fun _ w₃ h₃ => ?_) (fun _ w₃ h₃ => ?_) fun _ h => h
      · exact ⟨h₃.1, h₃.2.trans hready.limit⟩
      · refine ⟨⟨h₃.1.1, h₃.1.2.trans hready.limit⟩, fun _ _ hcalm => h₃.2 ?_⟩
        rw [hcalm.2]
        exact granted_nil _
    · obtain ⟨hahead₂, hlimit₂, hwhy⟩ := h₂
      refine ⟨⟨hahead₂, hlimit₂.trans hready.limit⟩, fun _ hsound hcalm => ?_⟩
      rcases hwhy with hpoisoned | ⟨cut, hmem⟩
      · rw [hready.poisoned, hsound, Bool.and_false] at hpoisoned
        cases hpoisoned
      · rw [hready.replies, Writer.appending, hcalm.1] at hmem
        split at hmem <;> cases hmem
  · obtain ⟨hsegment, hstore, hwhy⟩ := h₁
    refine ⟨⟨hahead.of_same hsegment (by rw [hstore]), by rw [hsegment]⟩, fun _ _ hcalm => ?_⟩
    rcases hwhy with ⟨cut, hcut⟩ | hbehind
    · rw [hcalm.1] at hcut
      cases hcut
    · exact hbehind hahead

end Ahead

/-! ## Runs -/

/-- The writer of a log and a store that any life may have led to, whose segment can be left. -/
structure Clear (w : Writer) : Prop where
  trails : ∃ log older file, Trails w log older file
  positive : 1 ≤ w.segment.limit
  ahead : Ahead w

section Clear

variable {w₀ w w' : Writer} {batch : List Request} {interval : ℕ} {requested : Bool}

theorem Clear.given (h : Clear w) (replies : List Reply) (calls : List Storage.Reply) :
    Clear (w.given replies calls) := by
  obtain ⟨log, older, file, htrails⟩ := h.trails
  exact ⟨⟨log, older, file, htrails.given replies calls⟩, h.positive, h.ahead⟩

theorem Clear.ends_retire (h : Clear w) (hpassing : Passing w batch) :
    Ends (retire batch) w (fun _ w' => Clear w') (fun _ w' => Clear w') fun _ => True := by
  obtain ⟨log, older, file, htrails⟩ := h.trails
  refine Ends.mono ((htrails.ends_retire_ahead h.positive h.ahead hpassing).and
    (htrails.ends_retire batch)) (fun _ w' hok => ?_) (fun _ w' hfailed => ?_) fun _ _ => trivial
  · obtain ⟨⟨hahead, hlimit⟩, hentered⟩ := hok
    obtain ⟨older', data, htrails', -⟩ := hentered.trails
    exact ⟨⟨_, older', _, htrails'⟩, hlimit ▸ h.positive, hahead⟩
  · obtain ⟨⟨⟨hahead, hlimit⟩, -⟩, hunmoved⟩ := hfailed
    obtain ⟨older', file', htrails'⟩ := hunmoved.trails
    exact ⟨⟨_, older', _, htrails'⟩, hlimit ▸ h.positive, hahead⟩

/-- A checkpoint moves neither the store nor the active segment.
SOURCE: crates/wal/src/wal.rs:265-285 -/
theorem Clear.ends_compact (h : Clear w) :
    Ends (Writer.onHost compact) w (fun _ w' => ∀ appended, Clear { w' with appended })
      (fun _ w' => Clear w') fun _ => True := by
  obtain ⟨log, older, file, htrails⟩ := h.trails
  have hclear : ∀ host appended, Compacted w.host host older (w.segment.sink, file) →
      Clear ⟨host, w.segment, appended⟩ := by
    intro host appended hcompacted
    obtain ⟨older', htrails'⟩ : ∃ older', Trails ⟨host, w.segment, appended⟩ log older' file :=
      htrails.compacted hcompacted rfl
    exact ⟨⟨log, older', file, htrails'⟩, h.positive,
      h.ahead.of_same rfl (by rw [hcompacted.state_eq])⟩
  exact ends_zoom.mpr (Ends.mono (Wal.ends_compact htrails.files)
    (fun _ host hhost appended => hclear host appended hhost.1)
    (fun _ host hhost => hclear host _ hhost.1) fun _ _ => trivial)

/-- SOURCE: crates/wal/src/writer.rs:140-171 -/
theorem Clear.ends_turn (h : Clear w) (hpassing : Passing w batch) :
    Ends (turn interval batch requested) w (fun _ w' => Clear w') (fun _ _ => False)
      fun _ => True := by
  refine @Wal.ends_turn w batch _ interval requested (fun _ w' => Clear w') (fun _ w' => Clear w') _
    (fun _ => h) (fun _ => h.ends_retire hpassing) (fun _ w' hw' => ?_) fun _ w' hw' _ => hw'
  exact Ends.mono hw'.ends_compact (fun _ _ h => h 0) (fun _ _ h => h) fun _ h => h

/-- Every turn whose batch passes leaves a segment that can be left. -/
theorem Run.clear {turns : List Turn} {told : List Exchange} (h : Clear w₀)
    (hrun : Run interval (fun w t => Passing w t.batch) w₀ turns w told) : Clear w := by
  induction hrun with
  | start => exact h
  | @turned turns w w' told t answers before permitted ran ih =>
    exact ((ih.given t.replies t.calls).ends_turn permitted).of_ok ran

/-- A writer that was just opened. -/
theorem clear_boot {options : Options} {disk : Disk} {engine : Engine} {m : Disk × Engine}
    (h : Career options (.down disk engine)) (hpositive : 1 ≤ options.segmentLimit)
    {replies : List Reply} {calls : List Storage.Reply}
    (hran : (boot options).exec ({ disk with replies }, { engine with replies := calls }) =
      (.ok w, m)) : Clear w := by
  have hsalvageable : Salvageable disk engine := h.salvaged
  obtain ⟨log, older, file, htrails, hpassed⟩ :=
    ((hsalvageable.given replies calls).ends_boot options).of_ok hran
  obtain ⟨hlimit, -⟩ := (ends_boot_count _).of_ok hran
  refine ⟨⟨log, older, file, htrails⟩, hlimit ▸ hpositive, fun hfull => hpassed ?_⟩
  have hover := of_decide_eq_true hfull
  omega

/-- Where everything succeeds a batch passes. -/
theorem passing_calm (w : Writer) (batch : List Request) : Passing (w.given [] []) batch := by
  refine fun _ => ⟨fun cut hcut => ?_, granted_nil _⟩
  have hnone : (w.given [] []).appending = [] := by
    rw [Writer.appending]
    split <;> rfl
  rw [hnone] at hcut
  cases hcut

theorem Clear.rollsOver (h : Clear w) : RollsOver w := by
  obtain ⟨log, older, file, htrails⟩ := h.trails
  have hfree : w.segment.isFull = true →
      w.host.disk.files.contains w.host.store.state.applied = false := by
    intro hfull
    refine OrderedMap.contains_eq_false fun file' hfile' => ?_
    exact Nat.not_le.mpr (h.ahead hfull) (name_le_last htrails.files hfile')
  refine ⟨h.ahead, hfree, fun replies calls hreply => ?_, fun hsound batch hbatch e hexec => ?_⟩
  · refine Ends.returnsFrom (Ends.mono (ends_rollIfFull_any (w.given replies calls))
      (fun _ _ h => h) (fun _ _ hfailed => ?_) fun _ ⟨_, cut, hcut⟩ => ?_)
    · rcases hfailed.2 with ⟨cut, hcut⟩ | ⟨hfull, htaken⟩
      · exact nomatch hreply.symm.trans hcut
      · exact Bool.false_ne_true ((hfree hfull).symm.trans htaken)
    · exact nomatch hreply.symm.trans hcut
  · have hends := (htrails.given [] []).ends_retire_ahead h.positive h.ahead
      (passing_calm w batch)
    exact ((hends.of_error (Prod.ext hexec rfl)).2 hbatch hsound) ⟨rfl, rfl⟩

/-- A full segment can be left in every state a writer comes to by turns whose batches pass,
whatever life it was opened after.
SOURCE: crates/wal/src/writer.rs:191-207, crates/wal/src/segment.rs:41-51 -/
theorem run_rollsOver {options : Options} {disk : Disk} {engine : Engine} {m : Disk × Engine}
    {replies : List Reply} {calls : List Storage.Reply} {turns : List Turn} {told : List Exchange}
    (h : Career options (.down disk engine)) (hpositive : 1 ≤ options.segmentLimit)
    (hopened : (boot options).exec ({ disk with replies }, { engine with replies := calls }) =
      (.ok w₀, m))
    (hrun : Run options.checkpointInterval (fun w t => Passing w t.batch) w₀ turns w told) :
    RollsOver w :=
  (hrun.clear (clear_boot h hpositive hopened)).rollsOver

end Clear

end Rolling

/-! ## A flush refused in a full first segment -/

/-- Options under which every record fills a segment. -/
def cramped : Options := ⟨1, 1000⟩

def crampedWriter : Writer :=
  (@boot crc32fast cramped).returned (Disk.empty, Engine.empty)
    ⟨⟨Disk.empty, KvStore.fresh⟩, ⟨0, 0, 0, false⟩, 0⟩

theorem boot_crampedWriter : (@boot crc32fast cramped).exec (Disk.empty, Engine.empty) =
    (.ok crampedWriter, ((@boot crc32fast cramped).exec (Disk.empty, Engine.empty)).2) :=
  exec_returned (by decide +kernel) _

/-- A put fills the first segment and is applied, so the segment can be left. -/
theorem run_rollsOver_full :
    ∃ w told, @Run crc32fast 1000 (fun w t => @Passing crc32fast w t.batch) crampedWriter
      [putTurn 107 [] []] w told ∧ @RollsOver crc32fast w ∧ w.segment.isFull = true := by
  obtain ⟨first, h₁⟩ := @Run.next _ crc32fast _ _ _ _ _
    (@Run.start crc32fast 1000 (fun w t => @Passing crc32fast w t.batch) crampedWriter)
    (putTurn 107 [] []) (@passing_calm crc32fast crampedWriter _) (by decide +kernel)
  exact ⟨_, _, h₁, @run_rollsOver crc32fast _ _ cramped Disk.empty Engine.empty _ [] [] _ _
    (@Career.fresh crc32fast cramped) (by decide) boot_crampedWriter h₁, by decide +kernel⟩

/-- Where the flush of the first put is refused, its segment is full and has the name of the store's
position, and every later put is refused. -/
theorem jammed_cramped :
    ∃ w told, @Run crc32fast 1000 (fun _ _ => True) crampedWriter
        [putTurn 107 [.done, .refused 0] []] w told ∧
      w.segment.isFull = true ∧ ¬ w.segment.sink < w.host.store.state.applied ∧
      w.host.disk.files.contains w.host.store.state.applied = true ∧
      (@retire crc32fast [⟨[.put [108] [118]]⟩]).returnsFrom (w.given [] []) = false := by
  obtain ⟨first, h₁⟩ := @Run.next _ crc32fast _ _ _ _ _
    (@Run.start crc32fast 1000 (fun _ _ => True) crampedWriter)
    (putTurn 107 [.done, .refused 0] []) trivial (by decide +kernel)
  exact ⟨_, _, h₁, by decide +kernel, by decide +kernel, by decide +kernel, by decide +kernel⟩

end Hadar.Wal
