import Hadar.Analysis.Calls
import Hadar.Interface.Waiting

/-!
# Nobody waits for another caller

Every step of the thread leaves it less to do before it waits, and where it waits there is nothing
left in the queue: so there is room for a message, and whoever awaits an answer has it or has
nobody left to give it. No caller waits for another one, be it gone or never polled again.
-/

set_option autoImplicit false

namespace Hadar.Wal

open Hadar.Lib Hadar.Lib.Prog Hadar.Storage Hadar.Mvcc

variable [Crc32] {s s' s'' s₀ : System} {history marks marks' : List (Mark Ask Outcome)}
  {interval : ℕ}

/-! ## Several steps -/

theorem performs_append {actions actions' : List Action}
    (h : s.performs interval actions = some (s', marks))
    (h' : s'.performs interval actions' = some (s'', marks')) :
    s.performs interval (actions ++ actions') = some (s'', marks ++ marks') := by
  induction actions generalizing s marks with
  | nil =>
    cases h
    exact h'
  | cons action rest ih =>
    rw [System.performs] at h
    split at h
    · cases h
    · rename_i s₁ mark hfirst
      split at h
      · cases h
      · rename_i s₂ marks₂ hrest
        cases h
        rw [List.cons_append, System.performs, hfirst]
        dsimp only
        rw [ih hrest, List.append_assoc]

theorem performs_singleton {action : Action} {mark : Option (Mark Ask Outcome)}
    (h : s.perform interval action = some (s', mark)) :
    s.performs interval [action] = some (s', mark.toList) := by
  simp [System.performs, h]

theorem perform_advance (hcrashed : s.stage.isCrashed = false) :
    s.perform interval .advance = (s.advance interval).map (·, none) := by
  rw [System.perform, if_neg (by rw [hcrashed]; exact Bool.false_ne_true)]

/-! ## The thread comes to rest -/

omit [Crc32] in
theorem after_work (stage : Stage) (p : Prog Thread Error Unit) :
    (s.after stage p).places = s.places ∧
      (s.after stage p).queue.length ≤ s.queue.length ∧
      (s.after stage p).stage.steps ≤ stage.steps := by
  unfold System.after
  split
  · exact ⟨rfl, Nat.le_refl _, Nat.le_refl _⟩
  · exact ⟨rfl, Nat.le_refl _, Nat.zero_le _⟩
  · exact ⟨rfl, Nat.zero_le _, Nat.zero_le _⟩

/-- A step of the thread is one it need not take again, and moves no call.
SOURCE: crates/wal/src/writer.rs:126-172 -/
theorem advance_work (h : s.advance interval = some s') :
    s'.work < s.work ∧ s'.places = s.places := by
  unfold System.advance at h
  split at h
  · rename_i hstage
    split at h
    · rename_i message rest hqueue
      cases h
      refine ⟨?_, rfl⟩
      simp only [System.work, System.taking, Stage.steps, hstage, hqueue, List.length_cons]
      omega
    · split at h
      · cases h
        refine ⟨?_, rfl⟩
        simp only [System.work, Stage.steps, hstage]
        omega
      · cases h
  · rename_i pending hstage
    have hcollected : ({ s with stage := .collected pending } : System).work < s.work := by
      simp only [System.work, Stage.steps, hstage]
      omega
    split at h
    · split at h
      · rename_i message rest hqueue
        cases h
        refine ⟨?_, rfl⟩
        simp only [System.work, System.taking, Stage.steps, hstage, hqueue, List.length_cons]
        omega
      · cases h
        exact ⟨hcollected, rfl⟩
    · cases h
      exact ⟨hcollected, rfl⟩
  · rename_i pending hstage
    cases h
    obtain ⟨hplaces, hqueue, hsteps⟩ :=
      after_work (s := s) (.retired pending.requested) (retireBatch pending.batch)
    refine ⟨?_, hplaces⟩
    simp only [System.work, Stage.steps, hstage] at hsteps ⊢
    omega
  · rename_i requested hstage
    cases h
    obtain ⟨hplaces, hqueue, hsteps⟩ :=
      after_work (s := s) .receiving (checkpointIfDue interval requested)
    refine ⟨?_, hplaces⟩
    simp only [System.work, Stage.steps, hstage] at hsteps ⊢
    omega
  · cases h
  · cases h
  · cases h

/-- Where the thread takes no step, it has stopped, or there is nothing for it to do. -/
theorem advance_none (h : s.advance interval = none) :
    s.stage.isCrashed = true ∨ s.stage.isOver = true ∨ s.stage = .receiving ∧ s.queue = [] := by
  unfold System.advance at h
  split at h
  · rename_i hstage
    split at h
    · cases h
    · rename_i hqueue
      exact .inr (.inr ⟨hstage, hqueue⟩)
  · split at h
    · split at h <;> cases h
    · cases h
  · cases h
  · cases h
  · rename_i hstage
    exact .inr (.inl (by rw [hstage]; rfl))
  · rename_i hstage
    exact .inr (.inl (by rw [hstage]; rfl))
  · rename_i hstage
    exact .inl (by rw [hstage]; rfl)

/-- Left to itself the thread comes to where it takes no step, unless the process stops before. -/
theorem exists_rest (interval : ℕ) (s : System) : ∃ actions s', (∀ a ∈ actions, a = .advance) ∧
    actions.length ≤ s.work ∧ s.performs interval actions = some (s', []) ∧
    s'.places = s.places ∧ (s'.stage.isCrashed = true ∨ s'.advance interval = none) := by
  induction hwork : s.work using Nat.strong_induction_on generalizing s with
  | h n ih =>
  subst hwork
  by_cases hcrashed : s.stage.isCrashed = true
  · exact ⟨[], s, fun _ ha => absurd ha List.not_mem_nil, Nat.zero_le _, rfl, rfl, .inl hcrashed⟩
  · cases hadvance : s.advance interval with
    | none =>
      exact ⟨[], s, fun _ ha => absurd ha List.not_mem_nil, Nat.zero_le _, rfl, rfl, .inr hadvance⟩
    | some s₁ =>
      obtain ⟨hless, hplaces⟩ := advance_work hadvance
      obtain ⟨actions, s', hall, hlength, hruns, hsame, hrest⟩ := ih s₁.work hless s₁ rfl
      have hfirst : s.perform interval .advance = some (s₁, none) := by
        rw [perform_advance (Bool.eq_false_iff.mpr hcrashed), hadvance, Option.map_some]
      refine ⟨.advance :: actions, s', List.forall_mem_cons.mpr ⟨rfl, hall⟩, ?_,
        performs_append (performs_singleton hfirst) hruns, hsame.trans hplaces, hrest⟩
      rw [List.length_cons]
      omega

/-! ## The queue -/

omit [Crc32] in
theorem System.Bounded.after (h : s.Bounded) (stage : Stage) (hstage : stage.isOver = false)
    (p : Prog Thread Error Unit) : (s.after stage p).Bounded := by
  unfold System.after
  split
  · exact ⟨h.depth, fun hover => absurd (hstage.symm.trans hover) Bool.false_ne_true⟩
  · exact ⟨h.depth, nofun⟩
  · exact ⟨Nat.zero_le _, fun _ => rfl⟩

theorem System.Bounded.advance (h : s.Bounded) (hadvance : s.advance interval = some s') :
    s'.Bounded := by
  have htaking : ∀ {pending : Pending} {message : Message} {rest : List Message},
      s.queue = message :: rest → (s.taking pending message rest).Bounded := by
    intro pending message rest hqueue
    have hdepth := h.depth
    rw [hqueue, List.length_cons] at hdepth
    exact ⟨Nat.le_of_succ_le hdepth, nofun⟩
  unfold System.advance at hadvance
  split at hadvance
  · split at hadvance
    · rename_i hqueue
      cases hadvance
      exact htaking hqueue
    · rename_i hqueue
      split at hadvance
      · cases hadvance
        exact ⟨h.depth, fun _ => hqueue⟩
      · cases hadvance
  · split at hadvance
    · split at hadvance
      · rename_i hqueue
        cases hadvance
        exact htaking hqueue
      · cases hadvance
        exact ⟨h.depth, nofun⟩
    · cases hadvance
      exact ⟨h.depth, nofun⟩
  · cases hadvance
    exact h.after _ rfl _
  · cases hadvance
    exact h.after _ rfl _
  · cases hadvance
  · cases hadvance
  · cases hadvance

/-- No party makes the queue longer than it may be, or puts anything in one that is gone. -/
theorem System.Bounded.perform (h : s.Bounded) {action : Action} {mark : Option (Mark Ask Outcome)}
    (ran : s.perform interval action = some (s', mark)) : s'.Bounded := by
  unfold System.perform at ran
  split at ran
  · cases ran
  cases action with
  | call id ask =>
    dsimp only at ran
    split at ran <;> cases ran
    exact ⟨h.depth, h.dropped⟩
  | send id =>
    dsimp only at ran
    split at ran
    · split at ran
      · cases ran
        exact ⟨h.depth, h.dropped⟩
      · rename_i hopen
        split at ran <;> cases ran
        rename_i hroom
        refine ⟨?_, fun hover => absurd ?_ hopen⟩
        · show (s.queue ++ [_]).length ≤ queueDepth
          rw [List.length_append, List.length_singleton]
          exact hroom
        · rw [Bool.or_eq_true]
          exact .inr hover
    · cases ran
  | read id calls =>
    dsimp only at ran
    split at ran
    · cases ran
      unfold System.read
      split
      · exact ⟨h.depth, nofun⟩
      · exact ⟨h.depth, h.dropped⟩
    · cases ran
  | ret id =>
    dsimp only at ran
    split at ran
    · cases ran
      exact ⟨h.depth, h.dropped⟩
    · split at ran
      · cases ran
        exact ⟨h.depth, h.dropped⟩
      · split at ran <;> cases ran
        exact ⟨h.depth, h.dropped⟩
    · cases ran
  | drop id =>
    dsimp only at ran
    split at ran <;> cases ran
    · exact ⟨h.depth, h.dropped⟩
    · exact ⟨h.depth, h.dropped⟩
  | shutdown =>
    dsimp only at ran
    split at ran <;> cases ran
    exact ⟨h.depth, h.dropped⟩
  | join =>
    dsimp only at ran
    split at ran
    · split at ran <;> cases ran
      exact ⟨h.depth, h.dropped⟩
    · cases ran
  | advance =>
    obtain ⟨s₁, hadvance, heq⟩ := Option.map_eq_some_iff.mp ran
    cases heq
    exact h.advance hadvance

omit [Crc32] in
theorem bounded_start (w : Writer) (spawned : Bool) : (System.start w spawned).Bounded :=
  ⟨Nat.zero_le _, fun _ => rfl⟩

theorem Interleaving.bounded (h : Interleaving interval s₀ history s) (hstart : s₀.Bounded) :
    s.Bounded := by
  induction h with
  | start => exact hstart
  | performed action before ran ih => exact ih.perform ran

/-! ## Every call returns -/

theorem System.Bounded.performs (h : s.Bounded) {actions : List Action}
    {marks : List (Mark Ask Outcome)} (hruns : s.performs interval actions = some (s', marks)) :
    s'.Bounded := by
  have hran : Interleaving interval s [] s := .start
  exact (hran.performs hruns).bounded h

/-- Where the thread takes no step its queue is empty, and it answers nobody later. -/
theorem System.Bounded.idle (h : s.Bounded) (hcrashed : s.stage.isCrashed = false)
    (hrest : s.advance interval = none) :
    s.queue = [] ∧ s.stage.steps ≤ 1 ∧ ∀ id, s.held id = false := by
  have hempty : s.queue = [] ∧ s.stage.messages = [] ∧ s.stage.steps ≤ 1 := by
    rcases advance_none hrest with hstop | hover | ⟨hreceiving, hqueue⟩
    · exact absurd (hcrashed.symm.trans hstop) Bool.false_ne_true
    · refine ⟨h.dropped hover, ?_⟩
      cases hstage : s.stage with
      | finished => exact ⟨rfl, Nat.zero_le _⟩
      | dead => exact ⟨rfl, Nat.zero_le _⟩
      | receiving | draining | collected | retired | crashed =>
        rw [hstage] at hover
        cases hover
    · rw [hreceiving]
      exact ⟨hqueue, rfl, Nat.le_refl _⟩
  refine ⟨hempty.1, hempty.2.2, fun id => Bool.eq_false_iff.mpr fun hheld => ?_⟩
  obtain ⟨m, hm, -⟩ := System.held_iff.mp hheld
  rw [System.inFlight, hempty.1, hempty.2.1] at hm
  exact absurd hm List.not_mem_nil

variable {id : ℕ}

/-- A call that was told something returns. -/
theorem performs_ret_told {outcome : Outcome} (hcrashed : s.stage.isCrashed = false)
    (hplace : s.places id = some (.told outcome)) :
    ∃ s', s.performs interval [.ret id] = some (s', [.returned id outcome]) := by
  have hret : s.perform interval (.ret id) = some (s.giving id outcome) := by
    rw [System.perform, if_neg (by rw [hcrashed]; exact Bool.false_ne_true), hplace]
  exact ⟨(s.giving id outcome).1, performs_singleton hret⟩

/-- A call that awaits its answer returns where the thread is at rest. -/
theorem System.Bounded.performs_ret (h : s.Bounded) {message : Message}
    (hcrashed : s.stage.isCrashed = false) (hrest : s.advance interval = none)
    (hplace : s.places id = some (.awaiting message)) :
    ∃ s' outcome, s.performs interval [.ret id] = some (s', [.returned id outcome]) := by
  obtain ⟨-, -, hheld⟩ := h.idle hcrashed hrest
  let outcome := (message.answer s.thread.deeds).getD message.refused
  have hret : s.perform interval (.ret id) = some (s.giving id outcome) := by
    rw [System.perform, if_neg (by rw [hcrashed]; exact Bool.false_ne_true), hplace]
    dsimp only [outcome]
    cases message.answer s.thread.deeds with
    | some outcome => rfl
    | none =>
      dsimp only
      rw [if_neg (by rw [hheld]; exact Bool.false_ne_true)]
      rfl
  exact ⟨(s.giving id outcome).1, outcome, performs_singleton hret⟩

/-- What brings a call to its end. -/
def Ended (interval id : ℕ) (calls : List Storage.Reply) (s : System) (bound : ℕ) : Prop :=
  ∃ actions s' marks, (∀ a ∈ actions, Action.Serves id calls a) ∧ actions.length ≤ bound ∧
    s.performs interval actions = some (s', marks) ∧
    (s'.stage.isCrashed = true ∨ ∃ outcome, .returned id outcome ∈ marks)

/-- Steps that come first. -/
theorem Ended.first {calls : List Storage.Reply} (bound : ℕ) {bound' : ℕ} {actions : List Action}
    (hall : ∀ a ∈ actions, Action.Serves id calls a)
    (hruns : s.performs interval actions = some (s', marks))
    (hlength : actions.length + bound ≤ bound') (h : Ended interval id calls s' bound) :
    Ended interval id calls s bound' := by
  obtain ⟨rest, s'', marks', hall', hlength', hruns', hended⟩ := h
  refine ⟨actions ++ rest, s'', marks ++ marks', ?_, ?_, performs_append hruns hruns', ?_⟩
  · exact fun a ha => (List.mem_append.mp ha).elim (hall a) (hall' a)
  · rw [List.length_append]
    omega
  · exact hended.imp_right fun ⟨outcome, hmem⟩ => ⟨outcome, List.mem_append_right _ hmem⟩

theorem Ended.mono {calls : List Storage.Reply} {bound bound' : ℕ}
    (h : Ended interval id calls s bound) (hle : bound ≤ bound') :
    Ended interval id calls s bound' := by
  obtain ⟨actions, s', marks, hall, hlength, hrest⟩ := h
  exact ⟨actions, s', marks, hall, Nat.le_trans hlength hle, hrest⟩

theorem ended_of_crashed {calls : List Storage.Reply} (h : s.stage.isCrashed = true) :
    Ended interval id calls s 0 :=
  ⟨[], s, [], fun _ ha => absurd ha List.not_mem_nil, Nat.le_refl _, rfl, .inl h⟩

theorem ended_of_told {calls : List Storage.Reply} {outcome : Outcome}
    (hplace : s.places id = some (.told outcome)) : Ended interval id calls s 1 := by
  by_cases hcrashed : s.stage.isCrashed = true
  · exact (ended_of_crashed hcrashed).mono (Nat.zero_le _)
  · obtain ⟨s', hret⟩ := performs_ret_told (Bool.eq_false_iff.mpr hcrashed) hplace
    exact ⟨_, s', _, by simp [Action.Serves.ret], Nat.le_refl _, hret, .inr ⟨outcome, by simp⟩⟩

/-- Left to itself the thread brings a call to its end that awaits its answer. -/
theorem System.Bounded.ended_of_awaiting (h : s.Bounded) {calls : List Storage.Reply}
    {message : Message} (hplace : s.places id = some (.awaiting message)) :
    Ended interval id calls s (s.work + 1) := by
  obtain ⟨actions, s', hall, hlength, hruns, hplaces, hrest⟩ := exists_rest interval s
  have hserves : ∀ a ∈ actions, Action.Serves id calls a := fun a ha => hall a ha ▸ .advance
  have hbounded := h.performs hruns
  by_cases hcrashed : s'.stage.isCrashed = true
  · exact (ended_of_crashed hcrashed).first 0 hserves hruns (by omega)
  · obtain ⟨s'', outcome, hret⟩ := hbounded.performs_ret (Bool.eq_false_iff.mpr hcrashed)
      (hrest.resolve_left hcrashed) (hplaces ▸ hplace)
    refine Ended.first 1 hserves hruns (by omega)
      ⟨_, s'', _, ?_, Nat.le_refl _, hret, .inr ⟨outcome, List.mem_singleton_self _⟩⟩
    exact List.forall_mem_singleton.mpr .ret

/-- Once the thread is at rest there is room for a message. -/
theorem System.Bounded.ended_of_sending (h : s.Bounded) {calls : List Storage.Reply}
    {message : Message} (hplace : s.places id = some (.sending message)) :
    Ended interval id calls s (s.work + 7) := by
  obtain ⟨actions, s', hall, hlength, hruns, hplaces, hrest⟩ := exists_rest interval s
  have hserves : ∀ a ∈ actions, Action.Serves id calls a := fun a ha => hall a ha ▸ .advance
  have hbounded := h.performs hruns
  by_cases hcrashed : s'.stage.isCrashed = true
  · exact (ended_of_crashed hcrashed).first 0 hserves hruns (by omega)
  · have hlive := Bool.eq_false_iff.mpr hcrashed
    obtain ⟨hqueue, hsteps, -⟩ := hbounded.idle hlive (hrest.resolve_left hcrashed)
    have hone : ∀ a ∈ [Action.send id], Action.Serves id calls a :=
      List.forall_mem_singleton.mpr .send
    refine Ended.first 7 hserves hruns (by omega) ?_
    have hsend : s'.perform interval (.send id) =
        if s'.closed || s'.stage.isOver then some (s'.setPlace id (.told message.refused), none)
        else some ({ s' with queue := s'.queue ++ [message] }.setPlace id (.awaiting message),
          none) := by
      rw [System.perform, if_neg (by rw [hlive]; exact Bool.false_ne_true), hplaces, hplace]
      dsimp only
      rw [hqueue, if_pos (c := [].length < queueDepth) (by decide)]
    by_cases hclosed : (s'.closed || s'.stage.isOver) = true
    · rw [if_pos hclosed] at hsend
      refine Ended.first 1 hone (performs_singleton hsend) ?_
        (ended_of_told (System.places_setPlace_self ..))
      rw [List.length_singleton]
      omega
    · rw [if_neg hclosed] at hsend
      have hsent : ({ s' with queue := s'.queue ++ [message] }.setPlace id
          (.awaiting message)).Bounded := hbounded.perform hsend
      refine Ended.first _ hone (performs_singleton hsend) ?_
        (hsent.ended_of_awaiting (System.places_setPlace_self ..))
      -- the queue holds the message alone
      have hwork : ({ s' with queue := s'.queue ++ [message] }.setPlace id
          (.awaiting message)).work ≤ 5 := by
        show 4 * (s'.queue ++ [message]).length + s'.stage.steps ≤ 5
        rw [hqueue, List.nil_append, List.length_singleton]
        omega
      rw [List.length_singleton]
      omega

/-- Every call can be brought to its return by steps of the thread and its own, with none of the
other callers, in a number of steps that the depth of the queue bounds, unless the process stops
before. So wherever they are, no call depends on a step of another one.
SOURCE: crates/wal/src/writer.rs:18-23, 81-172 -/
theorem every_call_can_return {w : Writer} {spawned : Bool} {place : Place}
    (h : Interleaving interval (System.start w spawned) history s)
    (hplace : s.places id = some place) (hlive : place.isLive = true)
    (calls : List Storage.Reply) :
    ∃ actions s' marks, (∀ a ∈ actions, Action.Serves id calls a) ∧
      actions.length ≤ 4 * queueDepth + 11 ∧ s.performs interval actions = some (s', marks) ∧
      (s'.stage.isCrashed = true ∨ ∃ outcome, .returned id outcome ∈ marks) := by
  have hbounded := h.bounded (bounded_start w spawned)
  have hwork : s.work ≤ 4 * queueDepth + 4 := by
    have hsteps : s.stage.steps ≤ 4 := by cases s.stage <;> simp [Stage.steps]
    have hdepth := hbounded.depth
    rw [System.work]
    omega
  suffices hended : Ended interval id calls s (4 * queueDepth + 11) from hended
  cases place with
  | sending message => exact (hbounded.ended_of_sending hplace).mono (by omega)
  | awaiting message => exact (hbounded.ended_of_awaiting hplace).mono (by omega)
  | told outcome => exact (ended_of_told hplace).mono (by omega)
  | reading bounds at_ limit =>
    by_cases hcrashed : s.stage.isCrashed = true
    · exact (ended_of_crashed hcrashed).mono (Nat.zero_le _)
    · have hread : s.perform interval (.read id calls) =
          some (s.read id bounds at_ limit calls, none) := by
        rw [System.perform, if_neg hcrashed, hplace]
      have hone : ∀ a ∈ [Action.read id calls], Action.Serves id calls a :=
        List.forall_mem_singleton.mpr .read
      refine Ended.first 1 hone (performs_singleton hread)
        (by rw [List.length_singleton]; omega) ?_
      unfold System.read
      split
      · exact (ended_of_crashed rfl).mono (Nat.zero_le _)
      · exact ended_of_told (System.places_setPlace_self ..)
  | returned => cases hlive
  | dropped => cases hlive

/-! ## Two writers, one of which never comes back -/

/-- A write that was sent and is not looked at again, and another one that is still to be sent. -/
def abandonedWrite : List Action :=
  [.call 0 (.write [.put [107] [1]]), .send 0, .call 1 (.write [.put [108] [2]]), .advance]

omit [Crc32] in
theorem every_call_can_return_abandoned : ∃ history s place, @Interleaving crc32fast 1
      (System.start freshWriter true) history s ∧ s.places 1 = some place ∧
    ∃ actions s' marks, (∀ a ∈ actions, Action.Serves 1 [] a) ∧
      actions.length ≤ 4 * queueDepth + 11 ∧
      @System.performs crc32fast 1 s actions = some (s', marks) ∧
      (s'.stage.isCrashed = true ∨ ∃ outcome, .returned 1 outcome ∈ marks) := by
  have hruns : ((@System.performs crc32fast 1 (System.start freshWriter true)
      abandonedWrite).bind fun r => (r.1.places 1).map Place.isLive) = some true := by decide +kernel
  obtain ⟨⟨s, history⟩, hperforms, hend⟩ := Option.bind_eq_some_iff.mp hruns
  obtain ⟨place, hplace, hlive⟩ := Option.map_eq_some_iff.mp hend
  have hran := @Interleaving.performs crc32fast _ _ _ [] _ (@Interleaving.start crc32fast 1 _) _ _
    hperforms
  exact ⟨history, s, place, hran, hplace,
    @every_call_can_return crc32fast _ _ _ _ _ _ _ hran hplace hlive []⟩

end Hadar.Wal
