import Hadar.Analysis.Transactions
import Hadar.Interface.Gate

/-!
# The gate lets one client through at a time, and loses no wakeup

Taken lock by lock, the gate does for its clients what it does when each of its calls is one step:
every run of the engine with it is one of the engine without, in which a call of `acquire` takes
place where the flag is put up and a call of `finish` where it is put down. And it does not forget
a client: while the flag is down and somebody waits for it, somebody gets through in a bounded
number of steps, in whatever order these are taken.
-/

set_option autoImplicit false

namespace Hadar.Mem

open Hadar.Lib Hadar.Storage

namespace Gated

variable {g g' : Gated} {event : Event}

/-! ## Steps elsewhere -/

/-- What a step leaves that has nothing to do with the gate: the flag, who has finished, and the
transactions that are not its own. -/
structure Elsewhere (s : System) (id : Option ℕ) (s' : System) : Prop where
  held : s'.shared.held = s.shared.held
  unfinished : ∀ j, s'.Unfinished j ↔ s.Unfinished j
  writes : ∀ j, id ≠ some j ∨ s.writes j = none → s'.writes j = s.writes j

theorem elsewhere_setWrite {s : System} {id : ℕ} {stage stage' : Stage} {shared : Shared}
    (hat : s.writes id = some stage) (hheld : shared.held = s.shared.held)
    (hsame : stage'.Unfinished ↔ stage.Unfinished) :
    Elsewhere s (some id) ({ s with shared := shared }.setWrite id stage') := by
  refine ⟨hheld, fun j => ?_, fun j hj => ?_⟩
  · rw [unfinished_setWrite]
    by_cases hid : j = id
    · subst hid
      rw [if_pos rfl, hsame]
      simp [System.Unfinished, hat]
    · rw [if_neg hid]
      exact Iff.rfl
  · refine Function.update_of_ne ?_ ..
    rintro rfl
    rcases hj with hj | hj
    · exact hj rfl
    · rw [hat] at hj
      cases hj

/-- A call of `finish` that releases nothing. -/
theorem elsewhere_finishing {s : System} {id : ℕ} {txn : MemWrite} {stage : Stage}
    {next : MemWrite → Stage} (hat : s.writes id = some stage)
    (hstage : stage.Unfinished ↔ txn.finished = false) (hnext : ∀ t : MemWrite, t.finished = true →
      ¬ (next t).Unfinished) (hfinished : (s.finishing id txn next).2 ≠ .finished true) :
    Elsewhere s (some id) (s.finishing id txn next).1 := by
  cases htxn : txn.finished with
  | false => exact absurd (by simp [System.finishing, MemWrite.finish, htxn]) hfinished
  | true =>
    have hfinish : (s.finishing id txn next).1 = { s with shared := s.shared }.setWrite id (next txn) := by
      simp [System.finishing, MemWrite.finish, htxn]
    rw [hfinish]
    exact elsewhere_setWrite hat rfl (iff_of_false (hnext txn htxn) (by simp [hstage, htxn]))

/-- A step that neither takes nor releases the gate. -/
theorem perform_elsewhere {s s' : System} {action : Action} {answer : Answer}
    (ran : s.perform action = some (s', answer)) (hacquires : action.acquires = false)
    (hfinished : answer ≠ .finished true) : Elsewhere s action.writer s' := by
  have hreads : ∀ reads, Elsewhere s none { s with reads := reads } := fun reads =>
    ⟨rfl, fun _ => Iff.rfl, fun _ _ => rfl⟩
  have hsame : ∀ id, Elsewhere s id s := fun id => ⟨rfl, fun _ => Iff.rfl, fun _ _ => rfl⟩
  cases action with
  | acquire id => cases hacquires
  | beginRead id =>
    simp only [System.perform] at ran
    split at ran <;> cases ran
    exact hreads _
  | dropRead id =>
    simp only [System.perform] at ran
    split at ran <;> cases ran
    exact hreads _
  | readGet id key | readRange id bounds limit | get id key | range id bounds limit =>
    simp only [System.perform] at ran
    split at ran <;> cases ran
    exact hsame _
  | copy id =>
    simp only [System.perform] at ran
    split at ran <;> cases ran
    rename_i hat
    exact elsewhere_setWrite hat rfl (by simp [Stage.Unfinished, MemEngine.copy])
  | insert id key value | remove id key | replace id =>
    simp only [System.perform] at ran
    split at ran <;> cases ran
    rename_i txn hat
    exact elsewhere_setWrite hat rfl Iff.rfl
  | finish id | abort id =>
    simp only [System.perform] at ran
    split at ran
    · rename_i txn hat
      have hran := Option.some.inj ran
      rw [Prod.ext_iff] at hran
      obtain ⟨rfl, rfl⟩ := hran
      exact elsewhere_finishing hat Iff.rfl (fun t ht => by simp [Stage.Unfinished, ht]) hfinished
    · cases ran
  | drop id =>
    simp only [System.perform] at ran
    split at ran
    · rename_i txn hat
      have hran := Option.some.inj ran
      rw [Prod.ext_iff] at hran
      obtain ⟨rfl, rfl⟩ := hran
      exact elsewhere_finishing hat Iff.rfl (fun _ _ h => h) hfinished
    · rename_i txn hat
      have hran := Option.some.inj ran
      rw [Prod.ext_iff] at hran
      obtain ⟨rfl, rfl⟩ := hran
      exact elsewhere_finishing hat Iff.rfl (fun _ _ h => h) hfinished
    · cases ran

/-! ## What each step keeps -/

/-- What a step can be. -/
inductive Stepped (g : Gated) : Event → Gated → Prop where
  | gate {event : Monitor.Event ℕ} {gate : Monitor.State Bool ℕ} (admitted : g.admits event = true)
    (ran : Gate.monitor.perform g.gate event = some gate) :
    Stepped g (.gate event) { g with gate }
  | acquired {id : ℕ} {gate : Monitor.State Bool ℕ}
    (ran : Gate.monitor.perform g.gate (.enter id) = some gate) :
    Stepped g (.acquired id)
      { g with gate, writes := Function.update g.writes id (some .entered) }
  | released {id : ℕ} {action : Action} {stage stage' : Stage} {gate : Monitor.State Bool ℕ}
    (writer : action.writer = some id) (hat : g.writes id = some stage)
    (finished : stage.finishedBy action = some stage')
    (ran : Gate.monitor.perform g.gate (.clear id) = some gate) :
    Stepped g (.released id action)
      { g with gate, writes := Function.update g.writes id (some stage') }
  | act {action : Action} {s : System} {answer : Answer} (acquires : action.acquires = false)
    (away : action.writer.all g.away = true) (ran : g.whole.perform action = some (s, answer))
    (finished : answer ≠ .finished true) :
    Stepped g (.act action)
      { g with committed := s.shared.committed, reads := s.reads, writes := s.writes }

theorem stepped (ran : g.perform event = some g') : Stepped g event g' := by
  cases event with
  | gate event =>
    obtain ⟨hadmits, hmap⟩ := Option.ite_none_right_eq_some.mp ran
    obtain ⟨gate, hgate, rfl⟩ := Option.map_eq_some_iff.mp hmap
    exact .gate hadmits hgate
  | acquired id =>
    obtain ⟨gate, hgate, rfl⟩ := Option.map_eq_some_iff.mp ran
    exact .acquired hgate
  | released id action =>
    obtain ⟨hwriter, hmatch⟩ := Option.ite_none_right_eq_some.mp ran
    split at hmatch
    · cases hmatch
    · rename_i stage' hstage
      obtain ⟨stage, hat, hfinished⟩ := Option.bind_eq_some_iff.mp hstage
      obtain ⟨gate, hgate, rfl⟩ := Option.map_eq_some_iff.mp hmatch
      exact .released hwriter hat hfinished hgate
  | act action =>
    obtain ⟨hguard, hmatch⟩ := Option.ite_none_right_eq_some.mp ran
    obtain ⟨hacquires, haway⟩ := Bool.and_eq_true_iff.mp hguard
    split at hmatch
    · cases hmatch
    · cases hmatch
    · rename_i s answer hnot hran
      cases hmatch
      exact .act (by simpa using hacquires) haway hran hnot

/-- Where a client is at the gate goes with how far its transaction is. -/
structure Sound (g : Gated) : Prop where
  gate : Gate.monitor.Sound g.gate
  absent : ∀ id, (g.gate.pc id).wants = true → g.writes id = none
  owns : ∀ id, (g.gate.pc id).owns = true ↔ g.whole.Unfinished id
  leaves : ∀ id, g.gate.pc id = .leaving ∨ g.gate.pc id = .clearing →
    ∃ stage, g.writes id = some stage ∧ stage.finishable = true

theorem sound_new : Sound new := by
  refine ⟨Monitor.sound_start false rfl, fun id hid => ?_, fun id => ?_, fun id hid => ?_⟩
  · cases hid
  · exact iff_of_false Bool.false_ne_true fun ⟨stage, hstage, _⟩ => nomatch hstage
  · rcases hid with hid | hid <;> cases hid

/-- The transaction of one client changes with where it is at the gate. -/
theorem unfinished_update {writes : ℕ → Option Stage} {shared : Shared}
    {reads : ℕ → Option MemRead} {id : ℕ} {stage : Stage} (j : ℕ) :
    (⟨shared, reads, Function.update writes id (some stage)⟩ : System).Unfinished j ↔
      if j = id then stage.Unfinished
      else (⟨shared, reads, writes⟩ : System).Unfinished j :=
  unfinished_setWrite (s := ⟨shared, reads, writes⟩)

theorem not_unfinished_finishedBy {stage stage' : Stage} {action : Action}
    (h : stage.finishedBy action = some stage') : ¬ stage'.Unfinished := by
  unfold Stage.finishedBy at h
  split at h <;> cases h <;> simp [Stage.Unfinished]

theorem Sound.perform (h : Sound g) (ran : g.perform event = some g') : Sound g' := by
  cases stepped ran with
  | @gate event gate hadmitted hgate =>
    have hedge := h.gate.edge hgate
    have henter : ∀ i, event ≠ .enter i := by
      rintro i rfl
      cases hadmitted
    have hclear : ∀ i, event ≠ .clear i := by
      rintro i rfl
      cases hadmitted
    refine ⟨h.gate.perform hgate, fun id hid => ?_, fun id => ?_, fun id hid => ?_⟩
    · rcases hedge id with hsame | hmoved
      · exact h.absent id (hsame ▸ hid)
      · rcases hmoved.wants hid with hbefore | rfl
        · exact h.absent id hbefore
        · exact Option.isNone_iff_eq_none.mp hadmitted
    · refine Iff.trans ?_ (h.owns id)
      rcases hedge id with hsame | hmoved
      · rw [hsame]
      · rw [hmoved.owns henter hclear]
    · rcases hedge id with hsame | hmoved
      · exact h.leaves id (hsame ▸ hid)
      · rcases hmoved.leaves hid with hbefore | rfl
        · exact h.leaves id (.inl hbefore)
        · have hany : (g.writes id).any Stage.finishable = true := hadmitted
          cases hat : g.writes id with
          | none =>
            rw [hat] at hany
            cases hany
          | some stage =>
            rw [hat] at hany
            exact ⟨stage, rfl, hany⟩
  | @acquired id gate hgate =>
    cases Monitor.stepped hgate with
    | enter hpc hready =>
      refine ⟨h.gate.perform hgate, fun j => ?_, fun j => ?_, fun j => ?_⟩
      · refine Monitor.forall_update (P := fun j pc => pc.wants = true →
          Function.update g.writes id (some .entered) j = none) (fun hwants => by cases hwants)
          (fun j hj hwants => ?_) j
        rw [Function.update_of_ne hj]
        exact h.absent j hwants
      · refine Monitor.forall_update (P := fun j pc => pc.owns = true ↔
          (⟨⟨g.committed, true⟩, g.reads, Function.update g.writes id (some .entered)⟩ :
            System).Unfinished j) ?_ (fun j hj => ?_) j
        · exact iff_of_true rfl ((unfinished_update id).mpr (by rw [if_pos rfl]; trivial))
        · rw [unfinished_update, if_neg hj]
          exact h.owns j
      · refine Monitor.forall_update (P := fun j pc => pc = .leaving ∨ pc = .clearing →
          ∃ stage, Function.update g.writes id (some .entered) j = some stage ∧
            stage.finishable = true) (fun hpc => by rcases hpc with hpc | hpc <;> cases hpc)
          (fun j hj hleaves => ?_) j
        rw [Function.update_of_ne hj]
        exact h.leaves j hleaves
  | @released id action stage stage' gate hwriter hat hfinished hgate =>
    cases Monitor.stepped hgate with
    | clear hpc =>
      refine ⟨h.gate.perform hgate, fun j => ?_, fun j => ?_, fun j => ?_⟩
      · refine Monitor.forall_update (P := fun j pc => pc.wants = true →
          Function.update g.writes id (some stage') j = none) (fun hwants => by cases hwants)
          (fun j hj hwants => ?_) j
        rw [Function.update_of_ne hj]
        exact h.absent j hwants
      · refine Monitor.forall_update (P := fun j pc => pc.owns = true ↔
          (⟨⟨g.committed, false⟩, g.reads, Function.update g.writes id (some stage')⟩ :
            System).Unfinished j) ?_ (fun j hj => ?_) j
        · refine iff_of_false nofun fun hunfinished => ?_
          rw [unfinished_update, if_pos rfl] at hunfinished
          exact not_unfinished_finishedBy hfinished hunfinished
        · rw [unfinished_update, if_neg hj]
          exact h.owns j
      · refine Monitor.forall_update (P := fun j pc => pc = .leaving ∨ pc = .clearing →
          ∃ stage, Function.update g.writes id (some stage') j = some stage ∧
            stage.finishable = true) (fun hpc => by rcases hpc with hpc | hpc <;> cases hpc)
          (fun j hj hleaves => ?_) j
        rw [Function.update_of_ne hj]
        exact h.leaves j hleaves
  | @act action s answer hacquires haway hran hfinished =>
    obtain ⟨-, hunfinished, hwrites⟩ := perform_elsewhere hran hacquires hfinished
    refine ⟨h.gate, fun id hid => ?_, fun id => ?_, fun id hid => ?_⟩
    · exact (hwrites id (.inr (h.absent id hid))).trans (h.absent id hid)
    · exact (h.owns id).trans (hunfinished id).symm
    · -- whoever is at the gate takes no other step
      obtain ⟨stage, hat, hfinishable⟩ := h.leaves id hid
      refine ⟨stage, (hwrites id (.inl fun hwriter => ?_)).trans hat, hfinishable⟩
      have hat' : (g.gate.pc id == .outside || g.gate.pc id == .inside) = true := by
        rwa [hwriter] at haway
      have hid' : g.gate.pc id = .leaving ∨ g.gate.pc id = .clearing := hid
      rcases hid' with hpc | hpc <;> rw [hpc] at hat' <;> cases hat'

/-- Wherever the clients have come to. -/
theorem Reachable.sound (h : Reachable g) : Sound g := by
  induction h with
  | start => exact sound_new
  | performed event before ran ih => exact ih.perform ran

theorem Reachable.performs (h : Reachable g) {events : List Event}
    (ran : g.performs events = some g') : Reachable g' := by
  induction events generalizing g with
  | nil =>
    cases ran
    exact h
  | cons event rest ih =>
    rw [Gated.performs] at ran
    split at ran
    · cases ran
    · rename_i g₁ hran
      exact ih (h.performed event hran) ran

/-! ## Each call of the gate as one step -/

/-- A step is the one of the engine whose gate takes one for each call, if it is any. -/
def Refines (g : Gated) (event : Event) (g' : Gated) : Prop :=
  match event.action with
  | none => g'.whole = g.whole
  | some action => ∃ answer, g.whole.perform action = some (g'.whole, answer)

theorem Sound.refines (h : Sound g) (ran : g.perform event = some g') : Refines g event g' := by
  cases stepped ran with
  | @gate event gate hadmitted hgate =>
    have hdata : gate.data = g.gate.data := Monitor.data_of_perform hgate
      (by rintro i rfl; cases hadmitted) (by rintro i rfl; cases hadmitted)
    show whole _ = whole _
    rw [whole, whole, hdata]
  | @acquired id gate hgate =>
    cases Monitor.stepped hgate with
    | enter hpc hready =>
      refine ⟨.nothing, ?_⟩
      have hfree : g.gate.data = false := by simpa [Gate.monitor] using hready
      have habsent := h.absent id (by rw [hpc]; rfl)
      simp [System.perform, whole, Gate.acquire, hfree, habsent, System.setWrite, Gate.monitor,
        Monitor.State.go]
  | @released id action stage stage' gate hwriter hat hfinished hgate =>
    cases Monitor.stepped hgate with
    | clear hpc =>
      obtain ⟨stage₁, hat₁, hfinishable⟩ := h.leaves id (.inr hpc)
      obtain rfl : stage = stage₁ := Option.some.inj (hat.symm.trans hat₁)
      refine ⟨.finished true, ?_⟩
      unfold Stage.finishedBy at hfinished
      split at hfinished <;> cases hfinished <;> cases hwriter <;>
        simp_all [System.perform, whole, System.finishing, MemWrite.finish, Stage.finishable,
          Gate.release, Gate.monitor, System.setWrite, Monitor.State.go]
  | @act action s answer hacquires haway hran hfinished =>
    obtain ⟨hheld, -, -⟩ := perform_elsewhere hran hacquires hfinished
    refine ⟨answer, hran.trans ?_⟩
    obtain ⟨⟨committed, held⟩, reads, writes⟩ := s
    obtain rfl : held = g.gate.data := hheld
    rfl

/-- The engine has come where its clients, with a gate that takes one step for each call, can bring
it. -/
theorem Reachable.interleaving (h : Reachable g) : ∃ l, Interleaving g.whole l := by
  induction h with
  | start => exact ⟨_, .start⟩
  | @performed g g' event before ran ih =>
    obtain ⟨l, hl⟩ := ih
    have hrefines := before.sound.refines ran
    unfold Refines at hrefines
    split at hrefines
    · exact ⟨l, hrefines ▸ hl⟩
    · obtain ⟨answer, hstep⟩ := hrefines
      exact ⟨_, .step _ hl hstep⟩

/-- **Lock by lock, the gate is a gate.** Wherever the clients can come to, the engine is where a
gate that takes one step for each call could have brought it, each step being one of that engine or
none; one client at most is past the gate, and it is the one whose transaction has not finished. -/
theorem gate_refines (h : Reachable g) :
    (∃ l, Interleaving g.whole l) ∧
      (∀ event g', g.perform event = some g' → Refines g event g') ∧
      (∀ i j, (g.gate.pc i).owns = true → (g.gate.pc j).owns = true → i = j) ∧
      ∀ id, (g.gate.pc id).owns = true ↔ g.whole.Unfinished id :=
  ⟨h.interleaving, fun _ _ ran => h.sound.refines ran, h.sound.gate.owners.exclusive, h.sound.owns⟩

/-- The second client finds the flag up and waits; the first commits, and is about to notify. -/
def handover : List Event :=
  [.gate (.call 0), .gate (.lock 0), .acquired 0, .act (.copy 0), .gate (.call 1), .gate (.lock 1),
    .gate (.park 1), .act (.insert 0 [1] [2]), .act (.replace 0), .gate (.leave 0), .gate (.lock 0),
    .released 0 (.finish 0)]

theorem handover_runs : ∃ g, new.performs handover = some g ∧ g.gate.data = false ∧
    g.gate.pc 0 = .notifying ∧ g.gate.pc 1 = .parked := by
  have hruns : ((new.performs handover).any fun g => g.gate.data == false &&
      g.gate.pc 0 == .notifying && g.gate.pc 1 == .parked) = true := by decide
  obtain ⟨g, hg, hat⟩ := (Option.any_eq_true _ _).mp hruns
  simp only [Bool.and_eq_true, beq_iff_eq] at hat
  exact ⟨g, hg, hat.1.1, hat.1.2, hat.2⟩

theorem gate_refines_handover : ∃ g, new.performs handover = some g ∧
    (∃ l, Interleaving g.whole l) ∧ ¬ g.whole.Unfinished 0 ∧ ¬ g.whole.Unfinished 1 := by
  obtain ⟨g, hg, -, hfirst, hsecond⟩ := handover_runs
  obtain ⟨hinterleaving, -, -, howns⟩ := gate_refines (Reachable.start.performs hg)
  refine ⟨g, hg, hinterleaving, fun hpast => ?_, fun hpast => ?_⟩
  · have hin := (howns 0).mpr hpast
    rw [hfirst] at hin
    cases hin
  · have hin := (howns 1).mpr hpast
    rw [hsecond] at hin
    cases hin

/-! ## Somebody gets through -/

theorem open_iff : Open g ↔ Gate.monitor.Open g.gate := by
  constructor
  · rintro ⟨hdown, hwanted⟩
    exact ⟨by simpa [Gate.monitor] using hdown, hwanted⟩
  · rintro ⟨hready, hwanted⟩
    exact ⟨by simpa [Gate.monitor] using hready, hwanted⟩

/-- What a step does to the gate. -/
theorem gate_of_perform (ran : g.perform event = some g') :
    match event.atGate with
    | none => g'.gate = g.gate
    | some event => Gate.monitor.perform g.gate event = some g'.gate := by
  cases stepped ran with
  | gate _ hgate => exact hgate
  | acquired hgate => exact hgate
  | released _ _ _ hgate => exact hgate
  | act => rfl

/-- What some steps do to the gate. -/
theorem gate_of_performs {events : List Event} (ran : g.performs events = some g') :
    Gate.monitor.performs g.gate (events.filterMap Event.atGate) = some g'.gate := by
  induction events generalizing g with
  | nil =>
    cases ran
    rfl
  | cons event rest ih =>
    rw [performs] at ran
    split at ran
    · cases ran
    · rename_i g₁ hran
      have hgate := gate_of_perform hran
      have hrest := ih ran
      cases hat : event.atGate with
      | none =>
        rw [hat] at hgate
        rwa [List.filterMap_cons_none hat, ← hgate]
      | some step =>
        rw [hat] at hgate
        rwa [List.filterMap_cons_some hat, Monitor.performs, hgate]

/-- Somebody can always take one. -/
theorem Sound.unblocked (h : Sound g) (hopen : Open g) :
    ∃ event g', g.perform event = some g' ∧ (event.settles = true ∨ event.passes = true) := by
  obtain ⟨event, gate, hgate, hkind⟩ := h.gate.unblocked (open_iff.mp hopen)
  cases event with
  | enter id =>
    exact ⟨.acquired id, { g with gate, writes := Function.update g.writes id (some .entered) }, by
      simp [Gated.perform, hgate], hkind⟩
  | lock id =>
    exact ⟨.gate (.lock id), { g with gate }, by simp [Gated.perform, admits, hgate], hkind⟩
  | notify id chosen =>
    exact ⟨.gate (.notify id chosen), { g with gate }, by
      simp [Gated.perform, admits, hgate], hkind⟩
  | call | park | wake | leave | clear => rcases hkind with hkind | hkind <;> cases hkind

/-- **The gate loses no wakeup.** Wherever the clients can come to, while the flag is down and
somebody is in `acquire`, there always is a client that can take the mutex, notify or get through;
and they do not take the mutex and notify more often than there are clients yet to notify, and once,
before one gets through, whoever comes and is woken for nothing meanwhile. -/
theorem gate_passes_on (h : Reachable g) (hopen : Open g) {events : List Event}
    (hpasses : ∀ event ∈ events, event.passes = false) (ran : g.performs events = some g') :
    events.countP Event.settles ≤ {id | g.gate.pc id = .notifying}.ncard + 1 ∧ Open g' ∧
      ∃ event g'', g'.perform event = some g'' ∧
        (event.settles = true ∨ event.passes = true) := by
  have hgate : ∀ event ∈ events.filterMap Event.atGate, event.enters = false := by
    intro event hevent
    obtain ⟨e, he, hat⟩ := List.mem_filterMap.mp hevent
    have hnot := hpasses e he
    rwa [Event.passes, hat] at hnot
  obtain ⟨hcount, hopen', -⟩ := h.sound.gate.passes (open_iff.mp hopen) hgate (gate_of_performs ran)
  refine ⟨?_, open_iff.mpr hopen', (h.performs ran).sound.unblocked (open_iff.mpr hopen')⟩
  have hsettles : events.countP Event.settles =
      (events.filterMap Event.atGate).countP Monitor.Event.settles := by
    rw [List.countP_filterMap]
    refine List.countP_congr fun event _ => ?_
    simp only [Event.settles]
    cases event.atGate <;> rfl
  have hdelay : Monitor.delay g.gate ≤ {id | g.gate.pc id = .notifying}.ncard + 1 := by
    unfold Monitor.delay
    split <;> omega
  omega

/-- A third client comes, the second is woken for nothing, and the first notifies nobody. -/
theorem gate_passes_on_handover : ∃ g g', new.performs handover = some g ∧
    g.performs [.gate (.call 2), .gate (.wake 1), .gate (.notify 0 none)] = some g' ∧ Open g' ∧
      ∃ event g'', g'.perform event = some g'' ∧
        (event.settles = true ∨ event.passes = true) := by
  obtain ⟨g, hg, hdown, -, hparked⟩ := handover_runs
  have hruns : ((new.performs handover).all fun g =>
      (g.performs [.gate (.call 2), .gate (.wake 1), .gate (.notify 0 none)]).isSome) = true := by
    decide
  rw [hg] at hruns
  obtain ⟨g', hg'⟩ := Option.isSome_iff_exists.mp hruns
  obtain ⟨-, hopen, hnext⟩ := gate_passes_on (Reachable.start.performs hg)
    ⟨hdown, 1, by rw [hparked]; rfl⟩ (by decide) hg'
  exact ⟨g, g', hg, hg', hopen, hnext⟩

end Gated

end Hadar.Mem
