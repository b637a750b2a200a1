import Hadar.Lib.Exclusion
import Mathlib.Data.Set.Card
import Mathlib.Logic.Function.Basic

/-!
# A monitor that lets one client in at a time

Some data behind a mutex, and a condition variable. A client enters once the data is ready, and
waits on the condition variable while it is not; a client that leaves makes it ready and notifies
one of those that wait. Waits are those of Mesa monitors: a client that is woken locks the mutex
again and looks once more, it may be woken for nothing, and somebody else may have come first.

Nobody is in together with another, and no notification is lost: where the data is ready and
somebody waits, somebody is on the way to look, so that one of them gets in.
-/

set_option autoImplicit false

namespace Hadar.Lib

/-- What entering and leaving do to the data. -/
structure Monitor (σ : Type) where
  ready : σ → Bool
  enter : σ → σ
  leave : σ → σ
  shuts : ∀ data, ready (enter data) = false
  opens : ∀ data, ready (leave data) = true

namespace Monitor

/-- Where a client is. -/
inductive Pc where
  | outside
  /-- at the lock, to enter -/
  | entering
  /-- with the lock, at the test -/
  | testing
  /-- waiting on the condition variable -/
  | parked
  /-- woken, at the lock -/
  | woken
  | inside
  /-- at the lock, to leave -/
  | leaving
  /-- with the lock, to leave -/
  | clearing
  /-- past the lock, to notify -/
  | notifying
  deriving DecidableEq, Repr

namespace Pc

/-- Whether it has the mutex. -/
def locks : Pc → Bool
  | testing | clearing => true
  | _ => false

/-- Whether it has entered and not left yet. -/
def owns : Pc → Bool
  | inside | leaving | clearing => true
  | _ => false

/-- Whether it will look at the data, or have somebody look, without being woken. -/
def stirs : Pc → Bool
  | testing | woken | notifying => true
  | _ => false

/-- Whether it is to enter. -/
def wants : Pc → Bool
  | entering | testing | parked | woken => true
  | _ => false

end Pc

structure State (σ ι : Type) where
  data : σ
  mutex : Option ι
  /-- who waits on the condition variable -/
  parked : List ι
  pc : ι → Pc

inductive Event (ι : Type) where
  | call (i : ι)
  | lock (i : ι)
  | park (i : ι)
  | enter (i : ι)
  /-- woken for nothing -/
  | wake (i : ι)
  | leave (i : ι)
  | clear (i : ι)
  /-- notifies one of those that wait, if there is one -/
  | notify (i : ι) (chosen : Option ι)
  deriving DecidableEq, Repr

variable {σ ι : Type}

/-- With nobody in it. -/
def State.start (data : σ) : State σ ι := ⟨data, none, [], fun _ => .outside⟩

section Steps

variable [DecidableEq ι]

def State.go (s : State σ ι) (i : ι) (pc : Pc) : State σ ι :=
  { s with pc := Function.update s.pc i pc }

/-- One step, where its client can take it. -/
def perform (m : Monitor σ) (s : State σ ι) : Event ι → Option (State σ ι)
  | .call i => if s.pc i = .outside then some (s.go i .entering) else none
  | .lock i =>
    match s.mutex, s.pc i with
    | none, .entering | none, .woken => some ({ s with mutex := some i }.go i .testing)
    | none, .leaving => some ({ s with mutex := some i }.go i .clearing)
    | _, _ => none
  | .park i =>
    if s.pc i = .testing ∧ m.ready s.data = false then
      some ({ s with mutex := none, parked := s.parked ++ [i] }.go i .parked)
    else none
  | .enter i =>
    if s.pc i = .testing ∧ m.ready s.data = true then
      some ({ s with data := m.enter s.data, mutex := none }.go i .inside)
    else none
  | .wake i =>
    if i ∈ s.parked then some ({ s with parked := s.parked.erase i }.go i .woken) else none
  | .leave i => if s.pc i = .inside then some (s.go i .leaving) else none
  | .clear i =>
    if s.pc i = .clearing then
      some ({ s with data := m.leave s.data, mutex := none }.go i .notifying)
    else none
  | .notify i none =>
    if s.pc i = .notifying ∧ s.parked = [] then some (s.go i .outside) else none
  | .notify i (some j) =>
    if s.pc i = .notifying ∧ j ∈ s.parked then
      some (({ s with parked := s.parked.erase j }.go j .woken).go i .outside)
    else none

/-- Some steps, one after another. -/
def performs (m : Monitor σ) (s : State σ ι) : List (Event ι) → Option (State σ ι)
  | [] => some s
  | event :: rest =>
    match m.perform s event with
    | none => none
    | some s' => performs m s' rest

/-- What a step can be. -/
inductive Stepped (m : Monitor σ) (s : State σ ι) : Event ι → State σ ι → Prop where
  | call {i : ι} (pc : s.pc i = .outside) : Stepped m s (.call i) (s.go i .entering)
  | test {i : ι} (free : s.mutex = none) (pc : s.pc i = .entering ∨ s.pc i = .woken) :
    Stepped m s (.lock i) ({ s with mutex := some i }.go i .testing)
  | seize {i : ι} (free : s.mutex = none) (pc : s.pc i = .leaving) :
    Stepped m s (.lock i) ({ s with mutex := some i }.go i .clearing)
  | park {i : ι} (pc : s.pc i = .testing) (shut : m.ready s.data = false) :
    Stepped m s (.park i) ({ s with mutex := none, parked := s.parked ++ [i] }.go i .parked)
  | enter {i : ι} (pc : s.pc i = .testing) (ready : m.ready s.data = true) :
    Stepped m s (.enter i) ({ s with data := m.enter s.data, mutex := none }.go i .inside)
  | wake {i : ι} (parked : i ∈ s.parked) :
    Stepped m s (.wake i) ({ s with parked := s.parked.erase i }.go i .woken)
  | leave {i : ι} (pc : s.pc i = .inside) : Stepped m s (.leave i) (s.go i .leaving)
  | clear {i : ι} (pc : s.pc i = .clearing) :
    Stepped m s (.clear i) ({ s with data := m.leave s.data, mutex := none }.go i .notifying)
  | quit {i : ι} (pc : s.pc i = .notifying) (nobody : s.parked = []) :
    Stepped m s (.notify i none) (s.go i .outside)
  | notify {i j : ι} (pc : s.pc i = .notifying) (parked : j ∈ s.parked) :
    Stepped m s (.notify i (some j))
      (({ s with parked := s.parked.erase j }.go j .woken).go i .outside)

theorem stepped {m : Monitor σ} {s s' : State σ ι} {event : Event ι}
    (ran : m.perform s event = some s') : Stepped m s event s' := by
  cases event with
  | call i =>
    obtain ⟨hpc, heq⟩ := Option.ite_none_right_eq_some.mp ran
    cases heq
    exact .call hpc
  | lock i =>
    unfold perform at ran
    dsimp only at ran
    split at ran
    · rename_i hfree hpc
      cases ran
      exact .test hfree (.inl hpc)
    · rename_i hfree hpc
      cases ran
      exact .test hfree (.inr hpc)
    · rename_i hfree hpc
      cases ran
      exact .seize hfree hpc
    · cases ran
  | park i =>
    obtain ⟨⟨hpc, hshut⟩, heq⟩ := Option.ite_none_right_eq_some.mp ran
    cases heq
    exact .park hpc hshut
  | enter i =>
    obtain ⟨⟨hpc, hready⟩, heq⟩ := Option.ite_none_right_eq_some.mp ran
    cases heq
    exact .enter hpc hready
  | wake i =>
    obtain ⟨hparked, heq⟩ := Option.ite_none_right_eq_some.mp ran
    cases heq
    exact .wake hparked
  | leave i =>
    obtain ⟨hpc, heq⟩ := Option.ite_none_right_eq_some.mp ran
    cases heq
    exact .leave hpc
  | clear i =>
    obtain ⟨hpc, heq⟩ := Option.ite_none_right_eq_some.mp ran
    cases heq
    exact .clear hpc
  | notify i chosen =>
    cases chosen with
    | none =>
      obtain ⟨⟨hpc, hnobody⟩, heq⟩ := Option.ite_none_right_eq_some.mp ran
      cases heq
      exact .quit hpc hnobody
    | some j =>
      obtain ⟨⟨hpc, hparked⟩, heq⟩ := Option.ite_none_right_eq_some.mp ran
      cases heq
      exact .notify hpc hparked

/-! ## The invariant -/

/-- The mutex is with who holds it, one client at most is in, the data is ready while none is, and
somebody stirs where it is ready and somebody waits. -/
structure Sound (m : Monitor σ) (s : State σ ι) : Prop where
  mutex : ∀ i, s.mutex = some i ↔ (s.pc i).locks = true
  owners : Guards (!m.ready s.data) fun i => (s.pc i).owns = true
  parked : ∀ i, i ∈ s.parked ↔ s.pc i = .parked
  once : s.parked.Nodup
  heard : m.ready s.data = true → s.parked ≠ [] → ∃ i, (s.pc i).stirs = true
  few : {i | s.pc i ≠ .outside}.Finite

variable {m : Monitor σ} {s s' : State σ ι} {i : ι}

omit [DecidableEq ι] in
theorem sound_start (data : σ) (ready : m.ready data = true) :
    Sound m (.start data : State σ ι) := by
  refine ⟨fun i => by simp [State.start, Pc.locks], ?_, fun i => by simp [State.start],
    List.nodup_nil, fun _ hne => absurd rfl hne, by simp [State.start]⟩
  simpa [State.start, ready, Pc.owns] using Guards.nobody

/-! ## One client's move -/

section Update

variable {pcs : ι → Pc} {pc : Pc}

/-- What holds of the others, and of the one who moves, holds of all. -/
theorem forall_update {P : ι → Pc → Prop} (hself : P i pc) (hother : ∀ j, j ≠ i → P j (pcs j)) :
    ∀ j, P j (Function.update pcs i pc j) := by
  intro j
  by_cases hj : j = i
  · subst hj
    rwa [Function.update_self]
  · rw [Function.update_of_ne hj]
    exact hother j hj

/-- A property that the one who moves has as before is had by the same clients. -/
theorem update_same (f : Pc → Bool) (h : f pc = f (pcs i)) (j : ι) :
    f (Function.update pcs i pc j) = true ↔ f (pcs j) = true :=
  forall_update (P := fun j pc => f pc = true ↔ f (pcs j) = true) (by rw [h]) (fun _ _ => Iff.rfl) j

/-- Few clients are elsewhere than outside after one has moved. -/
theorem few_update (h : {j | pcs j ≠ .outside}.Finite) :
    {j | Function.update pcs i pc j ≠ .outside}.Finite := by
  refine (h.insert i).subset fun j hj => ?_
  by_cases hji : j = i
  · exact .inl hji
  · refine .inr ?_
    rwa [Set.mem_ofPred_eq, Function.update_of_ne hji] at hj

/-- Whoever stirs goes on to, where the one who moves does if it did before. -/
theorem stirs_update (h : ∃ j, (pcs j).stirs = true)
    (hself : (pcs i).stirs = true → pc.stirs = true) :
    ∃ j, (Function.update pcs i pc j).stirs = true := by
  obtain ⟨j, hj⟩ := h
  refine ⟨j, ?_⟩
  by_cases hji : j = i
  · subst hji
    rw [Function.update_self]
    exact hself hj
  · rwa [Function.update_of_ne hji]

/-- Somebody who stirs has moved. -/
theorem stirs_moved (h : pc.stirs = true) : ∃ j, (Function.update pcs i pc j).stirs = true :=
  ⟨i, by rwa [Function.update_self]⟩

/-- Those who wait are as before where the one who moves does not wait. -/
theorem parked_update {parked : List ι} (h : ∀ j, j ∈ parked ↔ pcs j = .parked)
    (hbefore : pcs i ≠ .parked) (hafter : pc ≠ .parked) (j : ι) :
    j ∈ parked ↔ Function.update pcs i pc j = .parked := by
  refine forall_update (P := fun j pc => j ∈ parked ↔ pc = .parked) ?_ (fun j _ => h j) j
  rw [h i]
  exact iff_of_false hbefore hafter

/-- One of those who wait does no longer. -/
theorem parked_erase {parked : List ι} (h : ∀ j, j ∈ parked ↔ pcs j = .parked)
    (hnodup : parked.Nodup) (hafter : pc ≠ .parked) (j : ι) :
    j ∈ parked.erase i ↔ Function.update pcs i pc j = .parked := by
  refine forall_update (P := fun j pc => j ∈ parked.erase i ↔ pc = .parked) ?_ (fun j hj => ?_) j
  · exact iff_of_false hnodup.not_mem_erase hafter
  · rw [List.mem_erase_of_ne hj, h j]

end Update

omit [DecidableEq ι] in
/-- Nobody but the one with the mutex has it. -/
theorem Sound.alone (h : Sound m s) (hi : (s.pc i).locks = true) {j : ι} (hj : j ≠ i) :
    (s.pc j).locks = false := by
  rw [Bool.eq_false_iff]
  intro hlocks
  have hsame := ((h.mutex j).mpr hlocks).symm.trans ((h.mutex i).mpr hi)
  exact hj (Option.some.inj hsame)

/-- Whoever gives the mutex back leaves nobody with it. -/
theorem Sound.unlocked (h : Sound m s) {pc : Pc} (hi : (s.pc i).locks = true)
    (hafter : pc.locks = false) (j : ι) :
    none = some j ↔ (Function.update s.pc i pc j).locks = true := by
  refine forall_update (P := fun j pc => none = some j ↔ pc.locks = true) (by simp [hafter])
    (fun j hj => ?_) j
  simp [h.alone hi hj]

/-- A client moves that touches nothing. -/
theorem Sound.move (h : Sound m s) {pc : Pc} (hlocks : pc.locks = (s.pc i).locks)
    (howns : pc.owns = (s.pc i).owns) (hbefore : s.pc i ≠ .parked) (hafter : pc ≠ .parked)
    (hstirs : (s.pc i).stirs = true → pc.stirs = true) : Sound m (s.go i pc) :=
  ⟨fun j => (h.mutex j).trans (update_same Pc.locks hlocks j).symm,
    h.owners.congr (update_same Pc.owns howns),
    parked_update h.parked hbefore hafter, h.once,
    fun hready hwaits => stirs_update (h.heard hready hwaits) hstirs, few_update h.few⟩

/-- Whoever takes the mutex finds it free. -/
theorem Sound.lock (h : Sound m s) (hfree : s.mutex = none) {pc : Pc} (hlocks : pc.locks = true)
    (howns : pc.owns = (s.pc i).owns) (hbefore : s.pc i ≠ .parked)
    (hstirs : (s.pc i).stirs = true → pc.stirs = true) :
    Sound m ({ s with mutex := some i }.go i pc) := by
  have hnobody : ∀ j, (s.pc j).locks = false := fun j => by
    rw [Bool.eq_false_iff]
    intro hj
    rw [(h.mutex j).mpr hj] at hfree
    cases hfree
  have hafter : pc ≠ .parked := by
    rintro rfl
    cases hlocks
  refine ⟨?_, h.owners.congr (update_same Pc.owns howns),
    parked_update h.parked hbefore hafter, h.once,
    fun hready hwaits => stirs_update (h.heard hready hwaits) hstirs, few_update h.few⟩
  refine forall_update (P := fun j pc => some i = some j ↔ pc.locks = true) (by simp [hlocks])
    fun j hj => ?_
  simp [hnobody j, Ne.symm hj]

/-! ## What each step keeps -/

/-- Waiting, where the data is not ready. -/
theorem Sound.park (h : Sound m s) (hpc : s.pc i = .testing) (hready : m.ready s.data = false) :
    Sound m ({ s with mutex := none, parked := s.parked ++ [i] }.go i .parked) := by
  have howns : Pc.owns .parked = (s.pc i).owns := by rw [hpc]; rfl
  refine ⟨h.unlocked (by rw [hpc]; rfl) rfl, h.owners.congr (update_same Pc.owns howns),
    fun j => ?_, ?_, fun hnow => ?_, few_update h.few⟩
  · refine forall_update (P := fun j pc => j ∈ s.parked ++ [i] ↔ pc = .parked) (by simp)
      (fun j hj => ?_) j
    simp [h.parked j, hj]
  · have hnew : i ∉ s.parked := by simp [h.parked i, hpc]
    exact h.once.append (List.nodup_singleton i) (by simpa using hnew)
  · exact absurd (hready.symm.trans hnow) Bool.false_ne_true

/-- Entering, where it is. -/
theorem Sound.enter (h : Sound m s) (hpc : s.pc i = .testing) (hready : m.ready s.data = true) :
    Sound m ({ s with data := m.enter s.data, mutex := none }.go i .inside) := by
  have howners := h.owners
  rw [hready] at howners
  refine ⟨h.unlocked (by rw [hpc]; rfl) rfl, ?_,
    parked_update h.parked (by rw [hpc]; nofun) (by nofun), h.once,
    fun hnow => absurd ((m.shuts s.data).symm.trans hnow) Bool.false_ne_true, few_update h.few⟩
  show Guards (!m.ready (m.enter s.data)) _
  rw [m.shuts]
  refine howners.take (i := i) fun j => ?_
  refine forall_update (P := fun j pc => pc.owns = true ↔ (s.pc j).owns = true ∨ j = i)
    (by simp [Pc.owns]) (fun j hj => ?_) j
  simp [hj]

/-- Being woken, by whom it may be. -/
theorem Sound.wake (h : Sound m s) (hparked : i ∈ s.parked) :
    Sound m ({ s with parked := s.parked.erase i }.go i .woken) := by
  have hpc := (h.parked i).mp hparked
  have hlocks : Pc.locks .woken = (s.pc i).locks := by rw [hpc]; rfl
  have howns : Pc.owns .woken = (s.pc i).owns := by rw [hpc]; rfl
  exact ⟨fun j => (h.mutex j).trans (update_same Pc.locks hlocks j).symm,
    h.owners.congr (update_same Pc.owns howns), parked_erase h.parked h.once (by nofun),
    h.once.erase i, fun _ _ => stirs_moved rfl, few_update h.few⟩

/-- Leaving. -/
theorem Sound.clear (h : Sound m s) (hpc : s.pc i = .clearing) :
    Sound m ({ s with data := m.leave s.data, mutex := none }.go i .notifying) := by
  refine ⟨h.unlocked (by rw [hpc]; rfl) rfl, ?_,
    parked_update h.parked (by rw [hpc]; nofun) (by nofun), h.once, fun _ _ => stirs_moved rfl,
    few_update h.few⟩
  show Guards (!m.ready (m.leave s.data)) _
  rw [m.opens]
  refine h.owners.release (i := i) (by rw [hpc]; rfl) fun j => ?_
  refine forall_update (P := fun j pc => pc.owns = true ↔ (s.pc j).owns = true ∧ j ≠ i)
    (by simp [Pc.owns]) (fun j hj => ?_) j
  simp [hj]

/-- Being done, where nobody waits or somebody else stirs. -/
theorem Sound.done (h : Sound m s) (hpc : s.pc i = .notifying)
    (hheard : s.parked ≠ [] → ∃ j, j ≠ i ∧ (s.pc j).stirs = true) : Sound m (s.go i .outside) := by
  have hlocks : Pc.locks .outside = (s.pc i).locks := by rw [hpc]; rfl
  have howns : Pc.owns .outside = (s.pc i).owns := by rw [hpc]; rfl
  refine ⟨fun j => (h.mutex j).trans (update_same Pc.locks hlocks j).symm,
    h.owners.congr (update_same Pc.owns howns),
    parked_update h.parked (by rw [hpc]; nofun) (by nofun), h.once, fun _ hwaits => ?_,
    few_update h.few⟩
  obtain ⟨j, hj, hstirs⟩ := hheard hwaits
  refine ⟨j, ?_⟩
  show (Function.update s.pc i .outside j).stirs = true
  rwa [Function.update_of_ne hj]

omit [DecidableEq ι] in
/-- The one who notifies does not wait. -/
theorem Sound.other (h : Sound m s) {j : ι} (hpc : s.pc i = .notifying) (hparked : j ∈ s.parked) :
    j ≠ i := by
  rintro rfl
  rw [(h.parked j).mp hparked] at hpc
  cases hpc

theorem Sound.perform (h : Sound m s) {event : Event ι} (ran : m.perform s event = some s') :
    Sound m s' := by
  cases stepped ran with
  | call hpc | leave hpc =>
    exact h.move (by rw [hpc]; rfl) (by rw [hpc]; rfl) (by rw [hpc]; nofun) (by nofun)
      (by rw [hpc]; nofun)
  | test hfree hpc =>
    rcases hpc with hpc | hpc
    · exact h.lock hfree rfl (by rw [hpc]; rfl) (by rw [hpc]; nofun) fun _ => rfl
    · exact h.lock hfree rfl (by rw [hpc]; rfl) (by rw [hpc]; nofun) fun _ => rfl
  | seize hfree hpc =>
    exact h.lock hfree rfl (by rw [hpc]; rfl) (by rw [hpc]; nofun) (by rw [hpc]; nofun)
  | park hpc hshut => exact h.park hpc hshut
  | enter hpc hready => exact h.enter hpc hready
  | wake hparked => exact h.wake hparked
  | clear hpc => exact h.clear hpc
  | quit hpc hnobody => exact h.done hpc fun hwaits => absurd hnobody hwaits
  | @notify i j hpc hparked =>
    have hne := h.other hpc hparked
    refine (h.wake hparked).done ?_ fun _ => ⟨j, hne, ?_⟩
    · exact (Function.update_of_ne hne.symm ..).trans hpc
    · show (Function.update s.pc j .woken j).stirs = true
      rw [Function.update_self]
      rfl

/-! ## From where to where -/

/-- What a step can do to where a client is. -/
inductive Edge (j : ι) : Event ι → Pc → Pc → Prop where
  | call : Edge j (.call j) .outside .entering
  | test : Edge j (.lock j) .entering .testing
  | retest : Edge j (.lock j) .woken .testing
  | seize : Edge j (.lock j) .leaving .clearing
  | park : Edge j (.park j) .testing .parked
  | enter : Edge j (.enter j) .testing .inside
  | wake (event : Event ι) : Edge j event .parked .woken
  | leave : Edge j (.leave j) .inside .leaving
  | clear : Edge j (.clear j) .clearing .notifying
  | quit (chosen : Option ι) : Edge j (.notify j chosen) .notifying .outside

/-- A step moves one client along an edge, or two where one notifies the other. -/
theorem Sound.edge (h : Sound m s) {event : Event ι} (ran : m.perform s event = some s') :
    ∀ j, s'.pc j = s.pc j ∨ Edge j event (s.pc j) (s'.pc j) := by
  have hmoved : ∀ {i : ι} {pc : Pc}, Edge i event (s.pc i) pc → ∀ j,
      Function.update s.pc i pc j = s.pc j ∨ Edge j event (s.pc j) (Function.update s.pc i pc j) :=
    fun hedge => forall_update (P := fun j pc => pc = s.pc j ∨ Edge j event (s.pc j) pc) (.inr hedge)
      fun _ _ => .inl rfl
  cases stepped ran with
  | call hpc => exact hmoved (by rw [hpc]; exact .call)
  | test hfree hpc => exact hmoved (hpc.elim (fun h => h ▸ .test) fun h => h ▸ .retest)
  | seize hfree hpc => exact hmoved (by rw [hpc]; exact .seize)
  | park hpc hshut => exact hmoved (by rw [hpc]; exact .park)
  | enter hpc hready => exact hmoved (by rw [hpc]; exact .enter)
  | wake hparked => exact hmoved (by rw [(h.parked _).mp hparked]; exact .wake _)
  | leave hpc => exact hmoved (by rw [hpc]; exact .leave)
  | clear hpc => exact hmoved (by rw [hpc]; exact .clear)
  | quit hpc hnobody => exact hmoved (by rw [hpc]; exact .quit none)
  | @notify i k hpc hparked =>
    refine forall_update (P := fun j pc => pc = s.pc j ∨ Edge j _ (s.pc j) pc)
      (.inr (by rw [hpc]; exact .quit _)) fun j _ => ?_
    exact hmoved (by rw [(h.parked k).mp hparked]; exact .wake _) j

section Edge

variable {j : ι} {event : Event ι} {p q : Pc}

omit [DecidableEq ι] in
theorem Edge.wants (h : Edge j event p q) (hq : q.wants = true) :
    p.wants = true ∨ event = .call j := by
  cases h with
  | call => exact .inr rfl
  | test | retest | park | wake => exact .inl rfl
  | seize | enter | leave | clear | quit => cases hq

omit [DecidableEq ι] in
theorem Edge.owns (h : Edge j event p q) (henter : ∀ i, event ≠ .enter i)
    (hclear : ∀ i, event ≠ .clear i) : q.owns = p.owns := by
  cases h with
  | enter => exact absurd rfl (henter j)
  | clear => exact absurd rfl (hclear j)
  | call | test | retest | seize | park | wake | leave | quit => rfl

omit [DecidableEq ι] in
theorem Edge.leaves (h : Edge j event p q) (hq : q = .leaving ∨ q = .clearing) :
    p = .leaving ∨ event = .leave j := by
  cases h with
  | seize => exact .inl rfl
  | leave => exact .inr rfl
  | call | test | retest | park | enter | wake | clear | quit => rcases hq with hq | hq <;> cases hq

end Edge

/-- The data changes where a client enters or leaves, and nowhere else. -/
theorem data_of_perform {event : Event ι} (ran : m.perform s event = some s')
    (henter : ∀ i, event ≠ .enter i) (hclear : ∀ i, event ≠ .clear i) : s'.data = s.data := by
  cases stepped ran with
  | enter => exact absurd rfl (henter _)
  | clear => exact absurd rfl (hclear _)
  | call | test | seize | park | wake | leave | quit | notify => rfl

/-! ## Somebody gets in -/

/-- A step on the way in, or past the way out, of the clients that are there. -/
def Event.settles : Event ι → Bool
  | .lock _ | .notify _ _ => true
  | _ => false

def Event.enters : Event ι → Bool
  | .enter _ => true
  | _ => false

/-- The data is ready, and somebody is to enter. -/
structure Open (m : Monitor σ) (s : State σ ι) : Prop where
  ready : m.ready s.data = true
  wanted : ∃ i, (s.pc i).wants = true

/-- How many steps there can be before somebody enters. -/
noncomputable def delay (s : State σ ι) : ℕ :=
  {i | s.pc i = .notifying}.ncard + if s.mutex.isSome then 0 else 1

omit [DecidableEq ι] in
theorem Sound.nobody (h : Sound m s) (hready : m.ready s.data = true) (i : ι) :
    (s.pc i).owns = false := by
  rw [Bool.eq_false_iff]
  intro howns
  have hheld := h.owners.held_iff.mpr ⟨i, howns⟩
  rw [hready] at hheld
  cases hheld

/-- A client moves that does not notify, nor did before. -/
theorem notifying_update {pcs : ι → Pc} {pc : Pc} (hbefore : pcs i ≠ .notifying)
    (hafter : pc ≠ .notifying) :
    {j | Function.update pcs i pc j = .notifying} = {j | pcs j = .notifying} :=
  Set.ext (forall_update (P := fun j pc => pc = .notifying ↔ pcs j = .notifying)
    (iff_of_false hafter hbefore) fun _ _ => Iff.rfl)

/-- One that did is one less. -/
theorem ncard_notified {pcs : ι → Pc} (hfew : {j | pcs j ≠ .outside}.Finite)
    (hbefore : pcs i = .notifying) :
    {j | Function.update pcs i .outside j = .notifying}.ncard < {j | pcs j = .notifying}.ncard := by
  refine Set.ncard_lt_ncard ⟨fun j hj => ?_, fun hsub => ?_⟩ (hfew.subset fun j hj => ?_)
  · by_cases hji : j = i
    · exact hji ▸ hbefore
    · rwa [Set.mem_ofPred_eq, Function.update_of_ne hji] at hj
  · have hself := hsub hbefore
    rw [Set.mem_ofPred_eq, Function.update_self] at hself
    cases hself
  · rw [Set.mem_ofPred_eq, show pcs j = .notifying from hj]
    nofun

/-- The one who moves wants to enter, and none notifies more or less than before. -/
theorem Open.move (h : Open m s) {s' : State σ ι} {pc : Pc} (hpc : s'.pc = Function.update s.pc i pc)
    (hdata : s'.data = s.data) (hwants : pc.wants = true) (hbefore : s.pc i ≠ .notifying)
    (hmutex : s'.mutex.isSome = s.mutex.isSome) : Open m s' ∧ delay s' = delay s := by
  have hafter : pc ≠ .notifying := by
    rintro rfl
    cases hwants
  refine ⟨⟨hdata ▸ h.ready, i, ?_⟩, ?_⟩
  · rw [hpc, Function.update_self]
    exact hwants
  · rw [delay, delay, hpc, notifying_update hbefore hafter, hmutex]

/-- A step, and nobody has entered yet: whoever comes or is woken for nothing delays nobody. -/
theorem Sound.settle (h : Sound m s) (hopen : Open m s) {event : Event ι}
    (henters : event.enters = false) (ran : m.perform s event = some s') :
    Open m s' ∧ delay s' + (if event.settles then 1 else 0) ≤ delay s := by
  have howned : ∀ i, (s.pc i).owns = true → False := fun i hi =>
    Bool.false_ne_true ((h.nobody hopen.ready i).symm.trans hi)
  cases stepped ran with
  | enter => cases henters
  | park _ hshut => exact absurd (hshut.symm.trans hopen.ready) Bool.false_ne_true
  | leave hpc | clear hpc | seize _ hpc => exact (howned _ (by rw [hpc]; rfl)).elim
  | @call i hpc =>
    have hmoved : Open m (s.go i .entering) ∧ delay (s.go i .entering) = delay s :=
      hopen.move rfl rfl rfl (by rw [hpc]; nofun) rfl
    exact ⟨hmoved.1, hmoved.2.le⟩
  | @wake i hparked =>
    have hmoved : Open m ({ s with parked := s.parked.erase i }.go i .woken) ∧
        delay ({ s with parked := s.parked.erase i }.go i .woken) = delay s :=
      hopen.move rfl rfl rfl (by rw [(h.parked i).mp hparked]; nofun) rfl
    exact ⟨hmoved.1, hmoved.2.le⟩
  | @test i hfree hpc =>
    have hbefore : s.pc i ≠ .notifying := by
      rcases hpc with hpc | hpc <;> rw [hpc] <;> nofun
    have hafter : Pc.testing ≠ .notifying := nofun
    refine ⟨⟨hopen.ready, i, ?_⟩, ?_⟩
    · exact congrArg Pc.wants (Function.update_self i Pc.testing s.pc)
    show {j | Function.update s.pc i .testing j = .notifying}.ncard + 0 + 1 ≤
      _ + if s.mutex.isSome then 0 else 1
    rw [notifying_update hbefore hafter, hfree]
    exact Nat.le_refl _
  | @quit i hpc hnobody =>
    obtain ⟨j, hj⟩ := hopen.wanted
    have hne : j ≠ i := by
      rintro rfl
      rw [hpc] at hj
      cases hj
    refine ⟨⟨hopen.ready, j, ?_⟩, Nat.add_lt_add_right (ncard_notified h.few hpc) _⟩
    exact (congrArg Pc.wants (Function.update_of_ne hne ..)).trans hj
  | @notify i j hpc hparked =>
    have hne := h.other hpc hparked
    refine ⟨⟨hopen.ready, j, ?_⟩, Nat.add_lt_add_right ?_ _⟩
    · show (Function.update (Function.update s.pc j .woken) i .outside j).wants = true
      rw [Function.update_of_ne hne, Function.update_self]
      rfl
    · have hless := ncard_notified (h.wake hparked).few
        ((Function.update_of_ne hne.symm ..).trans hpc)
      have hsame : {k | Function.update s.pc j .woken k = .notifying} =
          {k | s.pc k = .notifying} :=
        notifying_update (by rw [(h.parked j).mp hparked]; nofun) nofun
      exact hless.trans_eq (congrArg Set.ncard hsame)

/-- Somebody can always take one. -/
theorem Sound.unblocked (h : Sound m s) (hopen : Open m s) :
    ∃ event s', m.perform s event = some s' ∧ (event.settles = true ∨ event.enters = true) := by
  obtain ⟨i, hi⟩ := hopen.wanted
  cases hmutex : s.mutex with
  | some k =>
    -- whoever has the mutex finds the data ready
    have hk : s.pc k = .testing := by
      have hlocks := (h.mutex k).mp hmutex
      have hout := h.nobody hopen.ready k
      cases hpc : s.pc k with
      | testing => rfl
      | clearing => rw [hpc] at hout; cases hout
      | _ => rw [hpc] at hlocks; cases hlocks
    exact ⟨.enter k, _, if_pos ⟨hk, hopen.ready⟩, .inr rfl⟩
  | none =>
    have hlock : ∀ k, s.pc k = .entering ∨ s.pc k = .woken →
        ∃ event s', m.perform s event = some s' ∧
          (event.settles = true ∨ event.enters = true) := by
      rintro k (hk | hk)
      · exact ⟨.lock k, { s with mutex := some k }.go k .testing, by
          simp [Monitor.perform, hmutex, hk], .inl rfl⟩
      · exact ⟨.lock k, { s with mutex := some k }.go k .testing, by
          simp [Monitor.perform, hmutex, hk], .inl rfl⟩
    have hfree : ∀ k, s.pc k ≠ .testing := fun k hk => by
      have hlocks := (h.mutex k).mpr (by rw [hk]; rfl)
      rw [hmutex] at hlocks
      cases hlocks
    cases hpc : s.pc i with
    | entering => exact hlock i (.inl hpc)
    | woken => exact hlock i (.inr hpc)
    | testing => exact absurd hpc (hfree i)
    | parked =>
      -- somebody heard, or is about to notify
      have hparked := (h.parked i).mpr hpc
      obtain ⟨k, hk⟩ := h.heard hopen.ready (List.ne_nil_of_mem hparked)
      cases hpck : s.pc k with
      | testing => exact absurd hpck (hfree k)
      | woken => exact hlock k (.inr hpck)
      | notifying => exact ⟨.notify k (some i), _, if_pos ⟨hpck, hparked⟩, .inl rfl⟩
      | _ => rw [hpck] at hk; cases hk
    | _ => rw [hpc] at hi; cases hi

/-- Where the data is ready and somebody is to enter, so many steps at most are taken to lock and to
notify, whoever comes and whoever is woken for nothing, until somebody enters; and there always is
one to take. -/
theorem Sound.passes (h : Sound m s) (hopen : Open m s) {events : List (Event ι)}
    (henters : ∀ event ∈ events, event.enters = false) (ran : m.performs s events = some s') :
    events.countP Event.settles + delay s' ≤ delay s ∧ Open m s' ∧ Sound m s' := by
  induction events generalizing s with
  | nil =>
    cases ran
    exact ⟨(Nat.zero_add _).le, hopen, h⟩
  | cons event rest ih =>
    obtain ⟨hfirst, hrest⟩ := List.forall_mem_cons.mp henters
    rw [performs] at ran
    split at ran
    · cases ran
    · rename_i s₁ hran
      obtain ⟨hopen₁, hless⟩ := h.settle hopen hfirst hran
      obtain ⟨hcount, hmore⟩ := ih (h.perform hran) hopen₁ hrest ran
      refine ⟨?_, hmore⟩
      rw [List.countP_cons]
      omega

end Steps

end Monitor

end Hadar.Lib
