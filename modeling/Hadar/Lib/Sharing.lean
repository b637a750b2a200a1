import Hadar.Lib.Linearizability
import Hadar.Lib.Script

/-!
# An object behind a readers-writer lock

The methods of an object are scripts. One that only reads holds the lock together with others of
its kind, any other holds it alone, and for the object's one resource others have to wait while a
call has it.

Nothing of this shows from outside: a call returns what its method returns when it is run in one
go at some point while it holds the lock, so that the object is linearizable. What is left of the
script of a call ends as the whole of it does from what the call found, and that is what every step
keeps.
-/

set_option autoImplicit false

namespace Hadar.Lib

/-! ## Objects -/

/-- The state a script runs over is what all calls share and what is a call's own. -/
structure View (σ τ κ : Type) where
  join : τ → κ → σ
  seen : σ → τ
  own : σ → κ
  seen_join : ∀ t k, seen (join t k) = t
  join_eta : ∀ s, join (seen s) (own s) = s

structure Method (σ ε ρ : Type) where
  /-- it takes the lock alone -/
  exclusive : Bool
  script : Script σ ε ρ

/-- An object behind a lock. A method that does not take the lock alone changes nothing, and none
takes the resource while it has it. -/
structure Guarded (σ τ κ ε ω ρ : Type) where
  view : View σ τ κ
  method : ω → Method σ ε ρ
  spares : ∀ op, (method op).exclusive = false → (method op).script.Spares view.seen
  nests : ∀ op, (method op).script.Nests false fun _ _ => True

namespace Guarded

/-- The object whose methods are run in one go. What is a call's own may be anything, and a crash
is no result. -/
def sequential {σ τ κ ε ω ρ : Type} (g : Guarded σ τ κ ε ω ρ) (start : τ) :
    Sequential τ ω (Except (Stop ε) ρ) where
  start := start
  step t op result t' := ∃ own, ((g.method op).script.whole.exec (g.view.join t own)).1 = result ∧
    g.view.seen ((g.method op).script.whole.exec (g.view.join t own)).2 = t' ∧
      result ≠ .error .crash

/-! ## Calls -/

/-- How far a call is. -/
inductive Place (σ κ ε ω ρ : Type) : Type 1 where
  /-- at the lock -/
  | waiting (op : ω) (own : κ)
  /-- with the lock -/
  | inside (op : ω) (script : Script σ ε ρ) (own : κ)
  | told (result : Except (Stop ε) ρ)
  | returned

def Place.waits {σ κ ε ω ρ : Type} : Place σ κ ε ω ρ → Bool
  | waiting _ _ => true
  | _ => false

/-- Who has the lock. -/
inductive Lock where
  | shared (ids : List ℕ)
  | exclusive (id : ℕ)
  deriving DecidableEq, Repr

namespace Lock

/-- Gives the lock to a call; `none` where it has to wait. -/
def grant (id : ℕ) (alone : Bool) : Lock → Option Lock
  | shared ids =>
    if alone then if ids = [] then some (exclusive id) else none else some (shared (id :: ids))
  | exclusive _ => none

def release (id : ℕ) : Lock → Lock
  | shared ids => shared (ids.erase id)
  | exclusive _ => shared []

/-- Who has it. -/
def ids : Lock → List ℕ
  | shared ids => ids
  | exclusive id => [id]

/-- A call has it, alone or with others. -/
def Holds (id : ℕ) (alone : Bool) : Lock → Prop
  | shared ids => alone = false ∧ id ∈ ids
  | exclusive holder => alone = true ∧ id = holder

section Holds

variable {lock lock' : Lock} {id j : ℕ} {alone : Bool}

theorem grant_some (h : lock.grant id alone = some lock') :
    lock'.ids = id :: lock.ids ∧ lock'.Holds id alone ∧
      (∀ i, lock ≠ exclusive i) ∧ ∀ j alone', lock.Holds j alone' → lock'.Holds j alone' := by
  cases lock with
  | exclusive => cases h
  | shared ids =>
    cases alone with
    | true =>
      obtain ⟨rfl, heq⟩ := Option.ite_none_right_eq_some.mp h
      cases heq
      exact ⟨rfl, ⟨rfl, rfl⟩, fun _ => nofun,
        fun j _ hj => absurd hj.2 List.not_mem_nil⟩
    | false =>
      cases h
      exact ⟨rfl, ⟨rfl, List.mem_cons_self⟩, fun _ => nofun,
        fun j _ hj => ⟨hj.1, List.mem_cons_of_mem _ hj.2⟩⟩

theorem release_ids (h : lock.Holds id alone) : (lock.release id).ids = lock.ids.erase id := by
  cases lock with
  | shared ids => rfl
  | exclusive holder =>
    obtain rfl : id = holder := h.2
    exact (List.erase_cons_head ..).symm

theorem Holds.release (h : lock.Holds j alone) (hne : j ≠ id) (hmem : id ∈ lock.ids) :
    (lock.release id).Holds j alone := by
  cases lock with
  | shared ids => exact ⟨h.1, (List.mem_erase_of_ne hne).mpr h.2⟩
  | exclusive holder => exact absurd (h.2.trans (List.mem_singleton.mp hmem).symm) hne

/-- Whoever has it together with others does not have it alone. -/
theorem Holds.apart {alone' : Bool} (h : lock.Holds id alone) (h' : lock.Holds j alone')
    (hne : j ≠ id) : alone = false := by
  cases lock with
  | shared ids => exact h.1
  | exclusive holder => exact absurd (h'.2.trans h.2.symm) hne

end Holds

end Lock

/-- The object and the calls that were made. -/
structure System (σ τ κ ε ω ρ : Type) : Type 1 where
  store : τ
  places : ℕ → Option (Place σ κ ε ω ρ)
  lock : Lock
  /-- who has the resource -/
  holder : Option ℕ
  /-- the process has stopped -/
  crashed : Bool

/-- What happens next. -/
inductive Action (κ ω : Type) where
  /-- a call, with what is its own -/
  | call (id : ℕ) (op : ω) (own : κ)
  | enter (id : ℕ)
  | step (id : ℕ)
  /-- a script that has ended gives back the resource it still has -/
  | drop (id : ℕ)
  | leave (id : ℕ)
  | ret (id : ℕ)
  deriving DecidableEq, Repr

/-- The call that takes the step. -/
def Action.id {κ ω : Type} : Action κ ω → ℕ
  | call id _ _ | enter id | step id | drop id | leave id | ret id => id

variable {σ τ κ ε ω ρ : Type}

def System.new (start : τ) : System σ τ κ ε ω ρ := ⟨start, fun _ => none, .shared [], none, false⟩

namespace System

def setPlace (s : System σ τ κ ε ω ρ) (id : ℕ) (place : Place σ κ ε ω ρ) : System σ τ κ ε ω ρ :=
  { s with places := Function.update s.places id (some place) }

/-- The resource after a section of a call that succeeded. -/
def gripped (s : System σ τ κ ε ω ρ) (id : ℕ) : Grip → Option ℕ
  | .keeps => s.holder
  | .takes => some id
  | .gives => if s.holder = some id then none else s.holder

/-- The resource after one that failed, which takes nothing. -/
def dropped (s : System σ τ κ ε ω ρ) (id : ℕ) : Grip → Option ℕ
  | .keeps | .takes => s.holder
  | .gives => s.gripped id .gives

/-- One section of a call, and where it leaves it. -/
def run (g : Guarded σ τ κ ε ω ρ) (s : System σ τ κ ε ω ρ) (id : ℕ) (op : ω) {β : Type}
    (grip : Grip) (p : Prog σ ε β) (next : β → Script σ ε ρ) (own : κ) : System σ τ κ ε ω ρ :=
  match p.exec (g.view.join s.store own) with
  | (.ok b, s') => { s with store := g.view.seen s', holder := s.gripped id grip }.setPlace id
      (.inside op (next b) (g.view.own s'))
  | (.error (.error e), s') => { s with
      store := g.view.seen s', holder := s.dropped id grip }.setPlace id
        (.inside op (.fail e) (g.view.own s'))
  | (.error .panic, s') => { s with
      store := g.view.seen s', holder := s.dropped id grip }.setPlace id
        (.inside op .panic (g.view.own s'))
  | (.error .crash, s') => { s with store := g.view.seen s', crashed := true }

/-- One step, where its call can take it, with what is seen of it. -/
def perform (g : Guarded σ τ κ ε ω ρ) (s : System σ τ κ ε ω ρ) (action : Action κ ω) :
    Option (System σ τ κ ε ω ρ × Option (Mark ω (Except (Stop ε) ρ))) :=
  if s.crashed then none
  else
    match action with
    | .call id op own =>
      match s.places id with
      | none => some (s.setPlace id (.waiting op own), some (.called id op))
      | some _ => none
    | .enter id =>
      match s.places id with
      | some (.waiting op own) =>
        match s.lock.grant id (g.method op).exclusive with
        | some lock => some ({ s with lock := lock }.setPlace id
            (.inside op (g.method op).script own), none)
        | none => none
      | _ => none
    | .step id =>
      match s.places id with
      | some (.inside op (.act grip p next) own) =>
        if grip = .takes ∧ s.holder.isSome then none
        else some (s.run g id op grip p next own, none)
      | _ => none
    | .drop id =>
      match s.places id with
      | some (.inside _ script _) =>
        if script.result?.isSome ∧ s.holder = some id then some ({ s with holder := none }, none)
        else none
      | _ => none
    | .leave id =>
      match s.places id with
      | some (.inside _ script _) =>
        match script.result? with
        | some result =>
          if s.holder = some id then none
          else some ({ s with lock := s.lock.release id }.setPlace id (.told result), none)
        | none => none
      | _ => none
    | .ret id =>
      match s.places id with
      | some (.told result) => some (s.setPlace id .returned, some (.returned id result))
      | _ => none

/-- Takes some steps one after another, where each of them can be taken. -/
def performs (g : Guarded σ τ κ ε ω ρ) (s : System σ τ κ ε ω ρ) :
    List (Action κ ω) → Option (System σ τ κ ε ω ρ × List (Mark ω (Except (Stop ε) ρ)))
  | [] => some (s, [])
  | action :: rest =>
    match s.perform g action with
    | none => none
    | some (s', mark) =>
      match performs g s' rest with
      | none => none
      | some (s'', marks) => some (s'', mark.toList ++ marks)

end System

/-- What the calls can do in any order, with what is seen of it. -/
inductive Interleaving (g : Guarded σ τ κ ε ω ρ) (start : τ) :
    List (Mark ω (Except (Stop ε) ρ)) → System σ τ κ ε ω ρ → Prop where
  | start : Interleaving g start [] (.new start)
  | performed {history : List (Mark ω (Except (Stop ε) ρ))} {s s' : System σ τ κ ε ω ρ}
    {mark : Option (Mark ω (Except (Stop ε) ρ))} (action : Action κ ω)
    (before : Interleaving g start history s) (ran : s.perform g action = some (s', mark)) :
    Interleaving g start (history ++ mark.toList) s'

/-! ## Every call as one step -/

section Atomicity

variable {g : Guarded σ τ κ ε ω ρ} {start t : τ} {s s' : System σ τ κ ε ω ρ} {id : ℕ} {op : ω}
  {script : Script σ ε ρ} {own : κ} {history : List (Mark ω (Except (Stop ε) ρ))}
  {order : List (Effect ω (Except (Stop ε) ρ))} {phase : ℕ → Phase ω (Except (Stop ε) ρ)}

/-- A call with the lock, where `t` is what it found: the rest of its script ends as its method does
when it is run in one go. -/
structure Inside (g : Guarded σ τ κ ε ω ρ) (t : τ) (s : System σ τ κ ε ω ρ) (id : ℕ) (op : ω)
    (script : Script σ ε ρ) (own : κ) : Prop where
  ends : ∃ own₀, (g.method op).script.whole.exec (g.view.join t own₀) =
    script.whole.exec (g.view.join s.store own)
  spares : (g.method op).exclusive = false → script.Spares g.view.seen
  nests : script.Nests (decide (s.holder = some id)) fun _ _ => True
  admitted : s.lock.Holds id (g.method op).exclusive

/-- How far a call is, and how far it is with the atomic object. -/
def Progress (g : Guarded σ τ κ ε ω ρ) (t : τ) (s : System σ τ κ ε ω ρ)
    (phase : Phase ω (Except (Stop ε) ρ)) (id : ℕ) : Option (Place σ κ ε ω ρ) → Prop
  | none => phase = .absent
  | some (.waiting op _) => phase = .pending op
  | some (.inside op script own) => phase = .pending op ∧ Inside g t s id op script own
  | some (.told result) => phase = .done result
  | some .returned => phase = .finished

/-- A call is with the lock. -/
def System.Within (s : System σ τ κ ε ω ρ) (id : ℕ) : Prop :=
  ∃ op script own, s.places id = some (.inside op script own)

/-- The system is where the atomic object is, but for what a call that has the lock alone has done
already. -/
structure Consistent (g : Guarded σ τ κ ε ω ρ) (start : τ) (s : System σ τ κ ε ω ρ)
    (history : List (Mark ω (Except (Stop ε) ρ))) (order : List (Effect ω (Except (Stop ε) ρ)))
    (phase : ℕ → Phase ω (Except (Stop ε) ρ)) (t : τ) : Prop where
  atomic : Atomic (g.sequential start) history order phase t
  store : (∀ id, s.lock ≠ .exclusive id) → s.store = t
  progress : ∀ id, Progress g t s (phase id) id (s.places id)
  locked : ∀ id, id ∈ s.lock.ids ↔ s.Within id
  nodup : s.lock.ids.Nodup
  holder : ∀ id, s.holder = some id → s.Within id

/-- Where the process has stopped, a call has crashed that is run in one go from where the atomic
object is. -/
def Halted (g : Guarded σ τ κ ε ω ρ) (start : τ) (s : System σ τ κ ε ω ρ)
    (history : List (Mark ω (Except (Stop ε) ρ))) (order : List (Effect ω (Except (Stop ε) ρ))) :
    Prop :=
  ∃ phase t id op own, Atomic (g.sequential start) history order phase t ∧
    phase id = .pending op ∧
      ((g.method op).script.whole.exec (g.view.join t own)).1 = .error .crash ∧
        g.view.seen ((g.method op).script.whole.exec (g.view.join t own)).2 = s.store

/-- The same call, after steps of others. -/
theorem Inside.frame (h : Inside g t s id op script own) (hstore : s'.store = s.store)
    (hholder : s'.holder = some id ↔ s.holder = some id)
    (hlock : ∀ alone, s.lock.Holds id alone → s'.lock.Holds id alone) :
    Inside g t s' id op script own := by
  refine ⟨?_, h.spares, ?_, hlock _ h.admitted⟩
  · rw [hstore]
    exact h.ends
  · rw [decide_eq_decide.mpr hholder]
    exact h.nests

/-- One call moves, and none of the others that have the lock. -/
theorem Consistent.move (h : Consistent g start s history order phase t) {t' : τ}
    {place : Place σ κ ε ω ρ} {p : Phase ω (Except (Stop ε) ρ)}
    {history' : List (Mark ω (Except (Stop ε) ρ))} {order' : List (Effect ω (Except (Stop ε) ρ))}
    (hplaces : s'.places = Function.update s.places id (some place))
    (hatomic : Atomic (g.sequential start) history' order' (Function.update phase id p) t')
    (hstore : (∀ i, s'.lock ≠ .exclusive i) → s'.store = t')
    (hself : Progress g t' s' p id (some place))
    (hothers : ∀ j, j ≠ id → s.Within j → s'.store = s.store ∧ t' = t ∧
      ∀ alone, s.lock.Holds j alone → s'.lock.Holds j alone)
    (hwithin : id ∈ s'.lock.ids ↔ ∃ op script own, place = .inside op script own)
    (hids : ∀ j, j ≠ id → (j ∈ s'.lock.ids ↔ j ∈ s.lock.ids)) (hnodup : s'.lock.ids.Nodup)
    (hheld : s'.holder = some id → id ∈ s'.lock.ids)
    (hholder : ∀ j, j ≠ id → (s'.holder = some j ↔ s.holder = some j)) :
    ∃ phase', Consistent g start s' history' order' phase' t' := by
  have hmoved : s'.places id = some place := by rw [hplaces, Function.update_self]
  have hsame : ∀ j, j ≠ id → s'.places j = s.places j := fun j hj => by
    rw [hplaces, Function.update_of_ne hj]
  have hwithins : ∀ j, j ∈ s'.lock.ids ↔ s'.Within j := by
    intro j
    by_cases hj : j = id
    · subst hj
      rw [hwithin, System.Within, hmoved]
      simp only [Option.some.injEq]
    · rw [hids j hj, h.locked j, System.Within, System.Within, hsame j hj]
  refine ⟨_, hatomic, hstore, fun j => ?_, hwithins, hnodup, fun j hj => ?_⟩
  · by_cases hj : j = id
    · subst hj
      rw [Function.update_self, hmoved]
      exact hself
    · rw [Function.update_of_ne hj, hsame j hj]
      have hbefore := h.progress j
      cases hplace : s.places j with
      | none => rwa [hplace] at hbefore
      | some place =>
        rw [hplace] at hbefore
        cases place with
        | inside op script own =>
          obtain ⟨hstore', rfl, hlock⟩ := hothers j hj ⟨_, _, _, hplace⟩
          exact ⟨hbefore.1, hbefore.2.frame hstore' (hholder j hj) hlock⟩
        | waiting op own => exact hbefore
        | told result => exact hbefore
        | returned => exact hbefore
  · by_cases hid : j = id
    · subst hid
      exact (hwithins j).mp (hheld hj)
    · obtain ⟨op, script, own, hplace⟩ := h.holder j ((hholder j hid).mp hj)
      exact ⟨op, script, own, (hsame j hid).trans hplace⟩

theorem Consistent.outside (h : Consistent g start s history order phase t) (id : ℕ)
    (hplace : ∀ op script own, s.places id ≠ some (.inside op script own)) :
    id ∉ s.lock.ids ∧ s.holder ≠ some id := by
  have hnot : ¬ s.Within id := fun ⟨op, script, own, heq⟩ => hplace op script own heq
  exact ⟨fun hmem => hnot ((h.locked id).mp hmem), fun hheld => hnot (h.holder id hheld)⟩

theorem Consistent.call (h : Consistent g start s history order phase t) (op : ω) (own : κ)
    (hplace : s.places id = none) : ∃ phase', Consistent g start (s.setPlace id (.waiting op own))
      (history ++ [.called id op]) order phase' t := by
  have hphase := h.progress id
  rw [hplace] at hphase
  obtain ⟨hids, hholder⟩ := h.outside id (by rw [hplace]; nofun)
  exact h.move rfl (h.atomic.call op hphase) h.store rfl
    (fun _ _ _ => ⟨rfl, rfl, fun _ hj => hj⟩) (iff_of_false hids nofun) (fun _ _ => Iff.rfl)
    h.nodup (fun hheld => absurd hheld hholder) fun _ _ => Iff.rfl

theorem Consistent.enter (h : Consistent g start s history order phase t) {lock : Lock}
    (hplace : s.places id = some (.waiting op own))
    (hlock : s.lock.grant id (g.method op).exclusive = some lock) :
    ∃ phase', Consistent g start ({ s with lock := lock }.setPlace id
      (.inside op (g.method op).script own)) history order phase' t := by
  have hphase := h.progress id
  rw [hplace] at hphase
  obtain ⟨hids, hholder⟩ := h.outside id (by rw [hplace]; nofun)
  obtain ⟨hmore, hadmitted, hopen, hkeeps⟩ := Lock.grant_some hlock
  have hstore := h.store hopen
  have hself : Inside g t ({ s with lock := lock }.setPlace id
      (.inside op (g.method op).script own)) id op (g.method op).script own := by
    refine ⟨⟨own, ?_⟩, g.spares op, ?_, hadmitted⟩
    · rw [← hstore]
      rfl
    · rw [decide_eq_false (by exact hholder)]
      exact g.nests op
  refine h.move (p := phase id) rfl ?_ (fun _ => hstore) ⟨hphase, hself⟩
    (fun j _ _ => ⟨rfl, rfl, hkeeps j⟩) (iff_of_true ?_ ⟨_, _, _, rfl⟩) (fun j hj => ?_) ?_
    (fun hheld => absurd hheld hholder) fun _ _ => Iff.rfl
  · rw [Function.update_eq_self]
    exact h.atomic
  · exact hmore ▸ List.mem_cons_self
  · show j ∈ lock.ids ↔ j ∈ s.lock.ids
    rw [hmore, List.mem_cons, or_iff_right hj]
  · show lock.ids.Nodup
    rw [hmore]
    exact List.nodup_cons.mpr ⟨hids, h.nodup⟩

theorem Consistent.inside (h : Consistent g start s history order phase t)
    (hplace : s.places id = some (.inside op script own)) :
    phase id = .pending op ∧ Inside g t s id op script own ∧ id ∈ s.lock.ids := by
  have hphase := h.progress id
  rw [hplace] at hphase
  exact ⟨hphase.1, hphase.2, (h.locked id).mpr ⟨op, script, own, hplace⟩⟩

/-- A call that has the lock together with others finds what the atomic object has. -/
theorem Inside.store_eq (hinside : Inside g t s id op script own)
    (h : Consistent g start s history order phase t)
    (hshared : ∀ i, s.lock ≠ .exclusive i) : (g.method op).exclusive = false ∧ s.store = t := by
  refine ⟨?_, h.store hshared⟩
  have hadmitted := hinside.admitted
  cases hlock : s.lock with
  | shared ids =>
    rw [hlock] at hadmitted
    exact hadmitted.1
  | exclusive i => exact absurd hlock (hshared i)

/-- A call with the lock goes on. -/
theorem Consistent.stay (h : Consistent g start s history order phase t)
    {script' : Script σ ε ρ} {own' : κ} {store : τ} {holder : Option ℕ}
    (hplace : s.places id = some (.inside op script own))
    (hends : script.whole.exec (g.view.join s.store own) =
      script'.whole.exec (g.view.join store own'))
    (hspares : (g.method op).exclusive = false →
      script'.Spares g.view.seen ∧ store = s.store)
    (hnests : script'.Nests (decide (holder = some id)) fun _ _ => True)
    (hholder : ∀ j, j ≠ id → (holder = some j ↔ s.holder = some j)) :
    ∃ phase', Consistent g start ({ s with store := store, holder := holder }.setPlace id
      (.inside op script' own')) history order phase' t := by
  obtain ⟨hphase, hinside, hmem⟩ := h.inside hplace
  obtain ⟨own₀, hwhole⟩ := hinside.ends
  refine h.move (p := phase id) rfl ?_ (fun hshared => ?_) ⟨hphase, ⟨own₀, hwhole.trans hends⟩,
    fun hreads => (hspares hreads).1, hnests, hinside.admitted⟩ (fun j hj hwithin => ?_)
    (iff_of_true hmem ⟨_, _, _, rfl⟩) (fun _ _ => Iff.rfl) h.nodup (fun _ => hmem) hholder
  · rw [Function.update_eq_self]
    exact h.atomic
  · obtain ⟨hreads, hstore⟩ := hinside.store_eq h hshared
    exact ((hspares hreads).2).trans hstore
  · obtain ⟨op', script₁, own₁, hplace'⟩ := hwithin
    have hreads := hinside.admitted.apart (h.inside hplace').2.1.admitted hj
    exact ⟨(hspares hreads).2, rfl, fun _ hj => hj⟩

/-- Who has the resource after a section, but for the call itself. -/
theorem System.gripped_other {grip : Grip} (hfree : grip = .takes → s.holder = none) {j : ℕ}
    (hne : j ≠ id) : s.gripped id grip = some j ↔ s.holder = some j := by
  cases grip with
  | keeps => exact Iff.rfl
  | takes =>
    rw [hfree rfl]
    exact iff_of_false (fun heq => hne (Option.some.inj heq).symm) nofun
  | gives =>
    show (if s.holder = some id then none else s.holder) = some j ↔ _
    split
    · rename_i hheld
      rw [hheld]
      exact iff_of_false nofun fun heq => hne (Option.some.inj heq).symm
    · exact Iff.rfl

theorem System.gripped_self (grip : Grip) :
    decide (s.gripped id grip = some id) = grip.after (decide (s.holder = some id)) := by
  cases grip with
  | keeps => rfl
  | takes => simp [System.gripped, Grip.after]
  | gives =>
    show decide ((if s.holder = some id then none else s.holder) = some id) = false
    split
    · rfl
    · rename_i hheld
      exact decide_eq_false hheld

theorem System.dropped_other {grip : Grip} {j : ℕ} (hne : j ≠ id) :
    s.dropped id grip = some j ↔ s.holder = some j := by
  cases grip with
  | keeps | takes => exact Iff.rfl
  | gives =>
    have hgives : Grip.gives = .takes → s.holder = none := fun heq => by cases heq
    exact System.gripped_other hgives hne

/-- Where a call has come to, the process running or stopped. -/
def Stands (g : Guarded σ τ κ ε ω ρ) (start : τ) (s : System σ τ κ ε ω ρ)
    (history : List (Mark ω (Except (Stop ε) ρ))) (order : List (Effect ω (Except (Stop ε) ρ))) :
    Prop :=
  if s.crashed then Halted g start s history order
  else ∃ phase t, Consistent g start s history order phase t

/-- One section of a call. -/
theorem Consistent.run (h : Consistent g start s history order phase t) (hup : s.crashed = false)
    {β : Type} {grip : Grip} {p : Prog σ ε β} {next : β → Script σ ε ρ}
    (hplace : s.places id = some (.inside op (.act grip p next) own))
    (hfree : grip = .takes → s.holder = none) :
    Stands g start (s.run g id op grip p next own) history order := by
  obtain ⟨hphase, hinside, hmem⟩ := h.inside hplace
  obtain ⟨hgrip, hnext⟩ := hinside.nests
  have hspared : (g.method op).exclusive = false →
      g.view.seen (p.exec (g.view.join s.store own)).2 = s.store := fun hreads =>
    ((hinside.spares hreads).1 _).trans (g.view.seen_join ..)
  have hgoes : ∀ {system : System σ τ κ ε ω ρ}, system.crashed = false →
      (∃ phase', Consistent g start system history order phase' t) →
      Stands g start system history order := fun hrunning ⟨phase', hc⟩ => by
    rw [Stands, if_neg (by simp [hrunning])]
    exact ⟨phase', t, hc⟩
  unfold System.run
  split
  · rename_i b s' hran
    rw [hran] at hspared
    refine hgoes hup (h.stay hplace ?_ (fun hreads => ⟨(hinside.spares hreads).2 b, hspared hreads⟩)
      ?_ fun j hj => System.gripped_other hfree hj)
    · rw [g.view.join_eta]
      exact Prog.exec_bind_ok hran
    · rw [System.gripped_self]
      exact hnext b
  · rename_i e s' hran
    rw [hran] at hspared
    refine hgoes hup (h.stay hplace ?_ (fun hreads => ⟨trivial, hspared hreads⟩) trivial
      fun j hj => System.dropped_other hj)
    rw [g.view.join_eta]
    exact Prog.exec_bind_error hran
  · rename_i s' hran
    rw [hran] at hspared
    refine hgoes hup (h.stay hplace ?_ (fun hreads => ⟨trivial, hspared hreads⟩) trivial
      fun j hj => System.dropped_other hj)
    rw [g.view.join_eta]
    exact Prog.exec_bind_error hran
  · rename_i s' hran
    rw [Stands, if_pos rfl]
    obtain ⟨own₀, hwhole⟩ := hinside.ends
    have hcrash := hwhole.trans (Prog.exec_bind_error hran)
    refine ⟨phase, t, id, op, own₀, h.atomic, hphase, ?_, ?_⟩
    · rw [hcrash]
    · rw [hcrash]

theorem Consistent.drop (h : Consistent g start s history order phase t) {result : Except (Stop ε) ρ}
    (hplace : s.places id = some (.inside op script own)) (hresult : script.result? = some result)
    (hheld : s.holder = some id) :
    Consistent g start { s with holder := none } history order phase t := by
  refine ⟨h.atomic, h.store, fun j => ?_, h.locked, h.nodup, nofun⟩
  have hbefore := h.progress j
  show Progress g t _ (phase j) j (s.places j)
  cases hplace' : s.places j with
  | none => rwa [hplace'] at hbefore
  | some place =>
    rw [hplace'] at hbefore
    cases place with
    | inside op' script' own' =>
      obtain ⟨hphase, hinside⟩ := hbefore
      by_cases hj : j = id
      · subst hj
        obtain ⟨-, rfl, -⟩ := Place.inside.inj (Option.some.inj (hplace'.symm.trans hplace))
        refine ⟨hphase, hinside.ends, hinside.spares, ?_, hinside.admitted⟩
        cases script' with
        | act => cases hresult
        | _ => trivial
      · refine ⟨hphase, hinside.frame rfl ?_ fun _ hj => hj⟩
        rw [hheld]
        exact iff_of_false nofun fun heq => hj (Option.some.inj heq).symm
    | waiting op own => exact hbefore
    | told result => exact hbefore
    | returned => exact hbefore

theorem Consistent.leave (h : Consistent g start s history order phase t)
    {result : Except (Stop ε) ρ} (hplace : s.places id = some (.inside op script own))
    (hresult : script.result? = some result) (hfree : s.holder ≠ some id) :
    ∃ order' phase', Consistent g start
      ({ s with lock := s.lock.release id }.setPlace id (.told result)) history order' phase'
        s.store := by
  obtain ⟨hphase, hinside, hmem⟩ := h.inside hplace
  obtain ⟨own₀, hwhole⟩ := hinside.ends
  obtain ⟨hexec, hnocrash⟩ := Script.exec_of_result hresult (g.view.join s.store own)
  rw [hexec] at hwhole
  have htaken : (g.sequential start).step t op result s.store :=
    ⟨own₀, by rw [hwhole], by rw [hwhole]; exact g.view.seen_join .., hnocrash⟩
  have hreleased := Lock.release_ids hinside.admitted
  refine ⟨_, h.move rfl (h.atomic.effect hphase htaken) (fun _ => rfl) rfl
    (fun j hj hwithin => ?_) (iff_of_false ?_ nofun) (fun j hj => ?_) ?_
    (fun hheld => absurd hheld hfree) fun _ _ => Iff.rfl⟩
  · obtain ⟨op', script', own', hplace'⟩ := hwithin
    have hholds := (h.inside hplace').2.1.admitted
    refine ⟨rfl, h.store fun i hi => ?_, fun alone halone => halone.release hj hmem⟩
    -- two calls have the lock, so that neither has it alone
    have hboth := hinside.admitted
    rw [hi] at hboth hholds
    exact hj (hholds.2.trans hboth.2.symm)
  · show id ∉ (s.lock.release id).ids
    rw [hreleased]
    exact h.nodup.not_mem_erase
  · show j ∈ (s.lock.release id).ids ↔ _
    rw [hreleased, List.mem_erase_of_ne hj]
  · show (s.lock.release id).ids.Nodup
    rw [hreleased]
    exact h.nodup.erase id

theorem Consistent.ret (h : Consistent g start s history order phase t) {result : Except (Stop ε) ρ}
    (hplace : s.places id = some (.told result)) :
    ∃ phase', Consistent g start (s.setPlace id .returned) (history ++ [.returned id result])
      order phase' t := by
  have hphase := h.progress id
  rw [hplace] at hphase
  obtain ⟨hids, hholder⟩ := h.outside id (by rw [hplace]; nofun)
  exact h.move rfl (h.atomic.ret hphase) h.store rfl (fun _ _ _ => ⟨rfl, rfl, fun _ hj => hj⟩)
    (iff_of_false hids nofun) (fun _ _ => Iff.rfl) h.nodup (fun hheld => absurd hheld hholder)
    fun _ _ => Iff.rfl

theorem consistent_new : Consistent g start (.new start) [] [] (fun _ => .absent) start := by
  refine ⟨.start, fun _ => rfl, fun _ => rfl, fun id => ?_, List.nodup_nil, fun _ heq => ?_⟩
  · refine iff_of_false List.not_mem_nil ?_
    rintro ⟨op, script, own, heq⟩
    cases heq
  · cases heq

theorem Stands.performed {action : Action κ ω} {mark : Option (Mark ω (Except (Stop ε) ρ))}
    (h : Stands g start s history order) (ran : s.perform g action = some (s', mark)) :
    ∃ order', Stands g start s' (history ++ mark.toList) order' := by
  unfold System.perform at ran
  split at ran
  · cases ran
  rename_i hup
  rw [Stands, if_neg hup] at h
  obtain ⟨phase, t, h⟩ := h
  have hgoes : ∀ {system : System σ τ κ ε ω ρ} {t' : τ} {marks : List _} {order' : List _},
      (∃ phase', Consistent g start system marks order' phase' t') →
      system.crashed = s.crashed → Stands g start system marks order' :=
    fun ⟨phase', hc⟩ hrunning => by
    rw [Stands, if_neg (hrunning ▸ hup)]
    exact ⟨phase', _, hc⟩
  cases action with
  | call id op own =>
    dsimp only at ran
    split at ran
    · rename_i hplace
      cases ran
      exact ⟨order, hgoes (h.call op own hplace) rfl⟩
    · cases ran
  | enter id =>
    dsimp only at ran
    split at ran
    · rename_i op own hplace
      split at ran
      · rename_i lock hlock
        cases ran
        exact ⟨order, by simpa using hgoes (h.enter hplace hlock) rfl⟩
      · cases ran
    · cases ran
  | step id =>
    dsimp only at ran
    split at ran
    · rename_i op β grip p next own hplace
      obtain ⟨hfree, heq⟩ := Option.ite_none_left_eq_some.mp ran
      cases heq
      refine ⟨order, ?_⟩
      rw [Option.toList_none, List.append_nil]
      refine h.run (by simpa using hup) hplace fun htakes => ?_
      simpa [htakes] using hfree
    · cases ran
  | drop id =>
    dsimp only at ran
    split at ran
    · rename_i op script own hplace
      obtain ⟨⟨hresult, hheld⟩, heq⟩ := Option.ite_none_right_eq_some.mp ran
      cases heq
      obtain ⟨result, hresult⟩ := Option.isSome_iff_exists.mp hresult
      exact ⟨order, by simpa using hgoes ⟨phase, h.drop hplace hresult hheld⟩ rfl⟩
    · cases ran
  | leave id =>
    dsimp only at ran
    split at ran
    · rename_i op script own hplace
      split at ran
      · rename_i result hresult
        obtain ⟨hfree, heq⟩ := Option.ite_none_left_eq_some.mp ran
        cases heq
        obtain ⟨order', hleft⟩ := h.leave hplace hresult hfree
        exact ⟨order', by simpa using hgoes hleft rfl⟩
      · cases ran
    · cases ran
  | ret id =>
    dsimp only at ran
    split at ran
    · rename_i result hplace
      cases ran
      exact ⟨order, hgoes (h.ret hplace) rfl⟩
    · cases ran

theorem Interleaving.stands (h : Interleaving g start history s) :
    ∃ order, Stands g start s history order := by
  induction h with
  | start => exact ⟨[], by rw [Stands, if_neg (by simp [System.new])]; exact ⟨_, _, consistent_new⟩⟩
  | performed action before ran ih =>
    obtain ⟨order, hstands⟩ := ih
    exact hstands.performed ran

/-- Calls of the object at once are calls one after another, in an order that keeps to the history:
whenever no call has the lock alone they have left what is there, and where the process stops, it
does as the next call would in one go. -/
theorem Interleaving.linearizable (h : Interleaving g start history s) :
    ∃ order t, Linearization (g.sequential start) history order ∧
      (g.sequential start).Runs start order t ∧
        (s.crashed = false → (∀ id, s.lock ≠ .exclusive id) → s.store = t) ∧
          (s.crashed = true → ∃ op own,
            ((g.method op).script.whole.exec (g.view.join t own)).1 = .error .crash ∧
              g.view.seen ((g.method op).script.whole.exec (g.view.join t own)).2 = s.store) := by
  obtain ⟨order, hstands⟩ := h.stands
  unfold Stands at hstands
  split at hstands
  · rename_i hcrashed
    obtain ⟨phase, t, id, op, own, hatomic, -, hcrash, hleft⟩ := hstands
    exact ⟨order, t, hatomic.linearization, hatomic.explained.runs,
      fun hup => absurd (hcrashed.symm.trans hup) nofun,
      fun _ => ⟨op, own, hcrash, hleft⟩⟩
  · rename_i hup
    obtain ⟨phase, t, hc⟩ := hstands
    exact ⟨order, t, hc.atomic.linearization, hc.atomic.explained.runs, fun _ => hc.store,
      fun hcrashed => absurd hcrashed hup⟩

end Atomicity

end Guarded

end Hadar.Lib
