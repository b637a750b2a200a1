import Hadar.Analysis.Waiting

/-!
# Who is told what

What a write is told comes from the thread, or it is that nobody is left to answer. So a write that
the thread told nothing, as it was cut short with the batch in hand, was told no more than that.
-/

set_option autoImplicit false

namespace Hadar.Wal

open Hadar.Lib Hadar.Lib.Prog Hadar.Storage Hadar.Mvcc

/-! ## The thread -/

section Thread

/-- The thread has done what it had done, and maybe more. -/
def Thread.Onward (t t' : Thread) : Prop := t.deeds <+: t'.deeds

theorem Thread.Onward.refl (t : Thread) : t.Onward t := List.prefix_refl _

theorem Thread.Onward.trans {t t' t'' : Thread} (h : t.Onward t') (h' : t'.Onward t'') :
    t.Onward t'' := List.IsPrefix.trans h h'

theorem onward_bind {α β : Type} {p : Prog Thread Error α} {f : α → Prog Thread Error β}
    (hp : Moves Thread.Onward p) (hf : ∀ a, Moves Thread.Onward (f a)) :
    Moves Thread.Onward (p >>= f) :=
  Moves.bind (R := Thread.Onward) (fun h h' => h.trans h') hp hf

theorem onward_onWriter {α : Type} (p : Prog Writer Error α) :
    Moves Thread.Onward (Thread.onWriter p) :=
  Moves.zoom (Q := fun _ _ => True) (fun _ => trivial) _ fun t _ _ => Thread.Onward.refl t

theorem onward_note (deeds : List Deed) : Moves Thread.Onward (Thread.note deeds) :=
  moves_modify fun _ => List.prefix_append _ _

theorem onward_retireBatch [Crc32] (batch : List (ℕ × Request)) :
    Moves Thread.Onward (retireBatch batch) := by
  unfold retireBatch
  split
  · exact moves_pure Thread.Onward.refl ()
  · exact onward_bind (onward_onWriter _).attempt fun _ =>
      onward_bind (onward_note _) fun _ => onward_note _

theorem onward_checkpointIfDue (interval : ℕ) (requested : Option ℕ) :
    Moves Thread.Onward (checkpointIfDue interval requested) := by
  unfold checkpointIfDue
  extract_lets reset
  cases requested with
  | some respond =>
    refine onward_bind (onward_onWriter _).attempt fun outcome =>
      onward_bind (onward_note _) fun _ => ?_
    split
    · exact onward_bind (onward_onWriter _) fun _ => onward_note _
    · exact onward_note _
  | none =>
    refine onward_bind (moves_get Thread.Onward.refl) fun t => ?_
    split
    · refine onward_bind (onward_onWriter _).attempt fun outcome =>
        onward_bind (onward_note _) fun _ => ?_
      split
      · exact onward_onWriter _
      · exact moves_pure Thread.Onward.refl ()
    · exact moves_pure Thread.Onward.refl ()

/-- The thread takes nothing back.
SOURCE: crates/wal/src/writer.rs:126-172 -/
theorem advance_onward [Crc32] {s s' : System} {interval : ℕ} (h : s.advance interval = some s') :
    s.thread.Onward s'.thread := by
  have hafter : ∀ (stage : Stage) (p : Prog Thread Error Unit), Moves Thread.Onward p →
      s.thread.Onward (s.after stage p).thread := by
    intro stage p hp
    have hmoved := hp s.thread
    unfold System.after
    split <;> rename_i hexec <;> rw [hexec] at hmoved <;> exact hmoved
  unfold System.advance at h
  split at h
  · split at h
    · cases h
      exact List.prefix_append _ _
    · split at h <;> cases h
      exact Thread.Onward.refl _
  · split at h
    · split at h <;> cases h
      · exact List.prefix_append _ _
      · exact Thread.Onward.refl _
    · cases h
      exact Thread.Onward.refl _
  · cases h
    exact hafter _ _ (onward_retireBatch _)
  · cases h
    exact hafter _ _ (onward_checkpointIfDue _ _)
  · cases h
  · cases h
  · cases h

end Thread

/-! ## Writes that the thread told nothing -/

section Unheard

variable {base log : List Mutation} {s s' s₀ : System} {history : List (Mark Ask Outcome)}
  {order : List (Effect Ask Outcome)} {phase : ℕ → Phase Ask Outcome} {interval : ℕ}

/-- What a write is told without the thread: it asked for nothing, or nobody is left to answer. -/
def Unspoken (result : Except Error (List Revision)) : Prop :=
  result = .ok [] ∨ result = .error .shutdown

/-- Writes that the thread told nothing were told nothing else. -/
structure Unheard (history : List (Mark Ask Outcome)) (s : System) : Prop where
  returned : ∀ id result, .returned id (.write result) ∈ history → Silent id s.thread.deeds →
    Unspoken result
  told : ∀ id result, s.places id = some (.told (.write result)) → Silent id s.thread.deeds →
    Unspoken result

theorem unheard_start (w : Writer) (replies : List Reply) (calls : List Storage.Reply)
    (spawned : Bool) : Unheard [] (System.opened w replies calls spawned) :=
  ⟨fun _ _ h => absurd h List.not_mem_nil, nofun⟩

theorem unspoken_refused {message : Message} {result : Except Error (List Revision)}
    (h : message.refused = .write result) : Unspoken result := by
  cases message with
  | write id request => exact .inr (Outcome.write.inj h).symm
  | checkpoint id => cases h

/-- A step that tells no write anything, or tells it so. -/
theorem Unheard.step (h : Unheard history s) {more : List (Mark Ask Outcome)}
    (hdeeds : s.thread.Onward s'.thread)
    (hplaces : ∀ id result, s'.places id = some (.told (.write result)) →
      s.places id = some (.told (.write result)) ∨ Unspoken result)
    (hmore : ∀ id result, .returned id (.write result) ∈ more → Silent id s.thread.deeds →
      Unspoken result) : Unheard (history ++ more) s' := by
  have hquiet : ∀ id, Silent id s'.thread.deeds → Silent id s.thread.deeds := fun id hsilent => by
    obtain ⟨rest, hrest⟩ := hdeeds
    rw [← hrest] at hsilent
    exact (silent_append.mp hsilent).1
  refine ⟨fun id result hmem hsilent => ?_, fun id result hplace hsilent => ?_⟩
  · exact (List.mem_append.mp hmem).elim (fun hold => h.returned id result hold (hquiet id hsilent))
      fun hnew => hmore id result hnew (hquiet id hsilent)
  · exact (hplaces id result hplace).elim (fun hold => h.told id result hold (hquiet id hsilent))
      fun hplain => hplain

/-- A call goes on, and is told nothing, or so. -/
theorem Unheard.move (h : Unheard history s) {id : ℕ} {place : Place} {more : List (Mark Ask Outcome)}
    (hdeeds : s'.thread.deeds = s.thread.deeds)
    (hplaces : s'.places = Function.update s.places id (some place))
    (hplace : ∀ result, place = .told (.write result) → Unspoken result)
    (hmore : ∀ id result, .returned id (.write result) ∈ more → Silent id s.thread.deeds →
      Unspoken result) : Unheard (history ++ more) s' := by
  refine h.step (hdeeds ▸ List.prefix_refl _ : _ <+: _) (fun j result hj => ?_) hmore
  rw [hplaces] at hj
  by_cases hid : j = id
  · subst hid
    rw [Function.update_self] at hj
    exact .inr (hplace result (Option.some.inj hj))
  · rw [Function.update_of_ne hid] at hj
    exact .inl hj

/-- A write that returned was told how its write went. -/
theorem writeResult_of_linear (h : Linearization (logObject base) history order)
    {e : Effect Ask Outcome} (he : e ∈ order) {mutations : List Mutation}
    (hcalled : .called e.id (.write mutations) ∈ history) :
    ∃ result, e.result = .write result := by
  obtain ⟨before, after, rfl⟩ := List.append_of_mem he
  obtain ⟨_, hruns⟩ := h.legal
  obtain ⟨_, -, _, hstep, -⟩ := hruns.split
  rw [h.calledOnce _ _ _ (h.called e he) hcalled] at hstep
  generalize e.result = outcome at hstep
  cases hstep <;> exact ⟨_, rfl⟩

variable [Crc32]

/-- A step of any party. -/
theorem Unheard.perform (h : Unheard history s)
    (hconsistent : Consistent base s history order phase log) {action : Action}
    {mark : Option (Mark Ask Outcome)} (ran : s.perform interval action = some (s', mark)) :
    Unheard (history ++ mark.toList) s' := by
  have hnone : ∀ id result, .returned id (.write result) ∈
      (Option.none : Option (Mark Ask Outcome)).toList → Silent id s.thread.deeds →
        Unspoken result := fun _ _ hmem => absurd hmem List.not_mem_nil
  have hone : ∀ {i : ℕ} {outcome : Outcome}, (∀ result, outcome = .write result →
      Silent i s.thread.deeds → Unspoken result) → ∀ id result, .returned id (.write result) ∈
        (some (Mark.returned i outcome) : Option (Mark Ask Outcome)).toList →
          Silent id s.thread.deeds → Unspoken result := by
    intro i outcome hplain id result hmem hsilent
    cases List.mem_singleton.mp hmem
    exact hplain result rfl hsilent
  unfold System.perform at ran
  split at ran
  · cases ran
  cases action with
  | call id ask =>
    dsimp only at ran
    split at ran <;> cases ran
    refine h.move rfl rfl (fun result hplace => ?_) fun _ _ hmem => ?_
    · cases ask with
      | write mutations =>
        cases mutations with
        | nil =>
          cases hplace
          exact .inl rfl
        | cons => cases hplace
      | checkpoint => cases hplace
      | range => cases hplace
    · cases List.mem_singleton.mp hmem
  | send id =>
    dsimp only at ran
    split at ran
    · rename_i message hplace
      split at ran
      · cases ran
        exact h.move rfl rfl (fun _ htold => unspoken_refused (Place.told.inj htold)) hnone
      · split at ran <;> cases ran
        exact h.move rfl rfl nofun hnone
    · cases ran
  | read id calls =>
    dsimp only at ran
    split at ran <;> cases ran
    unfold System.read
    split
    · exact h.step (List.prefix_refl _) (fun _ _ hplace => .inl hplace) hnone
    · exact h.move rfl rfl nofun hnone
  | ret id =>
    dsimp only at ran
    split at ran
    · rename_i outcome hplace
      cases ran
      exact h.move rfl rfl nofun (hone fun result heq => h.told id result (heq ▸ hplace))
    · rename_i message hplace
      have hown := hconsistent.progress id
      rw [hplace] at hown
      split at ran
      · rename_i outcome hanswer
        cases ran
        refine h.move rfl rfl nofun (hone fun result _ hsilent => ?_)
        rw [← hown.1] at hsilent
        rw [hsilent.answer] at hanswer
        cases hanswer
      · split at ran <;> cases ran
        exact h.move rfl rfl nofun (hone fun _ heq _ => unspoken_refused heq)
    · cases ran
  | drop id =>
    dsimp only at ran
    split at ran <;> cases ran <;> exact h.move rfl rfl nofun hnone
  | shutdown =>
    dsimp only at ran
    split at ran <;> cases ran
    exact h.step (List.prefix_refl _) (fun _ _ hplace => .inl hplace) hnone
  | join =>
    dsimp only at ran
    split at ran
    · split at ran <;> cases ran
      exact h.step (List.prefix_refl _) (fun _ _ hplace => .inl hplace) hnone
    · cases ran
  | advance =>
    obtain ⟨s₁, hadvance, heq⟩ := Option.map_eq_some_iff.mp ran
    cases heq
    refine h.step (advance_onward hadvance) (fun _ _ hplace => .inl ?_) hnone
    rwa [(advance_work hadvance).2] at hplace

theorem Interleaving.unheard (h : Interleaving interval s₀ history s)
    (hstart : Consistent base s₀ [] [] (fun _ => .absent) base) (hunheard : Unheard [] s₀) :
    Unheard history s := by
  induction h with
  | start => exact hunheard
  | performed action before ran ih =>
    obtain ⟨order, phase, log, hconsistent⟩ := before.consistent hstart
    exact ih.perform hconsistent ran

end Unheard

end Hadar.Wal
