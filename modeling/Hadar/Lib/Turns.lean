import Hadar.Lib.Sharing

/-!
# Whoever waits for the lock has its turn

Those who hold a readers-writer lock can always go on, also where one of them has the resource that
another one needs; and as their scripts come to an end, so does every call.
-/

set_option autoImplicit false

namespace Hadar.Lib

namespace Guarded

variable {σ τ κ ε ω ρ : Type}

/-! ## Every call has its turn -/

section Turns

variable {g : Guarded σ τ κ ε ω ρ} {start : τ} {s s' s'' : System σ τ κ ε ω ρ} {id : ℕ} {op : ω}
  {script : Script σ ε ρ} {own : κ} {actions more : List (Action κ ω)}
  {history marks marks' : List (Mark ω (Except (Stop ε) ρ))}
  {order : List (Effect ω (Except (Stop ε) ρ))}

theorem System.performs_append (h : s.performs g actions = some (s', marks))
    (h' : s'.performs g more = some (s'', marks')) :
    s.performs g (actions ++ more) = some (s'', marks ++ marks') := by
  induction actions generalizing s marks with
  | nil =>
    cases h
    exact h'
  | cons action rest ih =>
    rw [performs] at h
    split at h
    · cases h
    rename_i s₁ mark hfirst
    split at h
    · cases h
    rename_i s₂ marks₂ hrest
    cases h
    rw [List.cons_append, performs, hfirst]
    simp only [ih hrest, List.append_assoc]

theorem System.performs_singleton {action : Action κ ω}
    {mark : Option (Mark ω (Except (Stop ε) ρ))} (h : s.perform g action = some (s', mark)) :
    s.performs g [action] = some (s', mark.toList) := by
  rw [performs, h]
  simp only [performs, List.append_nil]

theorem Interleaving.performs (h : Interleaving g start history s)
    (ran : s.performs g actions = some (s', marks)) :
    Interleaving g start (history ++ marks) s' := by
  induction actions generalizing s history marks with
  | nil =>
    cases ran
    rwa [List.append_nil]
  | cons action rest ih =>
    rw [System.performs] at ran
    split at ran
    · cases ran
    rename_i s₁ mark hfirst
    split at ran
    · cases ran
    rename_i s₂ marks₂ hrest
    cases ran
    rw [← List.append_assoc]
    exact ih (h.performed action hfirst) hrest

/-- A call with the lock has come to its end, or the process has stopped. -/
def Finished (s : System σ τ κ ε ω ρ) (id : ℕ) (s' : System σ τ κ ε ω ρ) : Prop :=
  s'.crashed = true ∨ s'.crashed = false ∧ s'.holder = none ∧ s'.lock = s.lock.release id ∧
    (∃ result, s'.places id = some (.told result)) ∧ ∀ j, j ≠ id → s'.places j = s.places j

/-- A script that has ended lets go. -/
theorem finishes_result {result : Except (Stop ε) ρ} (hup : s.crashed = false)
    (hplace : s.places id = some (.inside op script own)) (hresult : script.result? = some result)
    (hholder : s.holder = none ∨ s.holder = some id) :
    ∃ actions s', s.performs g actions = some (s', []) ∧ Finished s id s' ∧
      ∀ action ∈ actions, action.id = id := by
  have hleave : ∀ s₁ : System σ τ κ ε ω ρ, s₁.crashed = false → s₁.places = s.places →
      s₁.lock = s.lock → s₁.holder = none → ∃ s', s₁.perform g (.leave id) = some (s', none) ∧
        Finished s id s' := by
    intro s₁ hup₁ hplaces hlock hfree
    refine ⟨{ s₁ with lock := s₁.lock.release id }.setPlace id (.told result), ?_,
      .inr ⟨hup₁, hfree, congrArg (Lock.release id) hlock, ⟨result, Function.update_self ..⟩, fun j hj => ?_⟩⟩
    · simp [System.perform, hup₁, hplaces, hplace, hresult, hfree]
    · exact (Function.update_of_ne hj ..).trans (congrFun hplaces j)
  rcases hholder with hfree | hheld
  · obtain ⟨s', hran, hfinished⟩ := hleave s hup rfl rfl hfree
    exact ⟨[.leave id], s', System.performs_singleton hran, hfinished, by simp [Action.id]⟩
  · have hdrop : s.perform g (.drop id) = some ({ s with holder := none }, none) := by
      simp [System.perform, hup, hplace, hresult, hheld]
    obtain ⟨s', hran, hfinished⟩ := hleave { s with holder := none } hup rfl rfl rfl
    exact ⟨[.drop id] ++ [.leave id], s',
      System.performs_append (System.performs_singleton hdrop) (System.performs_singleton hran),
      hfinished, by simp [Action.id]⟩

/-- A call with the lock comes to its end by steps of its own, where nobody else has the
resource. -/
theorem finishes (hup : s.crashed = false) (hplace : s.places id = some (.inside op script own))
    (hnests : script.Nests (decide (s.holder = some id)) fun _ _ => True)
    (hholder : s.holder = none ∨ s.holder = some id) :
    ∃ actions s', s.performs g actions = some (s', []) ∧ Finished s id s' ∧
      ∀ action ∈ actions, action.id = id := by
  induction script generalizing s own with
  | done a => exact finishes_result hup hplace rfl hholder
  | fail e => exact finishes_result hup hplace rfl hholder
  | panic => exact finishes_result hup hplace rfl hholder
  | @act β grip p next ih =>
    have hfree : grip = .takes → s.holder = none := fun htakes => by
      have hnot := hnests.1 htakes
      exact hholder.resolve_right (by simpa using hnot)
    have hran : s.perform g (.step id) = some (s.run g id op grip p next own, none) := by
      have hblocked : ¬ (grip = .takes ∧ s.holder.isSome = true) := by
        rintro ⟨htakes, hsome⟩
        rw [hfree htakes] at hsome
        cases hsome
      simp [System.perform, hup, hplace, hblocked]
    -- what the section leaves lets the rest of the script go on
    have hgripped : s.gripped id grip = none ∨ s.gripped id grip = some id := by
      cases grip with
      | keeps => exact hholder
      | takes => exact .inr rfl
      | gives => rcases hholder with h | h <;> simp [System.gripped, h]
    have hdropped : s.dropped id grip = none ∨ s.dropped id grip = some id := by
      cases grip with
      | keeps => exact hholder
      | takes => exact hholder
      | gives => exact hgripped
    have hrest : ∀ {s₁ : System σ τ κ ε ω ρ}, s.run g id op grip p next own = s₁ →
        s₁.lock = s.lock → (∀ j, j ≠ id → s₁.places j = s.places j) →
        (∃ actions s', s₁.performs g actions = some (s', []) ∧ Finished s₁ id s' ∧
          ∀ action ∈ actions, action.id = id) →
        ∃ actions s', s.performs g actions = some (s', []) ∧ Finished s id s' ∧
          ∀ action ∈ actions, action.id = id := by
      rintro s₁ rfl hlock hothers ⟨actions, s', hmore, hfinished, hown⟩
      refine ⟨[.step id] ++ actions, s',
        System.performs_append (System.performs_singleton hran) hmore, ?_, ?_⟩
      · refine hfinished.imp_right ?_
        rintro ⟨hup', hnone, hlock', htold, hsame⟩
        exact ⟨hup', hnone, hlock'.trans (congrArg _ hlock), htold, fun j hj =>
          (hsame j hj).trans (hothers j hj)⟩
      · simpa [Action.id] using hown
    unfold System.run at hrest
    split at hrest
    · rename_i b s₁ hexec
      refine hrest rfl rfl (fun j hj => Function.update_of_ne hj ..)
        (ih b hup (Function.update_self ..) ?_ hgripped)
      exact System.gripped_self grip ▸ hnests.2 b
    · exact hrest rfl rfl (fun j hj => Function.update_of_ne hj ..)
        (finishes_result hup (Function.update_self ..) rfl hdropped)
    · exact hrest rfl rfl (fun j hj => Function.update_of_ne hj ..)
        (finishes_result hup (Function.update_self ..) rfl hdropped)
    · exact hrest rfl rfl (fun _ _ => rfl) ⟨[], _, rfl, .inl rfl, by simp⟩

theorem Interleaving.consistent (h : Interleaving g start history s) (hup : s.crashed = false) :
    ∃ order phase t, Consistent g start s history order phase t := by
  obtain ⟨order, hstands⟩ := h.stands
  rw [Stands, if_neg (by simp [hup])] at hstands
  exact ⟨order, hstands⟩

/-- One of those who have the lock comes to its end: the one with the resource, if there is one. -/
theorem Interleaving.one_finishes (h : Interleaving g start history s) (hup : s.crashed = false)
    (hheld : s.lock.ids ≠ []) : ∃ id ∈ s.lock.ids, ∃ actions s',
      s.performs g actions = some (s', []) ∧ Finished s id s' ∧
        ∀ action ∈ actions, action.id = id := by
  obtain ⟨order, phase, t, hc⟩ := h.consistent hup
  have hgo : ∀ id ∈ s.lock.ids, s.holder = none ∨ s.holder = some id → ∃ actions s',
      s.performs g actions = some (s', []) ∧ Finished s id s' ∧
        ∀ action ∈ actions, action.id = id := by
    intro id hmem hholder
    obtain ⟨op, script, own, hplace⟩ := (hc.locked id).mp hmem
    exact finishes hup hplace (hc.inside hplace).2.1.nests hholder
  cases hholder : s.holder with
  | some id =>
    have hmem := (hc.locked id).mpr (hc.holder id hholder)
    exact ⟨id, hmem, hgo id hmem (.inr hholder)⟩
  | none =>
    obtain ⟨id, hmem⟩ := List.exists_mem_of_ne_nil _ hheld
    exact ⟨id, hmem, hgo id hmem (.inl hholder)⟩

/-- Everybody with the lock has come to an end, or the process has stopped. -/
def Drained (s s' : System σ τ κ ε ω ρ) : Prop :=
  s'.crashed = true ∨ s'.crashed = false ∧ s'.lock.ids = [] ∧
    (∀ j ∈ s.lock.ids, ∃ result, s'.places j = some (.told result)) ∧
      ∀ j, j ∉ s.lock.ids → s'.places j = s.places j

theorem Interleaving.drains (h : Interleaving g start history s) (hup : s.crashed = false) :
    ∃ actions s', s.performs g actions = some (s', []) ∧ Drained s s' ∧
      ∀ action ∈ actions, action.id ∈ s.lock.ids := by
  induction hn : s.lock.ids.length generalizing s history with
  | zero =>
    have hnobody := List.length_eq_zero_iff.mp hn
    exact ⟨[], s, rfl, .inr ⟨hup, hnobody, by simp [hnobody], fun _ _ => rfl⟩, by simp⟩
  | succ n ih =>
    have hheld : s.lock.ids ≠ [] := by
      intro heq
      rw [heq] at hn
      cases hn
    obtain ⟨id, hmem, actions, s₁, hran, hfinished, hown⟩ := h.one_finishes hup hheld
    obtain ⟨order, phase, t, hc⟩ := h.consistent hup
    have hmine : ∀ action ∈ actions, action.id ∈ s.lock.ids := fun action haction =>
      hown action haction ▸ hmem
    rcases hfinished with hcrashed | ⟨hup₁, -, hlock, htold, hsame⟩
    · exact ⟨actions, s₁, hran, .inl hcrashed, hmine⟩
    obtain ⟨op, script, own, hplace⟩ := (hc.locked id).mp hmem
    have hids : s₁.lock.ids = s.lock.ids.erase id := by
      rw [hlock, Lock.release_ids (hc.inside hplace).2.1.admitted]
    have hfewer : s₁.lock.ids.length = n := by
      rw [hids, List.length_erase_of_mem hmem, hn]
      rfl
    obtain ⟨more, s', hmore, hdrained, hothers⟩ := ih (h.performs hran) hup₁ hfewer
    have hsub : ∀ j, j ∈ s₁.lock.ids → j ∈ s.lock.ids := fun j hj =>
      List.mem_of_mem_erase (hids ▸ hj)
    refine ⟨actions ++ more, s', System.performs_append hran hmore, hdrained.imp_right ?_,
      List.forall_mem_append.mpr ⟨hmine, fun action haction => hsub _ (hothers action haction)⟩⟩
    rintro ⟨hup', hnobody, hdone, hkept⟩
    have hout : id ∉ s₁.lock.ids := by
      rw [hids]
      exact hc.nodup.not_mem_erase
    refine ⟨hup', hnobody, fun j hj => ?_, fun j hj => ?_⟩
    · by_cases hid : j = id
      · subst hid
        rw [hkept j hout]
        exact htold
      · exact hdone j (hids ▸ (List.mem_erase_of_ne hid).mpr hj)
    · rw [hkept j fun hin => hj (hsub j hin)]
      exact hsame j fun hid => hj (hid ▸ hmem)

theorem Lock.grant_free {lock : Lock} (h : lock.ids = []) (id : ℕ) (alone : Bool) :
    ∃ lock', lock.grant id alone = some lock' := by
  cases lock with
  | exclusive => cases h
  | shared ids =>
    obtain rfl : ids = [] := h
    cases alone with
    | true => exact ⟨_, rfl⟩
    | false => exact ⟨_, rfl⟩

theorem perform_enter {lock : Lock} (hup : s.crashed = false)
    (hplace : s.places id = some (.waiting op own))
    (hlock : s.lock.grant id (g.method op).exclusive = some lock) :
    s.perform g (.enter id) = some ({ s with lock := lock }.setPlace id
      (.inside op (g.method op).script own), none) := by
  simp [System.perform, hup, hplace, hlock]

theorem performs_ret {result : Except (Stop ε) ρ} (hup : s.crashed = false)
    (hplace : s.places id = some (.told result)) :
    s.performs g [.ret id] = some (s.setPlace id .returned, [.returned id result]) := by
  simp [System.performs, System.perform, hup, hplace]

/-- Whoever waits comes to its end alone once nobody has the lock. -/
theorem Interleaving.passes (h : Interleaving g start history s) (hup : s.crashed = false)
    (hfree : s.lock.ids = []) (hplace : s.places id = some (.waiting op own)) :
    ∃ actions s', s.performs g actions = some (s', []) ∧
      (s'.crashed = true ∨ s'.crashed = false ∧ ∃ result, s'.places id = some (.told result)) ∧
        ∀ action ∈ actions, action.id = id := by
  obtain ⟨order, phase, t, hc⟩ := h.consistent hup
  obtain ⟨lock, hlock⟩ := Lock.grant_free hfree id (g.method op).exclusive
  have hnone : s.holder = none := by
    cases hholder : s.holder with
    | none => rfl
    | some j =>
      have hmem := (hc.locked j).mpr (hc.holder j hholder)
      rw [hfree] at hmem
      cases hmem
  have hnests : (g.method op).script.Nests (decide (s.holder = some id)) fun _ _ => True := by
    rw [hnone]
    exact g.nests op
  have hentered : ∀ s₁ : System σ τ κ ε ω ρ, s₁ = { s with lock := lock }.setPlace id
      (.inside op (g.method op).script own) → ∃ actions s', s₁.performs g actions = some (s', []) ∧
        Finished s₁ id s' ∧ ∀ action ∈ actions, action.id = id := by
    rintro s₁ rfl
    exact finishes hup (Function.update_self ..) hnests (.inl hnone)
  obtain ⟨actions, s', hran, hfinished, hown⟩ := hentered _ rfl
  refine ⟨[.enter id] ++ actions, s', System.performs_append
    (System.performs_singleton (perform_enter hup hplace hlock)) hran, ?_, ?_⟩
  · exact hfinished.imp_right fun ⟨hup', _, _, htold, _⟩ => ⟨hup', htold⟩
  · simpa [Action.id] using hown

/-- Every call can be brought to its end. -/
theorem Interleaving.returns (h : Interleaving g start history s) (hup : s.crashed = false)
    {place : Place σ κ ε ω ρ} (hplace : s.places id = some place) (hlive : place ≠ .returned) :
    ∃ actions s' marks, s.performs g actions = some (s', marks) ∧
      (s'.crashed = true ∨ ∃ result, .returned id result ∈ marks) ∧
        ∀ action ∈ actions, action.id = id ∨ action.id ∈ s.lock.ids := by
  obtain ⟨order, phase, t, hc⟩ := h.consistent hup
  have htold : ∀ (actions : List (Action κ ω)) (s₁ : System σ τ κ ε ω ρ),
      s.performs g actions = some (s₁, []) →
      (∀ action ∈ actions, action.id = id ∨ action.id ∈ s.lock.ids) →
      (s₁.crashed = true ∨ s₁.crashed = false ∧ ∃ result, s₁.places id = some (.told result)) →
      ∃ actions s' marks, s.performs g actions = some (s', marks) ∧
        (s'.crashed = true ∨ ∃ result, .returned id result ∈ marks) ∧
          ∀ action ∈ actions, action.id = id ∨ action.id ∈ s.lock.ids := by
    rintro actions s₁ hran hwho (hcrashed | ⟨hup₁, result, hplace₁⟩)
    · exact ⟨actions, s₁, [], hran, .inl hcrashed, hwho⟩
    · refine ⟨actions ++ [.ret id], _, _,
        System.performs_append hran (performs_ret hup₁ hplace₁), .inr ⟨result, ?_⟩, ?_⟩
      · exact List.mem_singleton_self _
      · exact List.forall_mem_append.mpr ⟨hwho, by simp [Action.id]⟩
  cases place with
  | returned => exact absurd rfl hlive
  | told result => exact htold [] s rfl (by simp) (.inr ⟨hup, result, hplace⟩)
  | inside op script own =>
    obtain ⟨actions, s₁, hran, hdrained, hwho⟩ := h.drains hup
    exact htold _ _ hran (fun action haction => .inr (hwho action haction)) (hdrained.imp_right
      fun ⟨hup₁, _, hdone, _⟩ => ⟨hup₁, hdone id (hc.inside hplace).2.2⟩)
  | waiting op own =>
    obtain ⟨actions, s₁, hran, hdrained, hwho⟩ := h.drains hup
    have hwho' : ∀ action ∈ actions, action.id = id ∨ action.id ∈ s.lock.ids :=
      fun action haction => .inr (hwho action haction)
    rcases hdrained with hcrashed | ⟨hup₁, hfree, -, hsame⟩
    · exact htold _ _ hran hwho' (.inl hcrashed)
    have hout := (hc.outside id (by rw [hplace]; nofun)).1
    obtain ⟨more, s', hmore, hend, hown⟩ :=
      (h.performs hran).passes hup₁ hfree ((hsame id hout).trans hplace)
    exact htold _ _ (System.performs_append hran hmore)
      (List.forall_mem_append.mpr ⟨hwho', fun action haction => .inl (hown action haction)⟩) hend

/-- Where the process runs, whoever waits for the lock can have it while nobody has it, and one of
those who have it can go on while somebody does. -/
theorem Interleaving.unblocked (h : Interleaving g start history s) (hup : s.crashed = false) :
    (s.lock.ids = [] → ∀ id op own, s.places id = some (.waiting op own) →
      (s.perform g (.enter id)).isSome = true) ∧
    (s.lock.ids ≠ [] → ∃ action : Action κ ω, action.id ∈ s.lock.ids ∧
      (s.perform g action).isSome = true) := by
  refine ⟨fun hfree id op own hplace => ?_, fun hheld => ?_⟩
  · obtain ⟨lock, hlock⟩ := Lock.grant_free hfree id (g.method op).exclusive
    rw [perform_enter hup hplace hlock]
    rfl
  · obtain ⟨order, phase, t, hc⟩ := h.consistent hup
    obtain ⟨id, hmem, actions, s', hran, hfinished, hown⟩ := h.one_finishes hup hheld
    obtain ⟨op, script, own, hplace⟩ := (hc.locked id).mp hmem
    cases actions with
    | nil =>
      -- it is not at its end yet
      cases hran
      rcases hfinished with hcrashed | ⟨-, -, -, ⟨result, htold⟩, -⟩
      · rw [hup] at hcrashed
        cases hcrashed
      · cases hplace.symm.trans htold
    | cons action rest =>
      refine ⟨action, hown action List.mem_cons_self ▸ hmem, ?_⟩
      rw [System.performs] at hran
      split at hran
      · cases hran
      · rename_i hfirst
        rw [hfirst]
        rfl

end Turns

end Guarded

end Hadar.Lib
