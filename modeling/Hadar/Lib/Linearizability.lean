import Mathlib.Data.List.Nodup
import Mathlib.Logic.Function.Basic

/-!
# Linearizability

An object that several clients call at once is linearizable when every call seems to take effect
at one point between its beginning and its end. `Linearization` says so of a history: there is one
order of its calls that a sequential object may go through, in which a call that had returned comes
before those made after that.

`Atomic` is the object for which this holds by construction: a call begins, takes effect on the
sequential object, and returns what came of it, in three steps among those of other calls. So an
implementation is shown linearizable by a simulation, one step of it at a time, and
`Atomic.linearization` turns that into an order.
-/

set_option autoImplicit false

namespace Hadar.Lib

/-- A sequential object: what it starts from, and which results an operation may have and what it
leaves then. -/
structure Sequential (σ ω ρ : Type) where
  start : σ
  step : σ → ω → ρ → σ → Prop

/-- What is seen of calls that are made at once. -/
inductive Mark (ω ρ : Type) where
  | called (id : ℕ) (op : ω)
  | returned (id : ℕ) (result : ρ)

/-- A call that took effect. -/
structure Effect (ω ρ : Type) where
  id : ℕ
  op : ω
  result : ρ

/-- How far a call is. -/
inductive Phase (ω ρ : Type) where
  | absent
  | pending (op : ω)
  | done (result : ρ)
  | finished

variable {σ ω ρ : Type}

/-- The sequential object goes through the effects, one after another. -/
def Sequential.Runs (object : Sequential σ ω ρ) : σ → List (Effect ω ρ) → σ → Prop
  | s, [], s' => s = s'
  | s, e :: rest, s' => ∃ t, object.step s e.op e.result t ∧ Runs object t rest s'

/-- The order explains the history. -/
structure Linearization (object : Sequential σ ω ρ) (history : List (Mark ω ρ))
    (order : List (Effect ω ρ)) : Prop where
  legal : ∃ s, object.Runs object.start order s
  once : (order.map (·.id)).Nodup
  called : ∀ e ∈ order, .called e.id e.op ∈ history
  calledOnce : ∀ id op op', .called id op ∈ history → .called id op' ∈ history → op = op'
  returned : ∀ id result, .returned id result ∈ history → ∃ e ∈ order, e.id = id ∧ e.result = result
  /-- a call that had returned comes before those made later -/
  realTime : ∀ before after, history = before ++ after → ∃ earlier later,
    order = earlier ++ later ∧
      (∀ id result, .returned id result ∈ before → ∃ e ∈ earlier, e.id = id ∧ e.result = result) ∧
      ∀ id op, .called id op ∈ after → ∀ e ∈ earlier, e.id ≠ id

/-- The histories of the atomic object, with the order its calls took effect in, how far each of
them is, and what they left. -/
inductive Atomic (object : Sequential σ ω ρ) :
    List (Mark ω ρ) → List (Effect ω ρ) → (ℕ → Phase ω ρ) → σ → Prop where
  | start : Atomic object [] [] (fun _ => .absent) object.start
  | call {history : List (Mark ω ρ)} {order : List (Effect ω ρ)} {phase : ℕ → Phase ω ρ} {s : σ}
    {id : ℕ} (op : ω) (before : Atomic object history order phase s) (fresh : phase id = .absent) :
    Atomic object (history ++ [.called id op]) order (Function.update phase id (.pending op)) s
  | effect {history : List (Mark ω ρ)} {order : List (Effect ω ρ)} {phase : ℕ → Phase ω ρ}
    {s s' : σ} {id : ℕ} {op : ω} {result : ρ} (before : Atomic object history order phase s)
    (waiting : phase id = .pending op) (taken : object.step s op result s') :
    Atomic object history (order ++ [⟨id, op, result⟩])
      (Function.update phase id (.done result)) s'
  | ret {history : List (Mark ω ρ)} {order : List (Effect ω ρ)} {phase : ℕ → Phase ω ρ} {s : σ}
    {id : ℕ} {result : ρ} (before : Atomic object history order phase s)
    (ended : phase id = .done result) :
    Atomic object (history ++ [.returned id result]) order (Function.update phase id .finished) s

/-! ## Sequences of effects -/

section Runs

variable {object : Sequential σ ω ρ} {s s' s'' : σ} {a b : List (Effect ω ρ)}

theorem Sequential.Runs.append (h : object.Runs s a s') (h' : object.Runs s' b s'') :
    object.Runs s (a ++ b) s'' := by
  induction a generalizing s with
  | nil =>
    cases h
    exact h'
  | cons e rest ih =>
    obtain ⟨t, hstep, hrest⟩ := h
    exact ⟨t, hstep, ih hrest⟩

theorem Sequential.Runs.split (h : object.Runs s (a ++ b) s'') :
    ∃ s', object.Runs s a s' ∧ object.Runs s' b s'' := by
  induction a generalizing s with
  | nil => exact ⟨s, rfl, h⟩
  | cons e rest ih =>
    obtain ⟨t, hstep, hrest⟩ := h
    obtain ⟨s', ha, hb⟩ := ih hrest
    exact ⟨s', ⟨t, hstep, ha⟩, hb⟩

theorem Sequential.runs_singleton {e : Effect ω ρ} (h : object.step s e.op e.result s') :
    object.Runs s [e] s' := ⟨s', h, rfl⟩

end Runs

/-! ## The atomic object -/

namespace Atomic

variable {object : Sequential σ ω ρ} {history : List (Mark ω ρ)} {order : List (Effect ω ρ)}
  {phase : ℕ → Phase ω ρ} {s s' : σ}

/-- Several calls that wait take effect one after another. -/
theorem effects (h : Atomic object history order phase s) {taken : List (Effect ω ρ)}
    (hpending : ∀ e ∈ taken, phase e.id = .pending e.op) (hdistinct : (taken.map (·.id)).Nodup)
    (hruns : object.Runs s taken s') :
    ∃ phase', Atomic object history (order ++ taken) phase' s' ∧
      (∀ e ∈ taken, phase' e.id = .done e.result) ∧
      ∀ id, id ∉ taken.map (·.id) → phase' id = phase id := by
  induction taken generalizing order phase s with
  | nil =>
    cases hruns
    rw [List.append_nil]
    exact ⟨phase, h, fun _ he => absurd he List.not_mem_nil, fun _ _ => rfl⟩
  | cons e rest ih =>
    obtain ⟨t, hstep, hrest⟩ := hruns
    obtain ⟨hfirst, hpending⟩ := List.forall_mem_cons.mp hpending
    rw [List.map_cons, List.nodup_cons] at hdistinct
    obtain ⟨hnew, hdistinct⟩ := hdistinct
    have hother : ∀ x ∈ rest, x.id ≠ e.id := fun x hx heq =>
      hnew (heq ▸ List.mem_map_of_mem hx)
    have hpending' : ∀ x ∈ rest, Function.update phase e.id (.done e.result) x.id =
        .pending x.op := fun x hx => by
      rw [Function.update_of_ne (hother x hx)]
      exact hpending x hx
    obtain ⟨phase', hatomic, hdone, hsame⟩ := ih (h.effect hfirst hstep) hpending' hdistinct hrest
    refine ⟨phase', ?_, List.forall_mem_cons.mpr ⟨?_, hdone⟩, fun id hid => ?_⟩
    · rw [List.append_assoc] at hatomic
      exact hatomic
    · rw [hsame e.id hnew, Function.update_self]
    · rw [List.map_cons, List.mem_cons, not_or] at hid
      rw [hsame id hid.2, Function.update_of_ne hid.1]

/-- A call that waits takes effect and returns. -/
theorem complete {id : ℕ} {op : ω} {result : ρ} (h : Atomic object history order phase s)
    (hpending : phase id = .pending op) (hstep : object.step s op result s') :
    Atomic object (history ++ [.returned id result]) (order ++ [⟨id, op, result⟩])
      (Function.update phase id .finished) s' := by
  have hended : Function.update phase id (.done result) id = .done result :=
    Function.update_self ..
  have hdone := (h.effect hpending hstep).ret hended
  rwa [Function.update_idem] at hdone

/-- The order so far, and how it and the phases of the calls go with the history. -/
structure Explained (object : Sequential σ ω ρ) (history : List (Mark ω ρ))
    (order : List (Effect ω ρ)) (phase : ℕ → Phase ω ρ) (s : σ) : Prop where
  runs : object.Runs object.start order s
  once : (order.map (·.id)).Nodup
  called : ∀ e ∈ order, .called e.id e.op ∈ history
  calledOnce : ∀ id op op', .called id op ∈ history → .called id op' ∈ history → op = op'
  pending : ∀ id op, phase id = .pending op →
    .called id op ∈ history ∧ id ∉ order.map (·.id)
  done : ∀ id result, phase id = .done result → ∃ e ∈ order, e.id = id ∧ e.result = result
  absent : ∀ id, phase id = .absent → ∀ op, .called id op ∉ history
  returned : ∀ id result, .returned id result ∈ history →
    ∃ e ∈ order, e.id = id ∧ e.result = result
  realTime : ∀ before after, history = before ++ after → ∃ earlier later,
    order = earlier ++ later ∧
      (∀ id result, .returned id result ∈ before → ∃ e ∈ earlier, e.id = id ∧ e.result = result) ∧
      ∀ id op, .called id op ∈ after → ∀ e ∈ earlier, e.id ≠ id

/-- A mark more, where it changes no effect. -/
theorem Explained.realTime_concat {phase : ℕ → Phase ω ρ}
    (h : Explained object history order phase s) {mark : Mark ω ρ}
    (hreturned : ∀ id result, mark = .returned id result →
      ∃ e ∈ order, e.id = id ∧ e.result = result)
    (hcalled : ∀ id op, mark = .called id op → id ∉ order.map (·.id)) :
    ∀ before after, history ++ [mark] = before ++ after → ∃ earlier later,
      order = earlier ++ later ∧
        (∀ id result, .returned id result ∈ before →
          ∃ e ∈ earlier, e.id = id ∧ e.result = result) ∧
        ∀ id op, .called id op ∈ after → ∀ e ∈ earlier, e.id ≠ id := by
  intro before after heq
  rcases List.eq_nil_or_concat after with rfl | ⟨front, last, rfl⟩
  · rw [List.append_nil] at heq
    subst heq
    refine ⟨order, [], (List.append_nil _).symm, fun id result hmem => ?_, fun _ _ hmem => ?_⟩
    · rcases List.mem_append.mp hmem with hmem | hmem
      · exact h.returned id result hmem
      · exact hreturned id result (List.mem_singleton.mp hmem).symm
    · exact absurd hmem List.not_mem_nil
  · rw [List.concat_eq_append, ← List.append_assoc] at heq
    obtain ⟨hfront, hlast⟩ := List.append_inj' heq rfl
    obtain rfl := List.singleton_inj.mp hlast
    obtain ⟨earlier, later, horder, hbefore, hafter⟩ := h.realTime before front hfront
    refine ⟨earlier, later, horder, hbefore, fun id op hmem e he => ?_⟩
    rw [List.concat_eq_append] at hmem
    rcases List.mem_append.mp hmem with hmem | hmem
    · exact hafter id op hmem e he
    · refine fun hid => hcalled id op (List.mem_singleton.mp hmem).symm ?_
      rw [horder, ← hid]
      exact List.mem_map_of_mem (List.mem_append_left _ he)

/-- Every history of the atomic object is explained by the order its calls took effect in. -/
theorem explained (h : Atomic object history order phase s) :
    Explained object history order phase s := by
  induction h with
  | start =>
    refine ⟨rfl, List.nodup_nil, ?_, ?_, ?_, ?_, ?_, ?_, fun before after heq => ?_⟩
    · exact fun _ he => absurd he List.not_mem_nil
    · exact fun _ _ _ hmem => absurd hmem List.not_mem_nil
    · exact nofun
    · exact nofun
    · exact fun _ _ _ => List.not_mem_nil
    · exact fun _ _ hmem => absurd hmem List.not_mem_nil
    · obtain ⟨rfl, rfl⟩ := List.append_eq_nil_iff.mp heq.symm
      exact ⟨[], [], rfl, fun _ _ hmem => absurd hmem List.not_mem_nil,
        fun _ _ hmem => absurd hmem List.not_mem_nil⟩
  | @call history order phase s id op before fresh ih =>
    have hnew : id ∉ order.map (·.id) := by
      intro hmem
      obtain ⟨e, he, rfl⟩ := List.mem_map.mp hmem
      exact ih.absent _ fresh _ (ih.called e he)
    have hlast : ∀ {j : ℕ} {op' : ω}, .called j op' ∈ history ++ [.called (ρ := ρ) id op] →
        .called j op' ∈ history ∨ j = id ∧ op' = op := by
      intro j op' hmem
      refine (List.mem_append.mp hmem).imp_right fun hmem => ?_
      cases List.mem_singleton.mp hmem
      exact ⟨rfl, rfl⟩
    refine ⟨ih.runs, ih.once, fun e he => List.mem_append_left _ (ih.called e he),
      fun j a b ha hb => ?_,
      fun j op' hj => ?_, fun j result hj => ?_, fun j hj op' => ?_, fun j result hmem => ?_,
      ih.realTime_concat nofun fun j op' heq => ?_⟩
    · rcases hlast ha with hold | ⟨hid, ha⟩ <;> rcases hlast hb with hold' | ⟨hid', hb⟩
      · exact ih.calledOnce j a b hold hold'
      · exact absurd (hid' ▸ hold) (ih.absent id fresh a)
      · exact absurd (hid ▸ hold') (ih.absent id fresh b)
      · rw [ha, hb]
    · by_cases hid : j = id
      · subst hid
        rw [Function.update_self] at hj
        cases hj
        exact ⟨List.mem_append_right _ (List.mem_singleton_self _), hnew⟩
      · rw [Function.update_of_ne hid] at hj
        exact (ih.pending j op' hj).imp_left (List.mem_append_left _)
    · by_cases hid : j = id
      · subst hid
        rw [Function.update_self] at hj
        cases hj
      · rw [Function.update_of_ne hid] at hj
        exact ih.done j result hj
    · by_cases hid : j = id
      · subst hid
        rw [Function.update_self] at hj
        cases hj
      · rw [Function.update_of_ne hid] at hj
        rw [List.mem_append, not_or]
        refine ⟨ih.absent j hj op', fun hmem => hid ?_⟩
        have heq := List.mem_singleton.mp hmem
        cases heq
        rfl
    · refine ih.returned j result ((List.mem_append.mp hmem).resolve_right fun hmem => ?_)
      cases List.mem_singleton.mp hmem
    · cases heq
      exact hnew
  | @effect history order phase s s' id op result before waiting taken ih =>
    obtain ⟨hcalled, hnew⟩ := ih.pending id op waiting
    refine ⟨ih.runs.append (Sequential.runs_singleton taken), ?_, fun e he => ?_, ih.calledOnce,
      fun j op' hj => ?_, fun j r hj => ?_, fun j hj => ?_, fun j r hmem => ?_,
      fun before' after heq => ?_⟩
    · rw [List.map_append, List.nodup_append]
      refine ⟨ih.once, List.nodup_singleton _, fun a ha b hb heq => ?_⟩
      rw [List.mem_singleton.mp hb] at heq
      obtain rfl : a = id := heq
      exact hnew ha
    · rcases List.mem_append.mp he with he | he
      · exact ih.called e he
      · rw [List.mem_singleton.mp he]
        exact hcalled
    · by_cases hid : j = id
      · subst hid
        rw [Function.update_self] at hj
        cases hj
      · rw [Function.update_of_ne hid] at hj
        obtain ⟨hmem, hout⟩ := ih.pending j op' hj
        refine ⟨hmem, fun hin => ?_⟩
        rw [List.map_append, List.mem_append] at hin
        exact hin.elim hout fun hin => hid (List.mem_singleton.mp hin)
    · by_cases hid : j = id
      · subst hid
        rw [Function.update_self] at hj
        cases hj
        exact ⟨_, List.mem_append_right _ (List.mem_singleton_self _), rfl, rfl⟩
      · rw [Function.update_of_ne hid] at hj
        obtain ⟨e, he, hids⟩ := ih.done j r hj
        exact ⟨e, List.mem_append_left _ he, hids⟩
    · by_cases hid : j = id
      · subst hid
        rw [Function.update_self] at hj
        cases hj
      · rw [Function.update_of_ne hid] at hj
        exact ih.absent j hj
    · obtain ⟨e, he, hids⟩ := ih.returned j r hmem
      exact ⟨e, List.mem_append_left _ he, hids⟩
    · obtain ⟨earlier, later, horder, hbefore, hafter⟩ := ih.realTime before' after heq
      exact ⟨earlier, later ++ [⟨id, op, result⟩], by rw [horder, List.append_assoc], hbefore,
        hafter⟩
  | @ret history order phase s id result before ended ih =>
    have hfound := ih.done id result ended
    have hphase : ∀ {j : ℕ} {p : Phase ω ρ}, p ≠ .finished → Function.update phase id .finished j = p →
        phase j = p := by
      intro j p hne hj
      by_cases hid : j = id
      · subst hid
        rw [Function.update_self] at hj
        exact absurd hj.symm hne
      · rwa [Function.update_of_ne hid] at hj
    have hcalled : ∀ {j : ℕ} {op : ω}, .called j op ∈ history ++ [.returned id result] →
        .called j op ∈ history := by
      intro j op hmem
      refine (List.mem_append.mp hmem).resolve_right fun hmem => ?_
      cases List.mem_singleton.mp hmem
    refine ⟨ih.runs, ih.once, fun e he => List.mem_append_left _ (ih.called e he),
      fun j a b ha hb => ih.calledOnce j a b (hcalled ha) (hcalled hb),
      fun j op hj => ?_, fun j r hj => ih.done j r (hphase nofun hj),
      fun j hj op => ?_, fun j r hmem => ?_,
      ih.realTime_concat (fun j r heq => ?_) nofun⟩
    · exact (ih.pending j op (hphase nofun hj)).imp_left (List.mem_append_left _)
    · rw [List.mem_append, not_or]
      refine ⟨ih.absent j (hphase nofun hj) op, fun hmem => ?_⟩
      cases List.mem_singleton.mp hmem
    · rcases List.mem_append.mp hmem with hmem | hmem
      · exact ih.returned j r hmem
      · cases List.mem_singleton.mp hmem
        exact hfound
    · cases heq
      exact hfound

/-- The order that the calls of the atomic object took effect in is a linearization. -/
theorem linearization (h : Atomic object history order phase s) :
    Linearization object history order :=
  have hexplained := h.explained
  ⟨⟨s, hexplained.runs⟩, hexplained.once, hexplained.called, hexplained.calledOnce,
    hexplained.returned, hexplained.realTime⟩

end Atomic

/-! ## One call after another -/

section Ordered

variable {object : Sequential σ ω ρ} {history before after : List (Mark ω ρ)}
  {order : List (Effect ω ρ)} {i j : ℕ} {op op' : ω} {result result' : ρ}

/-- A call that was made after another one had returned comes after it in the order. -/
theorem Linearization.ordered (h : Linearization object history order)
    (hsplit : history = before ++ after) (hcalled : .called i op ∈ history)
    (hreturned : .returned i result ∈ before) (hcalled' : .called j op' ∈ after)
    (hreturned' : .returned j result' ∈ history) :
    ∃ earlier between later,
      order = earlier ++ ⟨i, op, result⟩ :: between ++ ⟨j, op', result'⟩ :: later := by
  obtain ⟨earlier, later, horder, hbefore, hafter⟩ := h.realTime before after hsplit
  obtain ⟨e, he, rfl, rfl⟩ := hbefore i result hreturned
  obtain ⟨e', he', rfl, rfl⟩ := h.returned j result' hreturned'
  have hop : e.op = op := h.calledOnce _ _ _
    (h.called e (horder ▸ List.mem_append_left _ he)) hcalled
  have hop' : e'.op = op' := h.calledOnce _ _ _ (h.called e' he')
    (hsplit ▸ List.mem_append_right _ hcalled')
  rw [horder] at he'
  obtain ⟨a, b, rfl⟩ := List.append_of_mem he
  obtain ⟨c, d, rfl⟩ := List.append_of_mem
    ((List.mem_append.mp he').resolve_left fun hmem => hafter _ _ hcalled' e' hmem rfl)
  subst hop hop'
  exact ⟨a, b ++ c, d, by rw [horder]; simp⟩

/-- A call that returned is somewhere along the order. -/
theorem Linearization.taken (h : Linearization object history order)
    (hcalled : .called i op ∈ history) (hreturned : .returned i result ∈ history) :
    ∃ earlier later, order = earlier ++ ⟨i, op, result⟩ :: later := by
  obtain ⟨e, he, rfl, rfl⟩ := h.returned i result hreturned
  have hop : e.op = op := h.calledOnce _ _ _ (h.called e he) hcalled
  subst hop
  exact List.append_of_mem he

end Ordered

end Hadar.Lib
