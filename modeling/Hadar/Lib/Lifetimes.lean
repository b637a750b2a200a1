import Mathlib.Tactic.Common
import Mathlib.Data.List.DropRight
import Mathlib.Data.List.Basic

/-!
# Lives within a log of events

A log of dated events of one thing, some of which end its life. The thing is alive at a
date when the last event up to then did not end its life, and the events of that life are
the ones since the last death. `retained` is the log after everything below a watermark
was forgotten that no later date can tell apart: an event survives when it is past the
watermark, when it is the one in force there, or when it is a death of something that was
not alive. What survives of a life at a later date is what that life holds of the retained
log, which is the content of `life_retained`.
-/

set_option autoImplicit false

namespace Hadar.Lib

section Lifetimes

variable {ε : Type} (date : ε → ℕ) (dies : ε → Bool)

/-- The events dated `at_` or before. -/
def upTo (at_ : ℕ) (log : List ε) : List ε := log.filter fun e => date e ≤ at_

/-- The events since the last death. -/
def life (log : List ε) : List ε := log.rtakeWhile fun e => !dies e

/-- Events in strictly ascending order of their dates. -/
def Dated (log : List ε) : Prop := log.Pairwise fun a b => date a < date b

variable {date dies} {log l r : List ε} {e : ε} {at_ w : ℕ}

/-! ## Dates -/

theorem upTo_append : upTo date at_ (l ++ r) = upTo date at_ l ++ upTo date at_ r :=
  List.filter_append ..

theorem mem_upTo : e ∈ upTo date at_ log ↔ e ∈ log ∧ date e ≤ at_ := by
  simp [upTo]

theorem upTo_eq_self (h : ∀ e ∈ log, date e ≤ at_) : upTo date at_ log = log :=
  List.filter_eq_self.mpr fun e he => decide_eq_true (h e he)

theorem upTo_eq_nil (h : ∀ e ∈ log, at_ < date e) : upTo date at_ log = [] :=
  List.filter_eq_nil_iff.mpr fun e he => by simpa using h e he

/-- An event past the date does not count. -/
theorem upTo_concat_of_lt (h : at_ < date e) : upTo date at_ (log ++ [e]) = upTo date at_ log := by
  have hone : upTo date at_ [e] = [] := upTo_eq_nil (by simpa using h)
  rw [upTo_append, hone, List.append_nil]

/-- Cutting twice is cutting at the earlier date. -/
theorem upTo_upTo (h : w ≤ at_) : upTo date w (upTo date at_ log) = upTo date w log := by
  unfold upTo
  rw [List.filter_filter]
  refine List.filter_congr fun e _ => ?_
  have : date e ≤ w → date e ≤ at_ := fun h' => h'.trans h
  by_cases h' : date e ≤ w <;> simp [h', this]

theorem Dated.sublist (h : Dated date log) (hl : l.Sublist log) : Dated date l :=
  List.Pairwise.sublist hl h

theorem Dated.append_left (h : Dated date (l ++ r)) : Dated date l :=
  (List.pairwise_append.mp h).1

theorem Dated.lt_of_concat (h : Dated date (log ++ [e])) : ∀ x ∈ log, date x < date e := by
  intro x hx
  exact (List.pairwise_append.mp h).2.2 x hx e (List.mem_singleton_self e)

/-- What stands before an event is older than it, what stands after is younger. -/
theorem Dated.around {before after : List ε} {d : ε} (h : Dated date (before ++ d :: after)) :
    (∀ x ∈ before, date x < date d) ∧ ∀ x ∈ after, date d < date x := by
  obtain ⟨-, hright, hcross⟩ := List.pairwise_append.mp h
  exact ⟨fun x hx => hcross x hx d (List.mem_cons_self ..), (List.pairwise_cons.mp hright).1⟩

/-- In a dated log the date tells the event. -/
theorem Dated.eq_of_date {x y : ε} (h : Dated date log) (hx : x ∈ log) (hy : y ∈ log)
    (hd : date x = date y) : x = y := by
  obtain ⟨before, after, rfl⟩ := List.append_of_mem hx
  obtain ⟨hbefore, hafter⟩ := h.around
  rcases List.mem_append.mp hy with hy | hy
  · have := hbefore y hy
    omega
  · rcases List.mem_cons.mp hy with rfl | hy
    · rfl
    · have := hafter y hy
      omega

/-- The last event of a dated log is the youngest. -/
theorem Dated.getLast?_iff (h : Dated date log) :
    log.getLast? = some e ↔ e ∈ log ∧ ∀ x ∈ log, date x ≤ date e := by
  obtain rfl | ⟨front, last, rfl⟩ := List.eq_nil_or_concat log
  · simp
  · rw [List.concat_eq_append] at h ⊢
    rw [List.getLast?_concat, Option.some_inj]
    constructor
    · rintro rfl
      refine ⟨by simp, fun x hx => ?_⟩
      rcases List.mem_append.mp hx with hx | hx
      · exact (h.lt_of_concat x hx).le
      · exact (congrArg date (List.mem_singleton.mp hx)).le
    · rintro ⟨hin, hyoungest⟩
      rcases List.mem_append.mp hin with hin | hin
      · have := h.lt_of_concat e hin
        have := hyoungest last (by simp)
        omega
      · exact (List.mem_singleton.mp hin).symm

/-! ## Lives -/

@[simp] theorem life_nil : life dies ([] : List ε) = [] := List.rtakeWhile_nil _

/-- An event that does not end the life belongs to it. -/
theorem life_concat_alive (h : dies e = false) : life dies (log ++ [e]) = life dies log ++ [e] :=
  List.rtakeWhile_concat_pos _ _ _ (by simp [h])

/-- A death leaves no life behind. -/
theorem life_concat_dies (h : dies e = true) : life dies (log ++ [e]) = [] :=
  List.rtakeWhile_concat_neg _ _ _ (by simp [h])

theorem alive_of_mem_life (h : e ∈ life dies log) : dies e = false := by
  simpa using List.mem_rtakeWhile_imp h

theorem life_suffix : life dies log <:+ log := List.rtakeWhile_suffix _ _

theorem mem_of_mem_life (h : e ∈ life dies log) : e ∈ log := life_suffix.subset h

/-- Events that end nothing extend the life they follow. -/
theorem life_append_alive (h : ∀ e ∈ r, dies e = false) :
    life dies (l ++ r) = life dies l ++ r := by
  induction r using List.reverseRecOn with
  | nil => simp
  | append_singleton r e ih =>
    have hr : ∀ e ∈ r, dies e = false := fun x hx => h x (by simp [hx])
    rw [← List.append_assoc, life_concat_alive (h e (by simp)), ih hr, List.append_assoc]

/-- What precedes a death does not matter to the life. -/
theorem life_append_dies (h : dies e = true) : life dies (l ++ e :: r) = life dies r := by
  induction r using List.reverseRecOn with
  | nil => simpa using @life_concat_dies _ dies l e h
  | append_singleton r x ih =>
    have hassoc : l ++ e :: (r ++ [x]) = (l ++ e :: r) ++ [x] := by simp
    rw [hassoc]
    cases hx : dies x with
    | false => rw [life_concat_alive hx, life_concat_alive hx, ih]
    | true => rw [life_concat_dies hx, life_concat_dies hx]

/-- A log is what precedes its life, which is nothing or ends in a death, and the life. -/
theorem life_split (dies : ε → Bool) (log : List ε) : ∃ before, log = before ++ life dies log ∧
    (before = [] ∨ ∃ earlier d, before = earlier ++ [d] ∧ dies d = true) := by
  induction log using List.reverseRecOn with
  | nil => exact ⟨[], by simp, .inl rfl⟩
  | append_singleton log e ih =>
    cases he : dies e with
    | false =>
      obtain ⟨before, hlog, hbefore⟩ := ih
      refine ⟨before, ?_, hbefore⟩
      rw [life_concat_alive he, ← List.append_assoc, ← hlog]
    | true =>
      refine ⟨log ++ [e], ?_, .inr ⟨log, e, rfl, he⟩⟩
      rw [life_concat_dies he, List.append_nil]

/-! ## What a watermark retains -/

variable (date dies)

/-- The event in force at the date, if the thing is alive then. -/
def inForce (at_ : ℕ) (log : List ε) : Option ε := (life dies (upTo date at_ log)).getLast?

/-- A death of something not alive. -/
def Idle (log : List ε) (e : ε) : Prop :=
  dies e = true ∧ life dies (log.filter fun x => date x < date e) = []

instance [DecidableEq ε] (log : List ε) (e : ε) : Decidable (Idle date dies log e) :=
  inferInstanceAs (Decidable (_ ∧ _))

/-- Whether an event survives forgetting what lies below the watermark. -/
def Survives (w : ℕ) (log : List ε) (e : ε) : Prop :=
  w < date e ∨ inForce date dies w log = some e ∨ Idle date dies log e

instance [DecidableEq ε] (w : ℕ) (log : List ε) (e : ε) :
    Decidable (Survives date dies w log e) :=
  inferInstanceAs (Decidable (_ ∨ _))

variable {date dies}

theorem mem_of_inForce (h : inForce date dies at_ log = some e) :
    e ∈ log ∧ date e ≤ at_ ∧ dies e = false := by
  have hlife := List.mem_of_getLast? h
  have hup := mem_upTo.mp (mem_of_mem_life hlife)
  exact ⟨hup.1, hup.2, alive_of_mem_life hlife⟩

/-- What is in force is the last event there is, unless it is a death. -/
theorem inForce_eq : inForce date dies at_ log =
    (upTo date at_ log).getLast?.filter fun e => !dies e := by
  rw [inForce]
  obtain hnil | ⟨front, last, hlast⟩ := List.eq_nil_or_concat (upTo date at_ log)
  · rw [hnil, life_nil]
    rfl
  · rw [hlast, List.concat_eq_append, List.getLast?_concat]
    cases hdies : dies last with
    | false => rw [life_concat_alive hdies, List.getLast?_concat, Option.filter_some, hdies]; rfl
    | true => rw [life_concat_dies hdies, Option.filter_some, hdies]; rfl

/-- The event in force is the last one there is. -/
theorem getLast?_of_inForce (h : inForce date dies at_ log = some e) :
    (upTo date at_ log).getLast? = some e := by
  rw [inForce_eq, Option.filter_eq_some_iff] at h
  exact h.1

/-- An event in force at a date has been in force since its own. -/
theorem inForce_earlier (hdated : Dated date log) (h : inForce date dies at_ log = some e)
    (he : date e ≤ w) (hw : w ≤ at_) : inForce date dies w log = some e := by
  have hlast := getLast?_of_inForce h
  suffices hsame : upTo date w log = upTo date at_ log by rw [inForce, hsame]; exact h
  rw [← upTo_upTo hw]
  refine upTo_eq_self fun x hx => ?_
  obtain ⟨front, hfront⟩ := List.getLast?_eq_some_iff.mp hlast
  have hcut : Dated date (upTo date at_ log) := hdated.sublist List.filter_sublist
  rw [hfront] at hcut hx
  rcases List.mem_append.mp hx with hx | hx
  · have := hcut.lt_of_concat x hx
    omega
  · obtain rfl := List.mem_singleton.mp hx
    exact he

/-- In a dated log an event is in force that ends nothing and is not followed by any up to the
date. -/
theorem inForce_iff (hdated : Dated date log) :
    inForce date dies at_ log = some e ↔ e ∈ log ∧ date e ≤ at_ ∧ dies e = false ∧
      ∀ x ∈ log, date x ≤ at_ → date x ≤ date e := by
  have hcut : Dated date (upTo date at_ log) := hdated.sublist List.filter_sublist
  rw [inForce_eq, Option.filter_eq_some_iff, hcut.getLast?_iff]
  simp only [mem_upTo, Bool.not_eq_true', and_imp]
  tauto

/-- Of a log only some events are left. If the one in force is among them, and before every death
that is not there are only deaths left, then the same event is in force. -/
theorem inForce_of_harmless (hdated : Dated date log) (hsub : l.Sublist log)
    (hforce : ∀ e, inForce date dies at_ log = some e → e ∈ l)
    (hharmless : ∀ d ∈ log, d ∉ l → dies d = true → ∀ e ∈ l, date e < date d → dies e = true) :
    inForce date dies at_ l = inForce date dies at_ log := by
  refine Option.ext fun e => ?_
  constructor
  · intro h
    obtain ⟨hin, hle, halive, hlast⟩ := (inForce_iff (hdated.sublist hsub)).mp h
    refine (inForce_iff hdated).mpr ⟨hsub.subset hin, hle, halive, fun x hx hxle => ?_⟩
    -- the last event of the log is left, or is a death that left this one alone
    by_contra hlt
    obtain ⟨d, hd⟩ : ∃ d, (upTo date at_ log).getLast? = some d :=
      ⟨_, List.getLast?_eq_some_getLast (List.ne_nil_of_mem (mem_upTo.mpr ⟨hx, hxle⟩))⟩
    obtain ⟨hdin, hyoungest⟩ := (hdated.sublist List.filter_sublist).getLast?_iff.mp hd
    have hdle : date x ≤ date d := hyoungest x (mem_upTo.mpr ⟨hx, hxle⟩)
    have hgone : d ∉ l := fun hleft => by
      have := hlast d hleft (mem_upTo.mp hdin).2
      omega
    cases hdies : dies d with
    | false =>
      refine hgone (hforce d ?_)
      rw [inForce_eq, hd]
      simp [hdies]
    | true =>
      have hdead := hharmless d (mem_upTo.mp hdin).1 hgone hdies e hin (by omega)
      rw [halive] at hdead
      cases hdead
  · intro h
    obtain ⟨-, hle, halive, hlast⟩ := (inForce_iff hdated).mp h
    exact (inForce_iff (hdated.sublist hsub)).mpr ⟨hforce e h, hle, halive,
      fun x hx => hlast x (hsub.subset hx)⟩

/-- What precedes a death at or below the watermark survives only as deaths. -/
theorem dies_of_survives_before {before after : List ε} {d : ε} (hdated : Dated date log)
    (hlog : log = before ++ d :: after) (hd : dies d = true) (hw : date d ≤ w)
    (he : e ∈ before) (hs : Survives date dies w log e) : dies e = true := by
  have hlt : date e < date d := by
    rw [hlog] at hdated
    exact hdated.around.1 e he
  rcases hs with h | h | h
  · omega
  · -- the life in force at the watermark begins after the death
    have hlife : life dies (upTo date w log) = life dies (upTo date w after) := by
      have hcut : upTo date w log = upTo date w before ++ d :: upTo date w after := by
        rw [hlog, upTo_append]
        congr 1
        exact List.filter_cons_of_pos (decide_eq_true hw)
      rw [hcut, life_append_dies hd]
    have hmem : e ∈ life dies (upTo date w after) := hlife ▸ List.mem_of_getLast? h
    have hafter : e ∈ after := (mem_upTo.mp (mem_of_mem_life hmem)).1
    rw [hlog] at hdated
    have := hdated.around.2 e hafter
    omega
  · exact h.1

/-- Of a life, what survives is what is past the watermark and the event in force there. -/
theorem survives_of_mem_life (hdated : Dated date log) (hw : w ≤ at_)
    (he : e ∈ life dies (upTo date at_ log)) :
    Survives date dies w log e ↔
      w < date e ∨ (upTo date w (life dies (upTo date at_ log))).getLast? = some e := by
  have hidle : ¬ Idle date dies log e := fun h => by
    have := h.1
    rw [alive_of_mem_life he] at this
    cases this
  by_cases hlt : w < date e
  · exact iff_of_true (.inl hlt) (.inl hlt)
  · obtain ⟨before, hsplit, hbefore⟩ := life_split dies (upTo date at_ log)
    have hcut : Dated date (upTo date at_ log) := hdated.sublist List.filter_sublist
    rw [hsplit] at hcut
    -- what precedes the life precedes the event, so the cut at the watermark keeps it
    have hearly : upTo date w before = before := upTo_eq_self fun x hx => by
      have := (List.pairwise_append.mp hcut).2.2 x hx e he
      omega
    have hnone : life dies before = [] := by
      rcases hbefore with rfl | ⟨earlier, d, rfl, hd⟩
      · exact life_nil
      · exact life_concat_dies hd
    have hlife : life dies (upTo date w log) = upTo date w (life dies (upTo date at_ log)) := by
      rw [← upTo_upTo hw]
      conv_lhs => rw [hsplit]
      rw [upTo_append, hearly, life_append_alive, hnone, List.nil_append]
      exact fun x hx => alive_of_mem_life (mem_upTo.mp hx).1
    rw [Survives, inForce, hlife]
    simp [hlt, hidle]

/-- A life survives whole exactly when at most one of its events is up to the watermark. -/
theorem life_survives_iff (hdated : Dated date log) (hw : w ≤ at_) :
    (∀ e ∈ life dies (upTo date at_ log), Survives date dies w log e) ↔
      (upTo date w (life dies (upTo date at_ log))).length ≤ 1 := by
  have hcut : Dated date (upTo date w (life dies (upTo date at_ log))) :=
    hdated.sublist ((List.filter_sublist.trans life_suffix.sublist).trans List.filter_sublist)
  constructor
  · intro h
    cases hearly : upTo date w (life dies (upTo date at_ log)) with
    | nil => simp
    | cons x rest =>
      have hx := mem_upTo.mp (hearly ▸ List.mem_cons_self (a := x) (l := rest))
      have hforce := (survives_of_mem_life hdated hw hx.1).mp (h x hx.1)
      rw [hearly] at hforce hcut
      have hrest : rest = [] := by
        by_contra hne
        have hlast := hforce.resolve_left (by omega)
        rw [List.getLast?_cons_of_ne_nil hne] at hlast
        have := (List.pairwise_cons.mp hcut).1 x (List.mem_of_getLast? hlast)
        omega
      simp [hrest]
  · intro h e he
    refine (survives_of_mem_life hdated hw he).mpr ?_
    by_cases hlt : w < date e
    · exact .inl hlt
    · have hmem : e ∈ upTo date w (life dies (upTo date at_ log)) :=
        mem_upTo.mpr ⟨he, by omega⟩
      obtain ⟨x, hone⟩ := List.length_eq_one_iff.mp
        (Nat.le_antisymm h (List.length_pos_of_mem hmem))
      rw [hone] at hmem ⊢
      obtain rfl := List.mem_singleton.mp hmem
      exact .inr rfl

variable [DecidableEq ε]

variable (date dies) in
/-- The log once what lies below the watermark is forgotten. -/
def retained (w : ℕ) (log : List ε) : List ε :=
  log.filter fun e => decide (Survives date dies w log e)

/-- What the retained log holds of a life at any date is what survives of it. -/
theorem life_retained (hdated : Dated date log) :
    life dies (upTo date at_ (retained date dies w log)) =
      (life dies (upTo date at_ log)).filter fun e => decide (Survives date dies w log e) := by
  have hswap : upTo date at_ (retained date dies w log) =
      (upTo date at_ log).filter fun e => decide (Survives date dies w log e) := by
    simp only [upTo, retained, List.filter_filter, Bool.and_comm]
  obtain ⟨before, hsplit, hbefore⟩ := life_split dies (upTo date at_ log)
  have halive : ∀ e ∈ (life dies (upTo date at_ log)).filter
      (fun e => decide (Survives date dies w log e)), dies e = false := fun e he =>
    alive_of_mem_life (List.mem_of_mem_filter he)
  have hsplit' : (upTo date at_ log).filter (fun e => decide (Survives date dies w log e)) =
      before.filter (fun e => decide (Survives date dies w log e)) ++
        (life dies (upTo date at_ log)).filter (fun e => decide (Survives date dies w log e)) := by
    rw [← List.filter_append, ← hsplit]
  rw [hswap, hsplit', life_append_alive halive]
  suffices hnone : life dies (before.filter fun e => decide (Survives date dies w log e)) = [] by
    rw [hnone, List.nil_append]
  rcases hbefore with rfl | ⟨earlier, d, rfl, hd⟩
  · simp
  · rw [List.filter_append]
    by_cases hs : Survives date dies w log d
    · -- the death itself survives
      have hkeep : [d].filter (fun e => decide (Survives date dies w log e)) = [d] := by
        simp [hs]
      rw [hkeep, life_concat_dies hd]
    · -- the death is forgotten, and with it every birth before it
      have hdrop : [d].filter (fun e => decide (Survives date dies w log e)) = [] := by
        simp [hs]
      rw [hdrop, List.append_nil]
      have hdw : date d ≤ w := by
        by_contra hlt
        exact hs (.inl (by omega))
      by_contra hne
      obtain ⟨e, he⟩ := List.exists_mem_of_ne_nil _ hne
      have halv := alive_of_mem_life he
      have hmem := mem_of_mem_life he
      have hearlier : e ∈ earlier := List.mem_of_mem_filter hmem
      have hsurv : Survives date dies w log e := by
        simpa using (List.mem_filter.mp hmem).2
      have hup : upTo date at_ log = earlier ++ d :: life dies (upTo date at_ log) := by
        rw [List.append_cons]
        exact hsplit
      have hin : ∀ x ∈ upTo date at_ log, x ∈ log := fun x hx => (mem_upTo.mp hx).1
      have hein : e ∈ log := hin e (by rw [hup]; simp [hearlier])
      have hcut : Dated date (upTo date at_ log) := hdated.sublist List.filter_sublist
      rw [hup] at hcut
      have hed : date e < date d := hcut.around.1 e hearlier
      obtain ⟨pre, post, hlog⟩ := List.append_of_mem (hin d (by rw [hup]; simp))
      have hepre : e ∈ pre := by
        rw [hlog] at hein hdated
        rcases List.mem_append.mp hein with h | h
        · exact h
        · rcases List.mem_cons.mp h with rfl | h
          · omega
          · have := hdated.around.2 e h
            omega
      have := dies_of_survives_before hdated hlog hd hdw hepre hsurv
      rw [halv] at this
      exact absurd this (by simp)

end Lifetimes

end Hadar.Lib
