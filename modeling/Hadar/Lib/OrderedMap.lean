import Mathlib.Tactic.Common
import Mathlib.Data.List.Basic
import Std.Data.ExtTreeMap

/-!
# Listing an ordered map

`Std.ExtTreeMap` lists its entries in strictly ascending key order, and a strictly
ascending list is determined by its members. So the listing of a map is whatever ascending
list holds the same entries, which is how the lemmas below read off the listing after an
insertion past the last key, an overwrite of the last key, and a removal of the first one.
-/

set_option autoImplicit false

namespace Hadar.Lib

open Std

/-- A list of pairs whose first components ascend strictly under `cmp`. -/
def Ascending {α β : Type} (cmp : α → α → Ordering) (l : List (α × β)) : Prop :=
  l.Pairwise fun a b => cmp a.1 b.1 = .lt

section Ascending

variable {α β : Type} {cmp : α → α → Ordering} [TransCmp cmp]

theorem ne_of_cmp_lt {a b : α} (h : cmp a b = .lt) : a ≠ b := by
  rintro rfl
  exact OrientedCmp.not_lt_of_lt h h

/-- What lies past an entry of an ascending list is what follows it. -/
theorem Ascending.filter_past {l r : List (α × β)} {p : α × β} (h : Ascending cmp (l ++ p :: r)) :
    ((l ++ p :: r).filter fun x => (cmp p.1 x.1).isLT) = r := by
  obtain ⟨-, hright, hcross⟩ := List.pairwise_append.mp h
  have hl : l.filter (fun x => (cmp p.1 x.1).isLT) = [] := by
    rw [List.filter_eq_nil_iff]
    intro x hx
    have hgt : cmp p.1 x.1 = .gt :=
      OrientedCmp.gt_iff_lt.mpr (hcross x hx p (List.mem_cons_self ..))
    simp [hgt]
  have hr : r.filter (fun x => (cmp p.1 x.1).isLT) = r := by
    rw [List.filter_eq_self]
    intro x hx
    simp [(List.pairwise_cons.mp hright).1 x hx]
  rw [List.filter_append, hl, List.filter_cons_of_neg (by simp [ReflCmp.compare_self]), hr,
    List.nil_append]

/-- What lies past the last entry of a beginning is the rest. -/
theorem Ascending.filter_past_take {l : List (α × β)} {n : ℕ} {p : α × β} (h : Ascending cmp l)
    (hlast : (l.take n).getLast? = some p) :
    (l.filter fun x => (cmp p.1 x.1).isLT) = l.drop n := by
  obtain ⟨front, hfront⟩ := List.getLast?_eq_some_iff.mp hlast
  have hsplit : l = front ++ p :: l.drop n := by
    rw [List.append_cons, ← hfront, List.take_append_drop]
  conv_lhs => rw [hsplit]
  exact Ascending.filter_past (hsplit ▸ h)

theorem Ascending.nodup {l : List (α × β)} (h : Ascending cmp l) : l.Nodup := by
  refine List.Pairwise.imp (fun {a b} hab heq => ?_) h
  exact ne_of_cmp_lt hab (congrArg Prod.fst heq)

/-- An ascending list is determined by what it holds. -/
theorem Ascending.eq_of_mem_iff {l l' : List (α × β)} (h : Ascending cmp l)
    (h' : Ascending cmp l') (hmem : ∀ p, p ∈ l ↔ p ∈ l') : l = l' := by
  have hperm : l.Perm l' := (List.perm_ext_iff_of_nodup h.nodup h'.nodup).mpr hmem
  refine hperm.eq_of_pairwise (fun a b _ _ hab hba => ?_) h h'
  exact absurd hba (OrientedCmp.not_lt_of_lt hab)

omit [TransCmp cmp] in
theorem Ascending.append_singleton {l : List (α × β)} {k : α} {v : β} (h : Ascending cmp l)
    (hk : ∀ p ∈ l, cmp p.1 k = .lt) : Ascending cmp (l ++ [(k, v)]) := by
  refine List.pairwise_append.mpr ⟨h, List.pairwise_singleton _ _, ?_⟩
  intro a ha b hb
  obtain rfl := List.mem_singleton.mp hb
  exact hk a ha

end Ascending

namespace OrderedMap

variable {α β : Type} {cmp : α → α → Ordering} [TransCmp cmp] [LawfulEqCmp cmp]

omit [LawfulEqCmp cmp] in
theorem ascending_toList (m : ExtTreeMap α β cmp) : Ascending cmp m.toList :=
  ExtTreeMap.ordered_keys_toList

/-- The ascending list of a map's entries is its listing. -/
theorem toList_eq {m : ExtTreeMap α β cmp} {l : List (α × β)} (h : Ascending cmp l)
    (hmem : ∀ k v, (k, v) ∈ l ↔ m[k]? = some v) : m.toList = l :=
  (ascending_toList m).eq_of_mem_iff h fun _ =>
    ExtTreeMap.mem_toList_iff_getElem?_eq_some.trans (hmem _ _).symm

/-- A key past every key of the map is listed last. -/
theorem toList_insert_last {m : ExtTreeMap α β cmp} {k : α} {v : β}
    (h : ∀ p ∈ m.toList, cmp p.1 k = .lt) : (m.insert k v).toList = m.toList ++ [(k, v)] := by
  refine toList_eq ((ascending_toList m).append_singleton h) fun k' v' => ?_
  rw [ExtTreeMap.getElem?_insert]
  by_cases hk : cmp k k' = .eq
  · obtain rfl := LawfulEqCmp.eq_of_compare hk
    have hfresh : ∀ w, (k, w) ∉ m.toList := fun w hw =>
      ne_of_cmp_lt (h _ hw) rfl
    simp only [List.mem_append, hfresh, List.mem_singleton, Prod.mk.injEq, true_and, false_or,
      ReflCmp.compare_self, if_true, Option.some.injEq]
    exact eq_comm
  · have hne : k' ≠ k := fun he => hk (by rw [he]; exact ReflCmp.compare_self)
    rw [if_neg hk, ← ExtTreeMap.mem_toList_iff_getElem?_eq_some]
    simp [hne]

/-- Overwriting a key changes its entry of the listing. -/
theorem toList_overwrite {m : ExtTreeMap α β cmp} {k : α} {v v' : β} {l r : List (α × β)}
    (h : m.toList = l ++ (k, v) :: r) : (m.insert k v').toList = l ++ (k, v') :: r := by
  have hasc : Ascending cmp (l ++ (k, v) :: r) := h ▸ ascending_toList m
  obtain ⟨hl, hr, hcross⟩ := List.pairwise_append.mp hasc
  obtain ⟨hfirst, hr⟩ := List.pairwise_cons.mp hr
  have hasc' : Ascending cmp (l ++ (k, v') :: r) := by
    refine List.pairwise_append.mpr ⟨hl, List.pairwise_cons.mpr ⟨hfirst, hr⟩, fun a ha b hb => ?_⟩
    rcases List.mem_cons.mp hb with rfl | hb
    · exact hcross a ha (k, v) (List.mem_cons_self ..)
    · exact hcross a ha b (List.mem_cons_of_mem _ hb)
  have hleft : ∀ w, (k, w) ∉ l := fun w hw =>
    ne_of_cmp_lt (hcross _ hw (k, v) (List.mem_cons_self ..)) rfl
  have hright : ∀ w, (k, w) ∉ r := fun w hw => ne_of_cmp_lt (hfirst _ hw) rfl
  refine toList_eq hasc' fun k' w => ?_
  rw [ExtTreeMap.getElem?_insert]
  by_cases hk : cmp k k' = .eq
  · obtain rfl := LawfulEqCmp.eq_of_compare hk
    simp only [List.mem_append, List.mem_cons, hleft, hright, Prod.mk.injEq, true_and, false_or,
      or_false, ReflCmp.compare_self, if_true, Option.some.injEq]
    exact eq_comm
  · have hne : k' ≠ k := fun he => hk (by rw [he]; exact ReflCmp.compare_self)
    rw [if_neg hk, ← ExtTreeMap.mem_toList_iff_getElem?_eq_some, h]
    simp [hne]

/-- Removing the first key drops the first entry of the listing. -/
theorem toList_erase_first {m : ExtTreeMap α β cmp} {k : α} {v : β} {l : List (α × β)}
    (h : m.toList = (k, v) :: l) : (m.erase k).toList = l := by
  have hasc : Ascending cmp ((k, v) :: l) := h ▸ ascending_toList m
  obtain ⟨hfirst, hl⟩ := List.pairwise_cons.mp hasc
  refine toList_eq hl fun k' w => ?_
  rw [ExtTreeMap.getElem?_erase]
  by_cases hk : cmp k k' = .eq
  · obtain rfl := LawfulEqCmp.eq_of_compare hk
    have hfresh : (k, w) ∉ l := fun hw =>
      ne_of_cmp_lt (hfirst _ hw) rfl
    simp [hfresh]
  · have hne : k' ≠ k := fun he => hk (by rw [he]; exact ReflCmp.compare_self)
    rw [if_neg hk, ← ExtTreeMap.mem_toList_iff_getElem?_eq_some, h]
    simp [hne]

/-- Removing a key filters it out of the listing. -/
theorem toList_erase {m : ExtTreeMap α β cmp} {k : α} [DecidableEq α] :
    (m.erase k).toList = m.toList.filter fun p => p.1 ≠ k := by
  refine toList_eq (List.Pairwise.sublist List.filter_sublist (ascending_toList m))
    fun k' w => ?_
  rw [ExtTreeMap.getElem?_erase]
  by_cases hk : cmp k k' = .eq
  · obtain rfl := LawfulEqCmp.eq_of_compare hk
    simp
  · have hne : k' ≠ k := fun he => hk (by rw [he]; exact ReflCmp.compare_self)
    rw [if_neg hk, ← ExtTreeMap.mem_toList_iff_getElem?_eq_some]
    simp [hne]

/-- A key before every other key of the map is listed first. -/
theorem toList_insert_first {m : ExtTreeMap α β cmp} {k : α} {v : β} {l : List (α × β)}
    [DecidableEq α] (hl : (m.toList.filter fun p => p.1 ≠ k) = l)
    (h : ∀ p ∈ l, cmp k p.1 = .lt) : (m.insert k v).toList = (k, v) :: l := by
  have hasc : Ascending cmp l := by
    rw [← hl]
    exact List.Pairwise.sublist List.filter_sublist (ascending_toList m)
  refine toList_eq (List.pairwise_cons.mpr ⟨h, hasc⟩) fun k' w => ?_
  rw [ExtTreeMap.getElem?_insert]
  by_cases hk : cmp k k' = .eq
  · obtain rfl := LawfulEqCmp.eq_of_compare hk
    have hfresh : (k, w) ∉ l := fun hw => ne_of_cmp_lt (h _ hw) rfl
    rw [if_pos hk]
    simp [hfresh, eq_comm]
  · have hne : k' ≠ k := fun he => hk (by rw [he]; exact ReflCmp.compare_self)
    rw [if_neg hk, ← ExtTreeMap.mem_toList_iff_getElem?_eq_some, ← hl]
    simp [hne]

/-- Insertions at different keys may be made in either order. -/
theorem insert_comm {m : ExtTreeMap α β cmp} {k k' : α} {v v' : β} (h : k ≠ k') :
    (m.insert k v).insert k' v' = (m.insert k' v').insert k v := by
  refine ExtTreeMap.ext_getElem? fun x => ?_
  simp only [ExtTreeMap.getElem?_insert]
  by_cases hx : cmp k x = .eq
  · by_cases hx' : cmp k' x = .eq
    · exact absurd ((LawfulEqCmp.eq_of_compare hx).trans (LawfulEqCmp.eq_of_compare hx').symm) h
    · rw [if_neg hx', if_pos hx, if_pos hx]
  · rw [if_neg hx, if_neg hx]

/-- Of two insertions at one key the later one stays. -/
theorem insert_insert {m : ExtTreeMap α β cmp} {k : α} {v v' : β} :
    (m.insert k v).insert k v' = m.insert k v' := by
  refine ExtTreeMap.ext_getElem? fun x => ?_
  simp only [ExtTreeMap.getElem?_insert]
  by_cases hx : cmp k x = .eq
  · rw [if_pos hx, if_pos hx]
  · rw [if_neg hx, if_neg hx, if_neg hx]

theorem getElem?_of_toList {m : ExtTreeMap α β cmp} {k : α} {v : β} {l r : List (α × β)}
    (h : m.toList = l ++ (k, v) :: r) : m[k]? = some v := by
  rw [← ExtTreeMap.mem_toList_iff_getElem?_eq_some, h]
  simp

/-- A key is held where the listing has an entry for it. -/
theorem contains_iff {m : ExtTreeMap α β cmp} {k : α} :
    m.contains k = true ↔ ∃ v, (k, v) ∈ m.toList := by
  rw [ExtTreeMap.contains_eq_isSome_getElem?, Option.isSome_iff_exists]
  exact exists_congr fun v => ExtTreeMap.mem_toList_iff_getElem?_eq_some.symm

/-- Erasing an entry that is there leaves one less. -/
theorem size_erase_of_contains {m : ExtTreeMap α β cmp} {k : α} (h : m.contains k = true) :
    (m.erase k).size + 1 = m.size := by
  obtain ⟨v, hv⟩ := contains_iff.mp h
  have hpos : 0 < m.size := by
    rw [← ExtTreeMap.length_toList]
    exact List.length_pos_of_mem hv
  rw [ExtTreeMap.size_erase, if_pos h]
  exact Nat.sub_add_cancel hpos

theorem contains_eq_false {m : ExtTreeMap α β cmp} {k : α} (h : ∀ v, (k, v) ∉ m.toList) :
    m.contains k = false := by
  refine Bool.eq_false_iff.mpr fun hheld => ?_
  obtain ⟨v, hv⟩ := contains_iff.mp hheld
  exact h v hv

end OrderedMap

end Hadar.Lib
