import Hadar.Analysis.Indexes
import Hadar.Interface.Partition
import Mathlib.Data.List.Nodup

/-!
# Compaction of the index as a partition

Compaction divides the revisions of each history, so it divides those of the index. Two
compactions in turn trim every key as the later one alone does; what they drop is then what
the later one drops, since both divide the same revisions and leave the same ones.
-/

set_option autoImplicit false

namespace Hadar.Mvcc

open Hadar.Lib Hadar.Storage Std

namespace Index

theorem revisionsOf_reverse (index : Index) (key : Bytes) :
    index.revisionsOf key = revsOf (index.newest key).reverse := by
  rw [newest, List.reverse_reverse]
  rfl

theorem mem_revisionsOf {index : Index} {key : Bytes} {rev : Revision} :
    rev ∈ index.revisionsOf key ↔ rev ∈ revsOf (index.newest key) := by
  rw [revisionsOf_reverse, mem_revsOf_reverse]

/-! ## What a compaction divides -/

/-- What is dropped and what is left are what there was, for any index.
SOURCE: crates/mvcc/src/index.rs:115-121 -/
theorem perm_revisions (index : Index) (at_ : ℕ) :
    ((index.compact at_).2 ++ (index.compact at_).1.revisions).Perm index.revisions := by
  have hkeys : (index.compact at_).1.keys.toList = index.keys.toList.filterMap fun p =>
      (if (p.2.compact at_).1.generations.isEmpty then none
        else some (p.2.compact at_).1).map fun h => (p.1, h) := ExtTreeMap.toList_filterMap
  -- a history left without generations has no revisions left
  have hleft : (index.compact at_).1.revisions =
      index.keys.toList.flatMap fun p => revsOf (p.2.compact at_).1.generations := by
    rw [revisions, hkeys]
    induction index.keys.toList with
    | nil => rfl
    | cons p rest ih =>
      rw [List.flatMap_cons]
      cases hempty : (p.2.compact at_).1.generations with
      | nil => rw [List.filterMap_cons_none (by simp [hempty]), ih, revsOf_nil, List.nil_append]
      | cons g gs =>
        rw [List.filterMap_cons_some (b := (p.1, (p.2.compact at_).1)) (by simp [hempty]),
          List.flatMap_cons, ih, ← hempty]
        rfl
  rw [hleft]
  exact (List.flatMap_append_perm _ _ _).trans
    (List.Perm.flatMap_left _ fun p _ => perm_compact p.2 at_)

/-- A key without generations is forgotten.
SOURCE: crates/mvcc/src/index.rs:115-121 -/
theorem getElem?_compact_of_nil {index : Index} {at_ : ℕ} {key : Bytes}
    (h : (index.compact at_).1.newest key = []) : (index.compact at_).1.keys[key]? = none := by
  unfold newest compact at *
  dsimp only at *
  rw [ExtTreeMap.getElem?_filterMap'] at *
  cases hkey : index.keys[key]? with
  | none => rfl
  | some history =>
    rw [hkey] at h
    simp only [Option.bind_some] at h ⊢
    split
    · rfl
    · rename_i hne
      rw [if_neg hne, Option.getD_some, List.reverse_eq_nil_iff] at h
      exact absurd (List.isEmpty_iff.mpr h) hne

theorem eq_of_keys {index index' : Index} (hkeys : index.keys = index'.keys)
    (hrooted : index.rooted = index'.rooted) : index = index' := by
  cases index
  cases index'
  cases hkeys
  cases hrooted
  rfl

/-- A compacted index is determined by its keys' generations, and by whether it has a root. -/
theorem compact_ext {index index' : Index} {at_ at' : ℕ} (hrooted : index.rooted = index'.rooted)
    (h : ∀ key, (index.compact at_).1.newest key = (index'.compact at').1.newest key) :
    (index.compact at_).1 = (index'.compact at').1 := by
  have hkeys : (index.compact at_).1.keys = (index'.compact at').1.keys := by
    refine ExtTreeMap.ext_getElem? fun key => ?_
    by_cases hnil : (index.compact at_).1.newest key = []
    · rw [getElem?_compact_of_nil hnil, getElem?_compact_of_nil ((h key).symm.trans hnil)]
    · have hne : ∀ i : Index, i.newest key ≠ [] → ∃ history, i.keys[key]? = some history ∧
          history.generations = (i.newest key).reverse := by
        intro i hi
        cases hkey : i.keys[key]? with
        | none => exact absurd (by simp [newest, hkey]) hi
        | some history => exact ⟨history, rfl, by simp [newest, hkey]⟩
      obtain ⟨a, ha, hga⟩ := hne _ hnil
      obtain ⟨b, hb, hgb⟩ := hne _ ((h key) ▸ hnil)
      have heq : a = b := by
        obtain ⟨_⟩ := a
        obtain ⟨_⟩ := b
        rw [h key, ← hgb] at hga
        exact congrArg History.mk hga
      rw [ha, hb, heq]
  exact eq_of_keys hkeys hrooted

/-! ## Indexes that runs lead to -/

/-- Each key's generations are a chain, below the next revision, and no two keys share one. -/
structure Sound (index : Index) (next : ℕ) : Prop where
  chain : ∀ key, Chain (index.newest key)
  below : ∀ key, ∀ r ∈ revsOf (index.newest key), r.main < next
  apart : ∀ key key', ∀ r ∈ revsOf (index.newest key), r ∈ revsOf (index.newest key') → key = key'

theorem sound_empty : Sound Index.empty 0 :=
  ⟨fun _ => by simp [Chain], fun _ r hr => by simp at hr, fun _ _ r hr => by simp at hr⟩

/-- An event with the next revision or a later one. -/
theorem Sound.enter {index : Index} {next : ℕ} (h : Sound index next) {e : Event}
    (hnext : next ≤ e.date) : Sound (index.enter e.2 e.1) (e.date + 1) := by
  have hnew : ∀ key, ∀ r ∈ revsOf ((index.enter e.2 e.1).newest key),
      r ∈ revsOf (index.newest key) ∨ r = e.1 ∧ e.2.key = key := by
    intro key r hr
    rw [newest_enter] at hr
    split at hr
    · rename_i hkey
      exact (mem_revsOf_enterIn hr).imp_right fun heq => ⟨heq, hkey⟩
    · exact .inl hr
  have hfresh : ∀ key, e.1 ∉ revsOf (index.newest key) := by
    intro key hr
    have hlt : e.date < next := h.below key e.1 hr
    omega
  refine ⟨fun key => ?_, fun key r hr => ?_, fun key key' r hr hr' => ?_⟩
  · rw [newest_enter]
    split
    · exact chain_enterIn (h.chain key) fun x hx => Nat.lt_of_lt_of_le (h.below key x hx) hnext
    · exact h.chain key
  · rcases hnew key r hr with hold | ⟨rfl, -⟩
    · have := h.below key r hold
      omega
    · exact Nat.lt_succ_self _
  · rcases hnew key r hr with hold | ⟨rfl, hkey⟩
    · rcases hnew key' r hr' with hold' | ⟨rfl, -⟩
      · exact h.apart key key' r hold hold'
      · exact absurd hold (hfresh key)
    · rcases hnew key' _ hr' with hold' | ⟨-, hkey'⟩
      · exact absurd hold' (hfresh key')
      · exact hkey.symm.trans hkey'

theorem Sound.compact {index : Index} {next : ℕ} (h : Sound index next) (at_ : ℕ) :
    Sound (index.compact at_).1 next := by
  have hsub : ∀ key, ∀ r ∈ revsOf ((index.compact at_).1.newest key),
      r ∈ revsOf (index.newest key) := by
    intro key r hr
    rw [newest_compact index at_ key (h.chain key)] at hr
    exact revsOf_trim_subset hr
  refine ⟨fun key => ?_, fun key r hr => h.below key r (hsub key r hr), fun key key' r hr hr' =>
    h.apart key key' r (hsub key r hr) (hsub key' r hr')⟩
  rw [newest_compact index at_ key (h.chain key)]
  exact chain_trim (h.chain key)

theorem Grown.sound {index : Index} {next watermark : ℕ} (h : Grown index next watermark) :
    Sound index next := by
  induction h with
  | empty => exact sound_empty
  | put before key revision later ih => exact ih.enter (e := (revision, .put key [])) later
  | tombstone before key revision later ih => exact ih.enter (e := (revision, .delete key)) later
  | compact before at_ later ih => exact ih.compact at_

section Sound

variable {index : Index} {next : ℕ}

theorem Sound.nodup (h : Sound index next) : index.revisions.Nodup := by
  have hnewest : ∀ p ∈ index.keys.toList, index.newest p.1 = p.2.generations.reverse := by
    intro p hp
    simp [newest, ExtTreeMap.mem_toList_iff_getElem?_eq_some.mp hp]
  have hmem : ∀ p ∈ index.keys.toList, ∀ r ∈ revsOf p.2.generations, r ∈ revsOf (index.newest p.1) :=
    fun p hp r hr => by rw [hnewest p hp, mem_revsOf_reverse]; exact hr
  refine List.nodup_flatMap.mpr ⟨fun p hp => ?_, ?_⟩
  · have hchain := nodup_revsOf (h.chain p.1)
    rw [hnewest p hp] at hchain
    have hperm : (revsOf p.2.generations.reverse).Perm (revsOf p.2.generations) :=
      List.Perm.flatMap_right _ (List.reverse_perm _)
    exact hperm.nodup_iff.mp hchain
  · refine List.Pairwise.imp_of_mem (fun {p q} hp hq hlt r hr hr' => ?_)
      (OrderedMap.ascending_toList index.keys)
    exact ne_of_cmp_lt hlt (h.apart p.1 q.1 r (hmem p hp r hr) (hmem q hq r hr'))

/-- A later compaction does not see an earlier one. -/
theorem Sound.compact_compact (h : Sound index next) {a b : ℕ} (hab : a ≤ b) :
    ((index.compact a).1.compact b).1 = (index.compact b).1 := by
  refine compact_ext rfl fun key => ?_
  rw [newest_compact _ b key ((h.compact a).chain key), newest_compact index a key (h.chain key),
    newest_compact index b key (h.chain key), trim_trim (h.chain key) hab]

/-- A read of a key's generations. -/
theorem Sound.readKey_eq (h : Sound index next) (key : Bytes) (at_ : ℕ) :
    index.readKey key at_ = readIn at_ (index.newest key) := by
  have hchain := h.chain key
  unfold readKey newest at *
  cases hkey : index.keys[key]? with
  | none => rfl
  | some history =>
    rw [hkey] at hchain
    exact read_eq history at_ fun g hg => chain_revs hchain g (List.mem_reverse.mpr hg)

/-- Up to the watermark a key keeps the revision that is visible there, and no other.
SOURCE: crates/mvcc/src/index.rs:182-210 -/
theorem Sound.filter_compact (h : Sound index next) (key : Bytes) (at_ : ℕ) :
    ((index.compact at_).1.revisionsOf key).filter (fun r => r.main ≤ at_) =
      ((index.readKey key at_).map (·.modified)).toList := by
  have hnodup : ((index.compact at_).1.revisionsOf key).Nodup := by
    rw [revisionsOf_reverse]
    have hrev := pairwise_revsOf_reverse ((h.compact at_).chain key)
    exact hrev.imp fun hlt heq => by simp [heq] at hlt
  have hmem : ∀ r, r ∈ ((index.compact at_).1.revisionsOf key).filter (fun r => r.main ≤ at_) ↔
      r ∈ ((index.readKey key at_).map (·.modified)).toList := by
    intro r
    rw [List.mem_filter, mem_revisionsOf, newest_compact index at_ key (h.chain key),
      mem_revsOf_trim (h.chain key), h.readKey_eq, Option.mem_toList, decide_eq_true_eq]
    constructor
    · rintro ⟨⟨-, hlt | hread⟩, hle⟩
      · omega
      · exact hread
    · intro hread
      have hfound : (readIn at_ (index.newest key)).map (·.modified) = some r := hread
      obtain ⟨hmem, hle⟩ := mem_of_readIn (h.chain key) hfound
      exact ⟨⟨hmem, .inr hfound⟩, hle⟩
  have hone : (((index.readKey key at_).map (·.modified)).toList).Nodup := by
    cases (index.readKey key at_).map (·.modified) <;> simp
  have hperm := (List.perm_ext_iff_of_nodup (hnodup.filter _) hone).mpr hmem
  cases hread : (index.readKey key at_).map (·.modified) with
  | none =>
    rw [hread] at hperm
    exact List.perm_nil.mp hperm
  | some r =>
    rw [hread] at hperm
    exact List.perm_singleton.mp hperm

end Sound

/-- Compaction of the index is an exact, incremental partition. Of any index that puts,
tombstones and compactions lead to, compacting at `a` and then at `b` leaves what compacting
at `b` alone does, and drops the same; what is dropped and what is left divide the revisions
there were, none of them twice; each key keeps of its revisions up to `b` the one visible
there and no other, and is forgotten when it keeps none; and compacting again drops nothing.
SOURCE: crates/mvcc/src/index.rs:115-121, crates/mvcc/src/index.rs:139-211 -/
theorem compact_divides {index : Index} {next watermark : ℕ} (h : Grown index next watermark)
    {a b : ℕ} (hab : a ≤ b) : Divides index a b := by
  have hsound := h.sound
  have hdropped : ∀ {a}, a ≤ b →
      ((index.compact a).2 ++ ((index.compact a).1.compact b).2).Perm (index.compact b).2 := by
    intro a hab
    have hsteps := (perm_revisions (index.compact a).1 b).append_left (index.compact a).2
    rw [hsound.compact_compact hab, ← List.append_assoc] at hsteps
    have hwhole := (hsteps.trans (perm_revisions index a)).trans (perm_revisions index b).symm
    exact (List.perm_append_right_iff _).mp hwhole
  refine ⟨hsound.compact_compact hab, hdropped hab, perm_revisions index b, hsound.nodup,
    fun key => hsound.filter_compact key b, fun key hnone => ?_, ?_⟩
  · refine getElem?_compact_of_nil ?_
    have hchain := (hsound.compact b).chain key
    rw [revisionsOf_reverse] at hnone
    cases hgs : (index.compact b).1.newest key with
    | nil => rfl
    | cons g earlier =>
      obtain ⟨r, hr⟩ := List.exists_mem_of_ne_nil _ (hgs ▸ hchain).1
      have hmem : r ∈ revsOf (g :: earlier).reverse :=
        mem_revsOf_reverse.mpr (List.mem_append_left _ hr)
      rw [← hgs, hnone] at hmem
      cases hmem
  · have hlength := (hdropped (Nat.le_refl b)).length_eq
    rw [List.length_append] at hlength
    exact List.length_eq_zero_iff.mp (by omega)

/-- A key put twice: the first revision goes at the second compaction. -/
theorem compact_divides_twice :
    Divides ((Index.empty.put [107] (revisionOf 1)).put [107] (revisionOf 2)) 1 2 ∧
      (((Index.empty.put [107] (revisionOf 1)).put [107] (revisionOf 2)).compact 1).2 = [] ∧
      (((Index.empty.put [107] (revisionOf 1)).put [107] (revisionOf 2)).compact 2).2 =
        [revisionOf 1] :=
  ⟨compact_divides (.put (.put .empty [107] (revisionOf 1) (by decide)) [107] (revisionOf 2)
    (by decide)) (by decide), by decide +kernel, by decide +kernel⟩

end Index

end Hadar.Mvcc
