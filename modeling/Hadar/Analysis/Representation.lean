import Hadar.Analysis.Indexes
import Hadar.Interface.Representation

/-!
# The representation of the index

A put or a tombstone adds its revision to the open generation or begins a new one behind closed
ones, and a compaction takes revisions from the front: of the generation alive at its watermark
everything up to the revision in force, and all that is older. A closed generation that is cut so
keeps its deletion and the revision in force before it. So a generation that is searched has a
revision by the date searched for, and of a closed one the last revision is past it.
-/

set_option autoImplicit false

namespace Hadar.Mvcc

open Hadar.Lib Hadar.Storage Std

/-! ## One generation -/

section Generation

variable {g : Generation} {deletes deletes' : Revision → Prop}

theorem Revision.Le.of_lt {a b c : Revision} (h : a.Le b) (hlt : b.main < c.main) : a.Le c := by
  rcases h with h | ⟨h, -⟩
  · exact .inl (h.trans hlt)
  · exact .inl (h ▸ hlt)

theorem Generation.WellFormed.congr (h : g.WellFormed deletes)
    (hsame : ∀ rev ∈ g.revs, deletes' rev ↔ deletes rev) : g.WellFormed deletes' :=
  { h with deletion := fun rev hrev => (hsame rev hrev).trans (h.deletion rev hrev) }

/-- A generation that a put begins. -/
theorem wellFormed_singleton {rev : Revision} (hkept : ¬ deletes rev) :
    (⟨rev, 1, [rev], false⟩ : Generation).WellFormed deletes where
  nonempty := List.cons_ne_nil _ _
  ascending := List.pairwise_singleton _ _
  created := fun first hfirst => by
    obtain rfl : rev = first := Option.some.inj hfirst
    exact .inr ⟨rfl, Nat.le_refl _⟩
  counted := Nat.le_refl 1
  ended := fun hclosed => Bool.noConfusion hclosed
  deletion := fun r hr => by
    obtain rfl := List.mem_singleton.mp hr
    simp [hkept]

/-- A revision more in an open generation, a deletion or not. -/
theorem Generation.WellFormed.push (h : g.WellFormed deletes) (hopen : g.closed = false)
    {e : Event} (hnew : ∀ r ∈ g.revs, r.main < e.date)
    (hdeletes : ∀ r, deletes' r ↔ deletes r ∨ e.dies = true ∧ r = e.1) (hfresh : ¬ deletes e.1) :
    (g.push e.1 e.dies).WellFormed deletes' where
  nonempty := by simp [Generation.push]
  ascending := by
    refine List.pairwise_append.mpr ⟨h.ascending, List.pairwise_singleton _ _, fun r hr x hx => ?_⟩
    obtain rfl := List.mem_singleton.mp hx
    exact hnew r hr
  created := fun first hfirst => by
    obtain ⟨oldest, rest, hrevs⟩ := List.exists_cons_of_ne_nil h.nonempty
    refine h.created first ?_
    rw [Generation.push, hrevs, List.cons_append] at hfirst
    rwa [hrevs]
  counted := by
    have := h.counted
    simp only [Generation.push, List.length_append, List.length_singleton]
    omega
  ended := fun _ => by
    have := List.length_pos_of_ne_nil h.nonempty
    simp only [Generation.push, List.length_append, List.length_singleton]
    omega
  deletion := fun r hr => by
    have hlast : (g.push e.1 e.dies).revs.getLast? = some e.1 := List.getLast?_concat
    rw [hdeletes, hlast, Option.some.injEq]
    rcases List.mem_append.mp hr with hr | hr
    · -- none of the earlier revisions deletes, as the generation was open
      have hne : r ≠ e.1 := fun heq => Nat.lt_irrefl _ (heq ▸ hnew r hr)
      simp [h.deletion r hr, hopen, hne, Ne.symm hne]
    · obtain rfl := List.mem_singleton.mp hr
      simp [hfresh, Generation.push]

/-- A generation cut in front of the revision in force, which is not its deletion. -/
theorem Generation.WellFormed.cutAt {w : ℕ} (h : g.WellFormed deletes)
    (halive : ¬(g.closed = true ∧ g.lastMain ≤ w)) (hfirst : g.firstMain ≤ w) :
    (g.cutAt w).WellFormed deletes := by
  obtain ⟨before, cur, after, hrevs, hcut, hbefore, hcur, -⟩ :=
    cutAt_revs h.nonempty h.ascending hfirst
  have hlast : (cur :: after).getLast? = g.revs.getLast? := by
    rw [hrevs, List.getLast?_append_of_ne_nil _ (List.cons_ne_nil _ _)]
  refine ⟨?_, ?_, fun first hhead => ?_, ?_, fun hclosed => ?_, fun rev hrev => ?_⟩
  · rw [hcut]
    exact List.cons_ne_nil _ _
  · exact h.ascending.sublist (List.drop_sublist _ _)
  · rw [hcut] at hhead
    obtain rfl : cur = first := Option.some.inj hhead
    cases before with
    | nil => exact h.created cur (by rw [hrevs]; rfl)
    | cons oldest before =>
      have hle := h.created oldest (by rw [hrevs]; rfl)
      exact hle.of_lt (hbefore oldest (List.mem_cons_self ..))
  · have hcounted := h.counted
    rw [hrevs, List.length_append] at hcounted
    rw [hcut]
    exact (Nat.le_add_left _ _).trans hcounted
  · rw [hcut, List.length_cons]
    refine Nat.succ_le_succ (List.length_pos_of_ne_nil ?_)
    rintro rfl
    refine halive ⟨hclosed, ?_⟩
    rw [Generation.lastMain, ← hlast]
    exact hcur
  · rw [hcut, hlast]
    rw [hcut] at hrev
    exact h.deletion rev (by rw [hrevs]; exact List.mem_append_right _ hrev)

end Generation

/-! ## The generations of one key -/

/-- Generations as the index keeps them, the newest first. -/
structure Formed (deletes : Revision → Prop) (gs : List Generation) : Prop where
  each : ∀ g ∈ gs, g.WellFormed deletes
  chain : Chain gs
  closed : ∀ g ∈ gs.tail, g.closed = true

section Formed

variable {deletes deletes' : Revision → Prop} {gs : List Generation}

theorem formed_nil : Formed deletes [] :=
  ⟨fun _ h => absurd h List.not_mem_nil, trivial, fun _ h => absurd h List.not_mem_nil⟩

theorem Formed.congr (h : Formed deletes gs)
    (hsame : ∀ rev ∈ revsOf gs, deletes' rev ↔ deletes rev) : Formed deletes' gs :=
  ⟨fun g hg => (h.each g hg).congr fun rev hrev =>
    hsame rev (List.mem_flatMap.mpr ⟨g, hg, hrev⟩), h.chain, h.closed⟩

/-- Entering an event with a revision past all others. -/
theorem Formed.enterIn (h : Formed deletes gs) {e : Event}
    (hnew : ∀ r ∈ revsOf gs, r.main < e.date)
    (hdeletes : ∀ r, deletes' r ↔ deletes r ∨ e.dies = true ∧ r = e.1) (hfresh : ¬ deletes e.1) :
    Formed deletes' (enterIn gs e) := by
  have hne : ∀ r ∈ revsOf gs, r ≠ e.1 := fun r hr heq => Nat.lt_irrefl _ (heq ▸ hnew r hr)
  have hold : Formed deletes' gs := h.congr fun r hr => by simp [hdeletes, hne r hr]
  have hchain := chain_enterIn h.chain hnew
  obtain ⟨heq, -, -⟩ | ⟨heq, hdies, hclosed⟩ | ⟨g, earlier, rfl, hopen, heq⟩ := enterIn_cases gs e
  · rw [heq]
    exact hold
  · rw [heq] at hchain ⊢
    refine ⟨fun g hg => ?_, hchain, ?_⟩
    · rcases List.mem_cons.mp hg with rfl | hg
      · exact wellFormed_singleton (by simp [hdeletes, hfresh, hdies])
      · exact hold.each g hg
    · rcases hclosed with rfl | ⟨g, earlier, rfl, hclosed⟩
      · exact fun _ h => absurd h List.not_mem_nil
      · exact List.forall_mem_cons.mpr ⟨hclosed, h.closed⟩
  · rw [heq] at hchain ⊢
    refine ⟨fun g' hg' => ?_, hchain, h.closed⟩
    rcases List.mem_cons.mp hg' with rfl | hg'
    · exact (h.each g (List.mem_cons_self ..)).push hopen
        (fun r hr => hnew r (List.mem_append_left _ hr)) hdeletes hfresh
    · exact hold.each g' (List.mem_cons_of_mem _ hg')

/-- What trimming leaves is cut from what there was. -/
theorem closed_of_mem_trim {w : ℕ} {g : Generation} (hg : g ∈ trim w gs) :
    ∃ g' ∈ gs, g.closed = g'.closed := by
  induction gs with
  | nil => exact absurd hg List.not_mem_nil
  | cons g' earlier ih =>
    rw [trim_cons] at hg
    split at hg
    · cases hg
    · split at hg
      · exact ⟨g', List.mem_cons_self .., by rw [List.mem_singleton.mp hg]; rfl⟩
      · rcases List.mem_cons.mp hg with rfl | hg
        · exact ⟨g, List.mem_cons_self .., rfl⟩
        · obtain ⟨x, hx, heq⟩ := ih hg
          exact ⟨x, List.mem_cons_of_mem _ hx, heq⟩

theorem wellFormed_trim (h : ∀ g ∈ gs, g.WellFormed deletes) (w : ℕ) :
    ∀ g ∈ trim w gs, g.WellFormed deletes := by
  induction gs with
  | nil => exact h
  | cons g earlier ih =>
    obtain ⟨hg, hearlier⟩ := List.forall_mem_cons.mp h
    rw [trim_cons]
    split
    · exact fun _ h => absurd h List.not_mem_nil
    · rename_i halive
      split
      · rename_i hfirst
        exact List.forall_mem_singleton.mpr (hg.cutAt halive hfirst)
      · exact List.forall_mem_cons.mpr ⟨hg, ih hearlier⟩

theorem Formed.trim (h : Formed deletes gs) (w : ℕ) : Formed deletes (trim w gs) := by
  refine ⟨wellFormed_trim h.each w, chain_trim h.chain, ?_⟩
  cases gs with
  | nil => exact h.closed
  | cons g earlier =>
    rw [trim_cons]
    split
    · exact fun _ h => absurd h List.not_mem_nil
    · split
      · exact fun _ h => absurd h List.not_mem_nil
      · intro g' hg'
        obtain ⟨x, hx, heq⟩ := closed_of_mem_trim hg'
        rw [heq]
        exact h.closed x hx

end Formed

/-! ## A history -/

/-- Chained generations, turned round, lie each before the next one. -/
theorem Chain.pairwise {gs : List Generation} (h : Chain gs) :
    gs.reverse.Pairwise fun g g' => ∀ r ∈ g.revs, ∀ r' ∈ g'.revs, r.main < r'.main := by
  induction gs with
  | nil => exact List.Pairwise.nil
  | cons g earlier ih =>
    obtain ⟨-, -, hbelow, hrest⟩ := h
    rw [List.reverse_cons]
    refine List.pairwise_append.mpr ⟨ih hrest, List.pairwise_singleton _ _, ?_⟩
    intro g' hg' x hx
    obtain rfl := List.mem_singleton.mp hx
    intro r hr r' hr'
    exact hbelow r (List.mem_flatMap.mpr ⟨g', List.mem_reverse.mp hg', hr⟩) r' hr'

/-- A history whose generations, turned round, are formed. -/
theorem Formed.history {deletes : Revision → Prop} {h : History}
    (hformed : Formed deletes h.generations.reverse) (hne : h.generations ≠ []) :
    h.WellFormed deletes where
  nonempty := hne
  each := fun g hg => hformed.each g (List.mem_reverse.mpr hg)
  apart := by
    have hpairwise := hformed.chain.pairwise
    rwa [List.reverse_reverse] at hpairwise
  closed := fun g hg => by
    refine hformed.closed g ?_
    rw [List.tail_reverse]
    exact List.mem_reverse.mpr hg

/-! ## The history with its assertions -/

theorem checkedSub_of_le {a b : ℕ} (h : b ≤ a) : checkedSub a b = some (a - b) := if_pos h

/-- The search with its assertions, where every generation has revisions.
SOURCE: crates/mvcc/src/index.rs:139-164 -/
theorem locateInChecked_eq (at_ : ℕ) {zs : List (Generation × ℕ)} (hne : ∀ p ∈ zs, p.1.revs ≠ []) :
    History.locateInChecked at_ zs = some (History.locateIn at_ zs) := by
  induction zs with
  | nil => rfl
  | cons p earlier ih =>
    obtain ⟨g, index⟩ := p
    obtain ⟨hg, hearlier⟩ := List.forall_mem_cons.mp hne
    obtain ⟨first, rest, hrevs⟩ := List.exists_cons_of_ne_nil hg
    have hlast := List.getLast?_eq_some_getLast hg
    have hhead : g.revs.head? = some first := by rw [hrevs]; rfl
    have hnonempty : ¬ g.revs.isEmpty = true := by simpa using hg
    rw [History.locateInChecked, History.locateIn, if_neg hnonempty, hhead, hlast]
    dsimp only
    split
    · rfl
    · split
      · rename_i hfirst
        have hpoint : 0 < History.partitionPoint g.revs at_ :=
          partitionPoint_pos hg (by simpa [Generation.firstMain, hhead] using hfirst)
        rw [checkedSub_of_le hpoint]
        rfl
      · exact ih hearlier

/-- What the search finds: a generation, and where it is closed a revision that is not its last.
SOURCE: crates/mvcc/src/index.rs:139-164 -/
theorem locateIn_some {at_ genIndex revIndex : ℕ} {zs : List (Generation × ℕ)}
    (heach : ∀ p ∈ zs, p.1.revs ≠ [] ∧ p.1.revs.Pairwise (·.main < ·.main))
    (hfound : History.locateIn at_ zs = some (genIndex, revIndex)) :
    ∃ g before cur after, (g, genIndex) ∈ zs ∧ g.revs = before ++ cur :: after ∧
      before.length = revIndex ∧ (g.closed = true → after ≠ []) := by
  induction zs with
  | nil => cases hfound
  | cons p earlier ih =>
    obtain ⟨g, index⟩ := p
    obtain ⟨⟨hne, hasc⟩, hearlier⟩ := List.forall_mem_cons.mp heach
    rw [locateIn_cons hne] at hfound
    split at hfound
    · cases hfound
    · rename_i halive
      split at hfound
      · rename_i hfirst
        obtain ⟨before, cur, after, hrevs, hpoint, -, hcur, -⟩ := locate_split hne hasc hfirst
        obtain ⟨rfl, rfl⟩ := Prod.mk.inj (Option.some.inj hfound)
        refine ⟨g, before, cur, after, List.mem_cons_self .., hrevs, hpoint.symm, ?_⟩
        rintro hclosed rfl
        refine halive ⟨hclosed, ?_⟩
        rw [Generation.lastMain, hrevs, List.getLast?_concat]
        exact hcur
      · obtain ⟨g', before, cur, after, hmem, hrest⟩ := ih hearlier hfound
        exact ⟨g', before, cur, after, List.mem_cons_of_mem _ hmem, hrest⟩

namespace History.WellFormed

variable {deletes : Revision → Prop} {h : History}

theorem mem_numbered {p : Generation × ℕ} (hp : p ∈ h.generations.zipIdx.reverse) :
    p.1 ∈ h.generations := List.fst_mem_of_mem_zipIdx (List.mem_reverse.mp hp)

theorem locateChecked (hformed : h.WellFormed deletes) (at_ : ℕ) :
    h.locateChecked at_ = some (h.locate at_) :=
  locateInChecked_eq at_ fun p hp => (hformed.each p.1 (mem_numbered hp)).nonempty

/-- Where `locate` finds something. -/
theorem located (hformed : h.WellFormed deletes) {at_ genIndex revIndex : ℕ}
    (hfound : h.locate at_ = some (genIndex, revIndex)) :
    ∃ g before cur after, h.generations[genIndex]? = some g ∧ g.revs = before ++ cur :: after ∧
      before.length = revIndex ∧ (g.closed = true → after ≠ []) := by
  have heach : ∀ p ∈ h.generations.zipIdx.reverse,
      p.1.revs ≠ [] ∧ p.1.revs.Pairwise (·.main < ·.main) := fun p hp =>
    have hg := hformed.each p.1 (mem_numbered hp)
    ⟨hg.nonempty, hg.ascending⟩
  obtain ⟨g, before, cur, after, hmem, hrest⟩ := locateIn_some heach hfound
  exact ⟨g, before, cur, after, List.mk_mem_zipIdx_iff_getElem?.mp (List.mem_reverse.mp hmem), hrest⟩

/-- What is located is not the last revision of a closed generation, and so no deletion. -/
theorem alive (hformed : h.WellFormed deletes) {at_ genIndex revIndex : ℕ}
    (hfound : h.locate at_ = some (genIndex, revIndex)) :
    ∃ g rev, h.generations[genIndex]? = some g ∧ g.revs[revIndex]? = some rev ∧ ¬ deletes rev := by
  obtain ⟨g, before, cur, after, hg, hrevs, rfl, hafter⟩ := hformed.located hfound
  have hwell := hformed.each g (List.mem_of_getElem? hg)
  refine ⟨g, cur, hg, by simp [hrevs], fun hdeletes => ?_⟩
  obtain ⟨hclosed, hlast⟩ := (hwell.deletion cur (by simp [hrevs])).mp hdeletes
  -- the last revision lies past the one located
  rw [hrevs, List.append_cons, List.getLast?_append_of_ne_nil _ (hafter hclosed)] at hlast
  have hasc := hwell.ascending
  rw [hrevs] at hasc
  have hpast := (List.pairwise_cons.mp (List.pairwise_append.mp hasc).2.1).1
  exact Nat.lt_irrefl _ (hpast cur (List.mem_of_getLast? hlast))

/-- SOURCE: crates/mvcc/src/index.rs:166-180 -/
theorem readChecked (hformed : h.WellFormed deletes) (at_ : ℕ) :
    h.readChecked at_ = some (h.read at_) := by
  rw [History.readChecked, hformed.locateChecked, History.read]
  dsimp only
  cases hfound : h.locate at_ with
  | none => rfl
  | some found =>
    obtain ⟨genIndex, revIndex⟩ := found
    obtain ⟨g, before, cur, after, hg, hrevs, rfl, -⟩ := hformed.located hfound
    have hcounted := (hformed.each g (List.mem_of_getElem? hg)).counted
    have hlength : g.revs.length = before.length + (after.length + 1) := by simp [hrevs]
    have hcur : g.revs[before.length]? = some cur := by simp [hrevs]
    dsimp only
    rw [hg]
    dsimp only
    rw [hcur, checkedSub_of_le (by omega)]
    dsimp only [Option.bind_eq_bind, Option.bind_some]
    rw [checkedSub_of_le (by omega), Option.bind_some, checkedSub_of_le (by omega)]
    rfl

/-- A turn of the loop of `compact`, where the generation has revisions. -/
theorem trimChecked_eq (current : Option (ℕ × ℕ)) (at_ : ℕ) {p : Generation × ℕ}
    (hne : p.1.revs ≠ []) :
    trimChecked current at_ p =
      some ({ p.1 with revs := keptOf current at_ p }, droppedOf current at_ p) := by
  have hlength := List.length_pos_of_ne_nil hne
  rw [trimChecked, checkedSub_of_le hlength]
  rfl

/-- SOURCE: crates/mvcc/src/index.rs:182-210 -/
theorem compactChecked (hformed : h.WellFormed deletes) (at_ : ℕ) :
    h.compactChecked at_ = some (h.compact at_) := by
  have hloop : ∀ zs : List (Generation × ℕ), (∀ p ∈ zs, p.1.revs ≠ []) →
      zs.mapM (trimChecked (h.locate at_) at_) = some (zs.map fun p =>
        ({ p.1 with revs := keptOf (h.locate at_) at_ p }, droppedOf (h.locate at_) at_ p)) := by
    intro zs hne
    induction zs with
    | nil => rfl
    | cons p rest ih =>
      obtain ⟨hp, hrest⟩ := List.forall_mem_cons.mp hne
      rw [List.mapM_cons, trimChecked_eq _ _ hp, ih hrest]
      rfl
  have hne : ∀ p ∈ h.generations.zipIdx, p.1.revs ≠ [] := fun p hp =>
    (hformed.each p.1 (List.fst_mem_of_mem_zipIdx hp)).nonempty
  rw [History.compactChecked, hformed.locateChecked]
  dsimp only [Option.bind_eq_bind, Option.bind_some]
  rw [hloop _ hne]
  dsimp only [Option.bind_some]
  rw [List.map_map, List.flatMap_map]
  rfl

theorem upholds (hformed : h.WellFormed deletes) : h.Upholds deletes where
  locate := hformed.locateChecked
  read := hformed.readChecked
  compact := hformed.compactChecked
  alive := fun _ _ _ hfound => hformed.alive hfound

end History.WellFormed

/-! ## The index -/

theorem put_generations_ne_nil (h : History) (revision : Revision) :
    (h.put revision).generations ≠ [] := by
  unfold History.put
  split
  · split
    · exact List.concat_ne_nil _ _
    · exact List.concat_ne_nil _ _
  · exact List.concat_ne_nil _ _

theorem tombstone_generations_ne_nil {h : History} (hne : h.generations ≠ [])
    (revision : Revision) : (h.tombstone revision).2.generations ≠ [] := by
  unfold History.tombstone
  split
  · exact hne
  · split
    · exact hne
    · exact List.concat_ne_nil _ _

/-- Every key's generations are formed, and there are some of every key there is. No revision has
reached `next`. -/
structure Index.Formed (index : Index) (next : ℕ) (deleted : List (Bytes × Revision)) : Prop where
  each : ∀ key, Mvcc.Formed (fun rev => (key, rev) ∈ deleted) (index.newest key)
  below : ∀ key, ∀ rev ∈ revsOf (index.newest key), rev.main < next
  past : ∀ p ∈ deleted, p.2.main < next
  held : ∀ (key : Bytes) (history : History),
    index.keys[key]? = some history → history.generations ≠ []

namespace Index

variable {index : Index} {next : ℕ} {deleted : List (Bytes × Revision)}

theorem formed_empty : Index.empty.Formed 0 [] where
  each := fun key => by
    rw [newest_empty]
    exact formed_nil
  below := fun key rev hrev => by
    rw [newest_empty] at hrev
    exact absurd hrev List.not_mem_nil
  past := fun p hp => absurd hp List.not_mem_nil
  held := fun key history hkey => by
    rw [empty, ExtTreeMap.getElem?_empty] at hkey
    cases hkey

/-- Entering an event with a revision no smaller than `next`. -/
theorem Formed.enter (h : index.Formed next deleted) {e : Event} (hlater : next ≤ e.date)
    {deleted' : List (Bytes × Revision)}
    (hdeleted : ∀ p, p ∈ deleted' ↔ p ∈ deleted ∨ e.dies = true ∧ p = (e.2.key, e.1))
    (hheld : ∀ (key : Bytes) (history : History), (index.enter e.2 e.1).keys[key]? = some history →
      history.generations ≠ []) :
    (index.enter e.2 e.1).Formed (e.date + 1) deleted' := by
  have hnew : ∀ key, ∀ r ∈ revsOf (index.newest key), r.main < e.date := fun key r hr =>
    (h.below key r hr).trans_le hlater
  refine ⟨fun key => ?_, fun key r hr => ?_, fun p hp => ?_, hheld⟩
  · rw [newest_enter]
    split
    · rename_i hkey
      refine (h.each key).enterIn (hnew key) (fun r => ?_) fun hmem => ?_
      · simp [hdeleted, hkey]
      · exact Nat.lt_irrefl _ ((h.past _ hmem).trans_le hlater)
    · rename_i hkey
      refine (h.each key).congr fun r _ => ?_
      simp [hdeleted, Ne.symm hkey]
  · rw [newest_enter] at hr
    have hold : ∀ r ∈ revsOf (index.newest key), r.main < e.date + 1 := fun r hr =>
      (hnew key r hr).trans (Nat.lt_succ_self _)
    split at hr
    · rcases mem_revsOf_enterIn hr with hr | rfl
      · exact hold r hr
      · exact Nat.lt_succ_self _
    · exact hold r hr
  · rcases (hdeleted p).mp hp with hp | ⟨-, rfl⟩
    · exact (h.past p hp).trans_le (hlater.trans (Nat.le_succ _))
    · exact Nat.lt_succ_self _

theorem Formed.put (h : index.Formed next deleted) (key : Bytes) {revision : Revision}
    (hlater : next ≤ revision.main) :
    (index.put key revision).Formed (revision.main + 1) deleted := by
  refine h.enter (e := (revision, .put key [])) hlater (fun p => ?_) fun k history hk => ?_
  · simp [Event.dies, Mutation.isDelete]
  · change (index.keys.insert key _)[k]? = some history at hk
    rw [ExtTreeMap.getElem?_insert] at hk
    split at hk
    · obtain rfl := Option.some.inj hk
      exact put_generations_ne_nil _ _
    · exact h.held k history hk

theorem Formed.tombstone (h : index.Formed next deleted) (key : Bytes) {revision : Revision}
    (hlater : next ≤ revision.main) :
    (index.tombstone key revision).2.Formed (revision.main + 1) ((key, revision) :: deleted) := by
  refine h.enter (e := (revision, .delete key)) hlater (fun p => ?_) fun k history hk => ?_
  · simp [Event.dies, Mutation.isDelete, Mutation.key, or_comm]
  · change (index.tombstone key revision).2.keys[k]? = some history at hk
    unfold Index.tombstone at hk
    cases hkey : index.keys[key]? with
    | none =>
      rw [hkey] at hk
      exact h.held k history hk
    | some found =>
      rw [hkey] at hk
      dsimp only at hk
      rw [ExtTreeMap.getElem?_insert] at hk
      split at hk
      · obtain rfl := Option.some.inj hk
        exact tombstone_generations_ne_nil (h.held key found hkey) _
      · exact h.held k history hk

theorem Formed.compact (h : index.Formed next deleted) (at_ : ℕ) :
    (index.compact at_).1.Formed next deleted := by
  have hnewest := fun key => newest_compact index at_ key (h.each key).chain
  refine ⟨fun key => ?_, fun key r hr => ?_, h.past, fun key history hkey => ?_⟩
  · rw [hnewest]
    exact (h.each key).trim at_
  · rw [hnewest] at hr
    exact h.below key r (revsOf_trim_subset hr)
  · -- histories left without generations are forgotten
    change (index.keys.filterMap _)[key]? = some history at hkey
    rw [ExtTreeMap.getElem?_filterMap', Option.bind_eq_some_iff] at hkey
    obtain ⟨found, -, hkept⟩ := hkey
    dsimp only at hkept
    split at hkept
    · cases hkept
    · rename_i hnonempty
      obtain rfl := Option.some.inj hkept
      exact fun hnil => hnonempty (List.isEmpty_iff.mpr hnil)

theorem Maintained.formed (h : Maintained index next deleted) : index.Formed next deleted := by
  induction h with
  | empty => exact formed_empty
  | put _ key _ hlater ih => exact ih.put key hlater
  | tombstone _ key _ hlater ih => exact ih.tombstone key hlater
  | compact _ at_ ih => exact ih.compact at_

/-- Every history of an index that puts, tombstones and compactions lead to is well formed, and so
upholds what the index asserts and subtracts.
SOURCE: crates/mvcc/src/index.rs:26-93,139-211 -/
theorem Maintained.wellFormed (h : Maintained index next deleted) {key : Bytes}
    {history : History} (hkey : index.keys[key]? = some history) :
    history.WellFormed (fun rev => (key, rev) ∈ deleted) ∧
      history.Upholds (fun rev => (key, rev) ∈ deleted) := by
  have hformed := h.formed.each key
  rw [newest, hkey, Option.getD_some] at hformed
  have hwell := hformed.history (h.formed.held key history hkey)
  exact ⟨hwell, hwell.upholds⟩

/-- A watermark inside a closed generation, with the key created anew after that. -/
theorem wellFormed_cut : ∃ (history : History) (deleted : List (Bytes × Revision)),
    (history.generations.map fun g => (g.created.main, g.ver, g.revs.map (·.main), g.closed)) =
        [(1, 3, [2, 4], true), (5, 1, [5], false)] ∧
      deleted.map (·.2.main) = [4] ∧ history.WellFormed (fun rev => ([7], rev) ∈ deleted) ∧
        history.Upholds (fun rev => ([7], rev) ∈ deleted) := by
  have hcreated := Maintained.empty.put [7] ⟨1, 0, by decide, by decide⟩ (by decide)
  have hchanged := hcreated.put [7] ⟨2, 0, by decide, by decide⟩ (by decide)
  have hdeleted := hchanged.tombstone [7] ⟨4, 1, by decide, by decide⟩ (by decide)
  have hrecreated := hdeleted.put [7] ⟨5, 0, by decide, by decide⟩ (by decide)
  exact ⟨⟨[⟨⟨1, 0, by decide, by decide⟩, 3,
      [⟨2, 0, by decide, by decide⟩, ⟨4, 1, by decide, by decide⟩], true⟩,
    ⟨⟨5, 0, by decide, by decide⟩, 1, [⟨5, 0, by decide, by decide⟩], false⟩]⟩,
    _, by decide, rfl, (hrecreated.compact 3).wellFormed (by decide +kernel)⟩

end Index

end Hadar.Mvcc
