import Hadar.Interface.MultiVersion
import Mathlib.Data.List.Flatten
import Mathlib.Data.List.Perm.Basic

/-!
# Generations, newest first

`History` works on its last generation, so its operations are restated here on the list of
generations read from the newest to the oldest, where each is a recursion on that list.
`readIn` and `trim` are what `at` and `compact` compute; the two search the list in the
same way, which is why a read at or above the watermark cannot tell that a history was
compacted.
-/

set_option autoImplicit false

namespace Hadar.Mvcc

open Hadar.Lib Hadar.Storage

/-! ## The operations -/

/-- `Index::put` on the generations, newest first. -/
def putIn (revision : Revision) : List Generation → List Generation
  | [] => [⟨revision, 1, [revision], false⟩]
  | g :: earlier =>
    if g.closed then ⟨revision, 1, [revision], false⟩ :: g :: earlier
    else { g with revs := g.revs ++ [revision], ver := g.ver + 1 } :: earlier

/-- `Index::tombstone` on the generations, newest first. -/
def tombstoneIn (revision : Revision) : List Generation → List Generation
  | [] => []
  | g :: earlier =>
    if g.closed then g :: earlier
    else { g with revs := g.revs ++ [revision], ver := g.ver + 1, closed := true } :: earlier

/-- What an event does to the generations of its key, newest first. -/
def enterIn (gs : List Generation) (e : Event) : List Generation :=
  if e.dies then tombstoneIn e.1 gs else putIn e.1 gs

/-- The first revision of a generation, by number. -/
def Generation.firstMain (g : Generation) : ℕ := (g.revs.head?.map (·.main)).getD 0

/-- The last revision of a generation, by number. -/
def Generation.lastMain (g : Generation) : ℕ := (g.revs.getLast?.map (·.main)).getD 0

/-- What `History::at` finds, on the generations newest first. -/
def readIn (at_ : ℕ) : List Generation → Option Found
  | [] => none
  | g :: earlier =>
    if g.closed ∧ g.lastMain ≤ at_ then none
    else if g.firstMain ≤ at_ then
      let at' := History.partitionPoint g.revs at_ - 1
      (g.revs[at']?).map fun modified =>
        ⟨modified, g.created, g.ver - (g.revs.length - 1 - at')⟩
    else readIn at_ earlier

/-- What `History::compact` leaves, on the generations newest first. -/
def trim (at_ : ℕ) : List Generation → List Generation
  | [] => []
  | g :: earlier =>
    if g.closed ∧ g.lastMain ≤ at_ then []
    else if g.firstMain ≤ at_ then
      [{ g with revs := g.revs.drop (History.partitionPoint g.revs at_ - 1) }]
    else g :: trim at_ earlier

/-- Every revision of a list of generations. -/
def revsOf (gs : List Generation) : List Revision := gs.flatMap (·.revs)

/-- Generations as the index builds them: none is without revisions, and the revisions
ascend within each and from each to the next newer one. -/
def Chain : List Generation → Prop
  | [] => True
  | g :: earlier => g.revs ≠ [] ∧ g.revs.Pairwise (·.main < ·.main) ∧
      (∀ r ∈ revsOf earlier, ∀ x ∈ g.revs, r.main < x.main) ∧ Chain earlier

@[simp] theorem revsOf_cons (g : Generation) (earlier : List Generation) :
    revsOf (g :: earlier) = g.revs ++ revsOf earlier := rfl

@[simp] theorem revsOf_nil : revsOf [] = [] := rfl

/-! ## A generation's revisions -/

section Revs

variable {g : Generation} {revs : List Revision} {at_ : ℕ}

theorem firstMain_le (hasc : g.revs.Pairwise (·.main < ·.main)) {x : Revision}
    (hx : x ∈ g.revs) : g.firstMain ≤ x.main := by
  unfold Generation.firstMain
  cases hrevs : g.revs with
  | nil => simp
  | cons first rest =>
    rw [hrevs] at hx hasc
    rcases List.mem_cons.mp hx with rfl | hx
    · exact le_rfl
    · exact ((List.pairwise_cons.mp hasc).1 x hx).le

theorem le_lastMain (hasc : g.revs.Pairwise (·.main < ·.main)) {x : Revision}
    (hx : x ∈ g.revs) : x.main ≤ g.lastMain := by
  unfold Generation.lastMain
  obtain hnil | ⟨front, last, hrevs⟩ := List.eq_nil_or_concat g.revs
  · simp [hnil] at hx
  · rw [List.concat_eq_append] at hrevs
    rw [hrevs] at hx hasc ⊢
    simp only [List.getLast?_concat, Option.map_some, Option.getD_some]
    rcases List.mem_append.mp hx with hx | hx
    · exact ((List.pairwise_append.mp hasc).2.2 x hx last (by simp)).le
    · obtain rfl := List.mem_singleton.mp hx
      exact le_rfl

/-- An ascending list of revisions is those up to a revision and those past it, and
`partition_point` counts the first part. -/
theorem partitionPoint_split (hasc : revs.Pairwise (·.main < ·.main)) (at_ : ℕ) :
    ∃ below above, revs = below ++ above ∧ History.partitionPoint revs at_ = below.length ∧
      (∀ x ∈ below, x.main ≤ at_) ∧ ∀ x ∈ above, at_ < x.main := by
  refine ⟨revs.takeWhile fun rev => rev.main ≤ at_, revs.dropWhile fun rev => rev.main ≤ at_,
    List.takeWhile_append_dropWhile.symm, rfl, fun x hx => ?_, ?_⟩
  · simpa using List.mem_takeWhile_imp hx
  · cases habove : revs.dropWhile fun rev => rev.main ≤ at_ with
    | nil => simp
    | cons x rest =>
      have hx : ¬ x.main ≤ at_ := by
        have := List.head_dropWhile_not (fun rev : Revision => decide (rev.main ≤ at_))
          (l := revs) (by rw [habove]; simp)
        simpa [habove] using this
      have hsub : (x :: rest).Pairwise (·.main < ·.main) :=
        habove ▸ hasc.sublist (List.dropWhile_sublist _)
      intro y hy
      rcases List.mem_cons.mp hy with rfl | hy
      · omega
      · have := (List.pairwise_cons.mp hsub).1 y hy
        omega

/-- Where a generation began at or before a revision, its revisions are the ones before the
current one, the current one, and the ones past the revision. -/
theorem locate_split (hne : g.revs ≠ []) (hasc : g.revs.Pairwise (·.main < ·.main))
    (hfirst : g.firstMain ≤ at_) :
    ∃ before cur after, g.revs = before ++ cur :: after ∧
      History.partitionPoint g.revs at_ - 1 = before.length ∧
      (∀ x ∈ before, x.main < cur.main) ∧ cur.main ≤ at_ ∧ ∀ x ∈ after, at_ < x.main := by
  obtain ⟨below, above, hrevs, hpoint, hbelow, habove⟩ := partitionPoint_split hasc at_
  obtain hnil | ⟨before, cur, rfl⟩ := List.eq_nil_or_concat below
  · -- the first revision is not past the revision
    subst hnil
    rw [List.nil_append] at hrevs
    obtain ⟨x, rest, hx⟩ := List.exists_cons_of_ne_nil hne
    have hpast := habove x (by rw [← hrevs, hx]; simp)
    simp only [Generation.firstMain, hx, List.head?_cons, Option.map_some, Option.getD_some]
      at hfirst
    omega
  · rw [List.concat_eq_append] at *
    refine ⟨before, cur, above, by rw [hrevs, List.append_assoc]; rfl, ?_, ?_,
      hbelow cur (by simp), habove⟩
    · rw [hpoint]; simp
    · rw [hrevs] at hasc
      intro x hx
      exact (List.pairwise_append.mp (List.pairwise_append.mp hasc).1).2.2 x hx cur (by simp)

end Revs

/-! ## The model's operations -/

/-- SOURCE: crates/mvcc/src/index.rs:52-69 -/
theorem put_reverse (h : History) (revision : Revision) :
    (h.put revision).generations.reverse = putIn revision h.generations.reverse := by
  unfold History.put
  obtain hnil | ⟨front, g, hgens⟩ := List.eq_nil_or_concat h.generations
  · simp [hnil, putIn]
  · rw [List.concat_eq_append] at hgens
    cases hc : g.closed <;> simp [hgens, hc, putIn]

/-- SOURCE: crates/mvcc/src/index.rs:75-93 -/
theorem tombstone_reverse (h : History) (revision : Revision) :
    (h.tombstone revision).2.generations.reverse = tombstoneIn revision h.generations.reverse := by
  unfold History.tombstone
  obtain hnil | ⟨front, g, hgens⟩ := List.eq_nil_or_concat h.generations
  · simp [hnil, tombstoneIn]
  · rw [List.concat_eq_append] at hgens
    cases hc : g.closed <;> simp [hgens, hc, tombstoneIn]

/-- One step of the search, where the generation has revisions.
SOURCE: crates/mvcc/src/index.rs:139-164 -/
theorem locateIn_cons {at_ index : ℕ} {g : Generation} {earlier : List (Generation × ℕ)}
    (hne : g.revs ≠ []) :
    History.locateIn at_ ((g, index) :: earlier) =
      if g.closed ∧ g.lastMain ≤ at_ then none
      else if g.firstMain ≤ at_ then some (index, History.partitionPoint g.revs at_ - 1)
      else History.locateIn at_ earlier := by
  obtain ⟨first, hfirst⟩ : ∃ first, g.revs.head? = some first := by
    rw [← Option.isSome_iff_exists, List.isSome_head?]
    exact hne
  obtain ⟨last, hlast⟩ : ∃ last, g.revs.getLast? = some last :=
    ⟨_, List.getLast?_eq_some_getLast hne⟩
  simp only [History.locateIn, hfirst, hlast, Generation.firstMain, Generation.lastMain,
    Option.map_some, Option.getD_some]

/-- What `History::at` makes of a place in the history. -/
def History.found (h : History) : Option (ℕ × ℕ) → Option Found
  | none => none
  | some (genIndex, revIndex) =>
    (h.generations[genIndex]?).bind fun generation =>
      (generation.revs[revIndex]?).map fun modified =>
        ⟨modified, generation.created,
          generation.ver - (generation.revs.length - 1 - revIndex)⟩

theorem read_eq_found (h : History) (at_ : ℕ) : h.read at_ = h.found (h.locate at_) := by
  unfold History.read History.found
  rcases h.locate at_ with _ | ⟨genIndex, revIndex⟩
  · rfl
  · dsimp only
    rcases h.generations[genIndex]? with _ | generation
    · rfl
    · dsimp only [Option.bind_some]
      cases generation.revs[revIndex]? <;> rfl

/-- The search and the reading of what it found, on any part of the numbered generations. -/
theorem found_locateIn (h : History) (at_ : ℕ) (zs : List (Generation × ℕ))
    (hget : ∀ p ∈ zs, h.generations[p.2]? = some p.1) (hne : ∀ p ∈ zs, p.1.revs ≠ []) :
    h.found (History.locateIn at_ zs) = readIn at_ (zs.map (·.1)) := by
  induction zs with
  | nil => rfl
  | cons p rest ih =>
    obtain ⟨g, index⟩ := p
    have hg : h.generations[index]? = some g := hget (g, index) (List.mem_cons_self ..)
    rw [locateIn_cons (hne (g, index) (List.mem_cons_self ..)), List.map_cons, readIn]
    dsimp only
    by_cases hdead : g.closed = true ∧ g.lastMain ≤ at_
    · rw [if_pos hdead, if_pos hdead, History.found]
    · rw [if_neg hdead, if_neg hdead]
      by_cases hlive : g.firstMain ≤ at_
      · rw [if_pos hlive, if_pos hlive, History.found, hg, Option.bind_some]
      · rw [if_neg hlive, if_neg hlive]
        exact ih (fun p hp => hget p (List.mem_cons_of_mem _ hp))
          (fun p hp => hne p (List.mem_cons_of_mem _ hp))

/-- The numbered generations, newest first, without their numbers. -/
theorem zipIdx_reverse_fst (gens : List Generation) :
    gens.zipIdx.reverse.map (·.1) = gens.reverse := by
  rw [List.map_reverse, List.zipIdx_map_fst]

/-- `History::at` finds what the recursion finds.
SOURCE: crates/mvcc/src/index.rs:166-180 -/
theorem read_eq (h : History) (at_ : ℕ) (hne : ∀ g ∈ h.generations, g.revs ≠ []) :
    h.read at_ = readIn at_ h.generations.reverse := by
  rw [read_eq_found, History.locate, found_locateIn, zipIdx_reverse_fst]
  · intro p hp
    exact List.mk_mem_zipIdx_iff_getElem?.mp (List.mem_reverse.mp hp)
  · intro p hp
    refine hne p.1 ?_
    obtain ⟨hlt, hp1⟩ := List.mem_zipIdx' (List.mem_reverse.mp hp)
    rw [hp1]
    exact List.getElem_mem hlt

/-! ## Compaction -/

/-- What compaction leaves of one numbered generation. -/
def keptOf (current : Option (ℕ × ℕ)) (at_ : ℕ) (p : Generation × ℕ) : List Revision :=
  (p.1.revs.zipIdx.filter (History.keeps current at_ p.2 p.1)).map (·.1)

/-- What compaction drops of one numbered generation. -/
def droppedOf (current : Option (ℕ × ℕ)) (at_ : ℕ) (p : Generation × ℕ) : List Revision :=
  (p.1.revs.zipIdx.filter (!History.keeps current at_ p.2 p.1 ·)).map (·.1)

section Kept

variable {at_ index : ℕ} {g : Generation} {current : Option (ℕ × ℕ)}

/-- A generation that ended by the watermark, or that a newer one makes irrelevant, goes. -/
theorem keptOf_eq_nil (hle : ∀ x ∈ g.revs, x.main ≤ at_)
    (hcur : ∀ j, current ≠ some (index, j)) : keptOf current at_ (g, index) = [] := by
  unfold keptOf
  rw [List.map_eq_nil_iff, List.filter_eq_nil_iff]
  intro x hx
  have hmain : x.1.main ≤ at_ := by
    obtain ⟨hlt, hx1⟩ := List.mem_zipIdx' hx
    exact hle _ (hx1 ▸ List.getElem_mem hlt)
  simp [History.keeps, hmain, hcur]

/-- A generation past the watermark stays whole. -/
theorem keptOf_eq_self (hlt : ∀ x ∈ g.revs, at_ < x.main) :
    keptOf current at_ (g, index) = g.revs := by
  unfold keptOf
  rw [List.filter_eq_self.mpr, List.zipIdx_map_fst]
  intro x hx
  have hmain : at_ < x.1.main := by
    obtain ⟨h, hx1⟩ := List.mem_zipIdx' hx
    exact hlt _ (hx1 ▸ List.getElem_mem h)
  simp [History.keeps, hmain]

/-- The generation alive at the watermark loses what precedes the revision in force. -/
theorem keptOf_live (hne : g.revs ≠ []) (hasc : g.revs.Pairwise (·.main < ·.main))
    (halive : ¬(g.closed = true ∧ g.lastMain ≤ at_)) (hfirst : g.firstMain ≤ at_)
    (hcur : current = some (index, History.partitionPoint g.revs at_ - 1)) :
    keptOf current at_ (g, index) =
      g.revs.drop (History.partitionPoint g.revs at_ - 1) := by
  obtain ⟨before, cur, after, hrevs, hpoint, hbefore, hcurle, hafter⟩ :=
    locate_split hne hasc hfirst
  have hlast : g.closed = true → after ≠ [] := by
    rintro hclosed rfl
    refine halive ⟨hclosed, ?_⟩
    simp [Generation.lastMain, hrevs, hcurle]
  have hlen : g.revs.length = before.length + (after.length + 1) := by simp [hrevs]
  rw [hpoint] at hcur
  have hdropBefore : before.zipIdx.filter (History.keeps current at_ index g) = [] := by
    rw [List.filter_eq_nil_iff]
    intro x hx
    obtain ⟨hlt, hx1⟩ := List.mem_zipIdx' hx
    have hmain : x.1.main < cur.main := hbefore _ (hx1 ▸ List.getElem_mem hlt)
    have hle : x.1.main ≤ at_ := by omega
    have hidx : x.2 ≠ before.length := by omega
    simp [History.keeps, hle, hcur, Ne.symm hidx]
  have hkeepCur : History.keeps current at_ index g (cur, before.length) = true := by
    have hnot : g.closed = true → before.length ≠ g.revs.length - 1 := by
      intro hclosed
      have := List.length_pos_of_ne_nil (hlast hclosed)
      omega
    cases hclosed : g.closed with
    | false => simp [History.keeps, hcur, hclosed]
    | true => simp [History.keeps, hcur, hclosed, hnot hclosed]
  have hkeepAfter : (after.zipIdx (before.length + 1)).filter
      (History.keeps current at_ index g) = after.zipIdx (before.length + 1) := by
    rw [List.filter_eq_self]
    intro x hx
    have hmain : at_ < x.1.main := hafter _ (List.fst_mem_of_mem_zipIdx hx)
    simp [History.keeps, hmain]
  unfold keptOf
  dsimp only
  rw [hpoint, hrevs, List.zipIdx_append, List.zipIdx_cons, List.filter_append, Nat.zero_add,
    hdropBefore, List.nil_append, List.filter_cons_of_pos hkeepCur, hkeepAfter, List.map_cons,
    List.zipIdx_map_fst, List.drop_left]

end Kept

/-- Compaction trims the generations as the recursion does. The numbers only have to tell
the generations apart.
SOURCE: crates/mvcc/src/index.rs:182-210 -/
theorem trim_of_keptOf {at_ : ℕ} {zs : List (Generation × ℕ)} (hchain : Chain (zs.map (·.1)))
    (hidx : zs.Pairwise fun a b => a.2 ≠ b.2) :
    (zs.map fun p => { p.1 with revs := keptOf (History.locateIn at_ zs) at_ p }).filter
      (!·.revs.isEmpty) = trim at_ (zs.map (·.1)) := by
  induction zs with
  | nil => rfl
  | cons p rest ih =>
    obtain ⟨g, index⟩ := p
    simp only [List.map_cons] at hchain
    obtain ⟨hne, hasc, hbelow, hchain⟩ := hchain
    obtain ⟨hhead, hidx⟩ := List.pairwise_cons.mp hidx
    have hrest : ∀ {bound : ℕ}, (∃ x ∈ g.revs, x.main ≤ bound) → ∀ p ∈ rest, ∀ r ∈ p.1.revs,
        r.main ≤ bound := by
      rintro bound ⟨x, hx, hle⟩ p hp r hr
      have hmem : r ∈ revsOf (rest.map (·.1)) :=
        List.mem_flatMap.mpr ⟨p.1, List.mem_map_of_mem hp, hr⟩
      have := hbelow r hmem x hx
      omega
    have hgone : ∀ current : Option (ℕ × ℕ), (∀ p ∈ rest, ∀ j, current ≠ some (p.2, j)) →
        (∃ x ∈ g.revs, x.main ≤ at_) →
        (rest.map fun p => { p.1 with revs := keptOf current at_ p }).filter
          (!·.revs.isEmpty) = [] := by
      intro current hcur hex
      rw [List.filter_eq_nil_iff]
      intro g' hg'
      obtain ⟨p, hp, rfl⟩ := List.mem_map.mp hg'
      simp [keptOf_eq_nil (hrest hex p hp) (hcur p hp)]
    rw [locateIn_cons hne, List.map_cons, List.map_cons, trim]
    dsimp only
    by_cases hdead : g.closed = true ∧ g.lastMain ≤ at_
    · have hall : ∀ x ∈ g.revs, x.main ≤ at_ := fun x hx =>
        (le_lastMain hasc hx).trans hdead.2
      obtain ⟨x, hx⟩ := List.exists_mem_of_ne_nil _ hne
      rw [if_pos hdead, if_pos hdead, keptOf_eq_nil hall (by simp),
        List.filter_cons_of_neg (by simp), hgone none (by simp) ⟨x, hx, hall x hx⟩]
    · rw [if_neg hdead, if_neg hdead]
      by_cases hlive : g.firstMain ≤ at_
      · obtain ⟨before, cur, after, hrevs, hpoint, -, hcurle, -⟩ := locate_split hne hasc hlive
        have hdrop : g.revs.drop (History.partitionPoint g.revs at_ - 1) ≠ [] := by
          rw [hpoint, hrevs, List.drop_left]
          simp
        rw [if_pos hlive, if_pos hlive, keptOf_live hne hasc hdead hlive rfl,
          List.filter_cons_of_pos (by simpa using hdrop), hgone]
        · intro p hp j heq
          simp only [Option.some.injEq, Prod.mk.injEq] at heq
          exact hhead p hp heq.1
        · exact ⟨cur, by simp [hrevs], hcurle⟩
      · have hall : ∀ x ∈ g.revs, at_ < x.main := fun x hx => by
          have := firstMain_le hasc hx
          omega
        rw [if_neg hlive, if_neg hlive, keptOf_eq_self hall,
          List.filter_cons_of_pos (by simpa using hne), ih hchain hidx]

/-- `History::compact` leaves what `trim` leaves. -/
theorem compact_reverse (h : History) (at_ : ℕ) (hchain : Chain h.generations.reverse) :
    (h.compact at_).1.generations.reverse = trim at_ h.generations.reverse := by
  have hidx : h.generations.zipIdx.reverse.Pairwise fun a b => a.2 ≠ b.2 := by
    rw [List.pairwise_reverse]
    have hnodup : (h.generations.zipIdx.map (·.2)).Nodup := by
      rw [List.zipIdx_map_snd]
      exact List.nodup_range'
    exact (List.pairwise_map.mp hnodup).imp fun hab => Ne.symm hab
  rw [← zipIdx_reverse_fst] at hchain
  rw [← zipIdx_reverse_fst h.generations, ← trim_of_keptOf hchain hidx, List.map_reverse,
    List.filter_reverse]
  rfl

theorem chain_revs {gs : List Generation} (hchain : Chain gs) : ∀ g ∈ gs, g.revs ≠ [] := by
  induction gs with
  | nil => simp
  | cons g earlier ih =>
    obtain ⟨hne, -, -, hrest⟩ := hchain
    intro g' hg'
    rcases List.mem_cons.mp hg' with rfl | hg'
    · exact hne
    · exact ih hrest g' hg'

theorem nodup_revsOf {gs : List Generation} (hchain : Chain gs) : (revsOf gs).Nodup := by
  induction gs with
  | nil => exact List.nodup_nil
  | cons g earlier ih =>
    obtain ⟨-, hasc, hbelow, hrest⟩ := hchain
    refine List.nodup_append.mpr ⟨hasc.imp fun hab heq => by simp [heq] at hab, ih hrest, ?_⟩
    rintro x hx _ hy rfl
    exact absurd (hbelow x hy x hx) (lt_irrefl _)

theorem mem_revsOf_reverse {gs : List Generation} {x : Revision} :
    x ∈ revsOf gs.reverse ↔ x ∈ revsOf gs := by
  simp [revsOf]

/-- Generations left without revisions have none to count. -/
theorem revsOf_filter (gs : List Generation) :
    revsOf (gs.filter (!·.revs.isEmpty)) = revsOf gs := by
  induction gs with
  | nil => rfl
  | cons g rest ih =>
    cases hempty : g.revs.isEmpty with
    | true =>
      rw [List.filter_cons_of_neg (by simp [hempty]), ih, revsOf_cons, List.isEmpty_iff.mp hempty,
        List.nil_append]
    | false => rw [List.filter_cons_of_pos (by simp [hempty]), revsOf_cons, revsOf_cons, ih]

/-- What compaction drops of a history and what it leaves are what there was. -/
theorem perm_compact (h : History) (at_ : ℕ) :
    ((h.compact at_).2 ++ revsOf (h.compact at_).1.generations).Perm (revsOf h.generations) := by
  -- each generation is, in some order, what it keeps and what it drops
  have hone : ∀ p : Generation × ℕ,
      (droppedOf (h.locate at_) at_ p ++ keptOf (h.locate at_) at_ p).Perm p.1.revs := by
    intro p
    have hsplit := (List.filter_append_perm (History.keeps (h.locate at_) at_ p.2 p.1)
      p.1.revs.zipIdx).map (·.1)
    rw [List.map_append, List.zipIdx_map_fst] at hsplit
    exact List.perm_append_comm.trans hsplit
  have hkept : revsOf (h.compact at_).1.generations =
      h.generations.zipIdx.flatMap (keptOf (h.locate at_) at_) :=
    (revsOf_filter _).trans (List.flatMap_map ..)
  have hall : revsOf h.generations = h.generations.zipIdx.flatMap fun p => p.1.revs := by
    conv_lhs => rw [revsOf, ← List.zipIdx_map_fst 0 h.generations, List.flatMap_map]
  rw [hkept, hall]
  exact (List.flatMap_append_perm _ _ _).trans (List.Perm.flatMap_left _ fun p _ => hone p)

/-- What compaction drops of a history is what it does not leave. -/
theorem mem_dropped (h : History) (at_ : ℕ) (hchain : Chain h.generations.reverse) (x : Revision) :
    x ∈ (h.compact at_).2 ↔
      x ∈ revsOf h.generations.reverse ∧ x ∉ revsOf (trim at_ h.generations.reverse) := by
  have hsplit := perm_compact h at_
  have hnodup : (revsOf h.generations).Nodup := by
    have hrev : (revsOf h.generations.reverse).Nodup := nodup_revsOf hchain
    have : (revsOf h.generations.reverse).Perm (revsOf h.generations) :=
      List.Perm.flatMap_right _ (List.reverse_perm _)
    exact this.nodup_iff.mp hrev
  rw [← compact_reverse h at_ hchain, mem_revsOf_reverse, mem_revsOf_reverse, ← hsplit.mem_iff,
    List.mem_append]
  have hdisj := (List.nodup_append.mp (hsplit.nodup_iff.mpr hnodup)).2.2
  constructor
  · intro hx
    exact ⟨.inl hx, fun hk => hdisj x hx x hk rfl⟩
  · rintro ⟨hd | hk, hnot⟩
    · exact hd
    · exact absurd hk hnot

/-- The revisions of generations read from the oldest to the newest ascend. -/
theorem pairwise_revsOf_reverse {gs : List Generation} (hchain : Chain gs) :
    (revsOf gs.reverse).Pairwise (·.main < ·.main) := by
  induction gs with
  | nil => exact List.Pairwise.nil
  | cons g earlier ih =>
    obtain ⟨-, hasc, hbelow, hrest⟩ := hchain
    have hsplit : revsOf (g :: earlier).reverse = revsOf earlier.reverse ++ g.revs := by
      simp [revsOf]
    rw [hsplit]
    refine List.pairwise_append.mpr ⟨ih hrest, hasc, fun r hr x hx => ?_⟩
    exact hbelow r (mem_revsOf_reverse.mp hr) x hx

/-- What compaction drops of a history it lists from the oldest to the newest.
SOURCE: crates/mvcc/src/index.rs:182-210 -/
theorem pairwise_dropped (h : History) (at_ : ℕ) (hchain : Chain h.generations.reverse) :
    (h.compact at_).2.Pairwise (·.main < ·.main) := by
  have hall : (revsOf h.generations).Pairwise (·.main < ·.main) := by
    have hreversed := pairwise_revsOf_reverse hchain
    rwa [List.reverse_reverse] at hreversed
  have hone : ∀ p ∈ h.generations.zipIdx,
      (droppedOf (h.locate at_) at_ p).Sublist p.1.revs := by
    intro p _
    have hsub := (List.filter_sublist (l := p.1.revs.zipIdx)
      (p := (!History.keeps (h.locate at_) at_ p.2 p.1 ·))).map (·.1)
    rwa [List.zipIdx_map_fst] at hsub
  have hflat : (h.generations.zipIdx.flatMap fun p => p.1.revs) = revsOf h.generations := by
    have hmap := List.flatMap_map Prod.fst Generation.revs h.generations.zipIdx
    rw [List.zipIdx_map_fst] at hmap
    exact hmap.symm
  exact hall.sublist (hflat ▸ List.Sublist.flatMap_right _ hone)

end Hadar.Mvcc
