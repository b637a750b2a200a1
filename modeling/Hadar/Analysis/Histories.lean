import Hadar.Analysis.Generations

/-!
# A key's generations against its events

Entering a key's events one after the other builds generations whose newest one mirrors
the life the key is in. Compaction commutes with entering what is newer than the
watermark, composes with a later compaction, and keeps exactly the revisions that the
watermark cannot forget; so a history compacted any number of times is the trimmed replay
of all the events there ever were.
-/

set_option autoImplicit false

namespace Hadar.Mvcc

open Hadar.Lib Hadar.Storage

/-- The generations of a key, newest first, after its events. -/
def replayIn (es : List Event) : List Generation := es.foldl enterIn []

theorem replayIn_concat (es : List Event) (e : Event) :
    replayIn (es ++ [e]) = enterIn (replayIn es) e := by
  simp [replayIn]

/-! ## What a step does to a generation -/

/-- A generation that took one revision more. -/
def Generation.push (g : Generation) (rev : Revision) (closed : Bool) : Generation :=
  { g with revs := g.revs ++ [rev], ver := g.ver + 1, closed := closed }

/-- A step leaves the generations alone, opens one, or pushes onto the open one. -/
theorem enterIn_cases (gs : List Generation) (e : Event) :
    (enterIn gs e = gs ∧ e.dies = true ∧ (gs = [] ∨ ∃ g earlier, gs = g :: earlier ∧
        g.closed = true)) ∨
      (enterIn gs e = ⟨e.1, 1, [e.1], false⟩ :: gs ∧ e.dies = false ∧
        (gs = [] ∨ ∃ g earlier, gs = g :: earlier ∧ g.closed = true)) ∨
      ∃ g earlier, gs = g :: earlier ∧ g.closed = false ∧
        enterIn gs e = g.push e.1 e.dies :: earlier := by
  cases hdies : e.dies <;> rcases gs with _ | ⟨g, earlier⟩
  · exact .inr (.inl ⟨by simp [enterIn, hdies, putIn], rfl, .inl rfl⟩)
  · cases hc : g.closed
    · refine .inr (.inr ⟨g, earlier, rfl, hc, ?_⟩)
      simp [enterIn, hdies, putIn, hc, Generation.push]
    · exact .inr (.inl ⟨by simp [enterIn, hdies, putIn, hc], rfl, .inr ⟨g, earlier, rfl, hc⟩⟩)
  · exact .inl ⟨by simp [enterIn, hdies, tombstoneIn], rfl, .inl rfl⟩
  · cases hc : g.closed
    · refine .inr (.inr ⟨g, earlier, rfl, hc, ?_⟩)
      simp [enterIn, hdies, tombstoneIn, hc, Generation.push]
    · exact .inl ⟨by simp [enterIn, hdies, tombstoneIn, hc], rfl, .inr ⟨g, earlier, rfl, hc⟩⟩

section Push

variable {g : Generation} {rev : Revision} {closed : Bool} {at_ : ℕ}

theorem push_firstMain (hne : g.revs ≠ []) : (g.push rev closed).firstMain = g.firstMain := by
  obtain ⟨first, rest, hrevs⟩ := List.exists_cons_of_ne_nil hne
  simp [Generation.firstMain, Generation.push, hrevs]

theorem push_lastMain : (g.push rev closed).lastMain = rev.main := by
  simp [Generation.lastMain, Generation.push]

/-- A revision past the date does not move `partition_point`. -/
theorem push_partitionPoint (hlt : at_ < rev.main) :
    History.partitionPoint (g.push rev closed).revs at_ =
      History.partitionPoint g.revs at_ := by
  unfold History.partitionPoint Generation.push
  dsimp only
  rw [List.takeWhile_append]
  split
  · rename_i hall
    simp [hlt, hall]
  · rfl

end Push

/-- Dropping no more than the revisions before the current one moves `partition_point` by
as many. -/
theorem partitionPoint_drop {revs : List Revision} {at_ k : ℕ}
    (hk : k ≤ History.partitionPoint revs at_) :
    History.partitionPoint (revs.drop k) at_ = History.partitionPoint revs at_ - k := by
  unfold History.partitionPoint at *
  induction k generalizing revs with
  | zero => rfl
  | succ k ih =>
    cases revs with
    | nil => simp at hk
    | cons x rest =>
      by_cases hx : x.main ≤ at_
      · simp only [List.takeWhile_cons, hx, decide_true, if_true, List.length_cons,
          List.drop_succ_cons] at hk ⊢
        rw [ih (by omega)]
        omega
      · simp [hx] at hk

theorem partitionPoint_mono (revs : List Revision) {w at_ : ℕ} (h : w ≤ at_) :
    History.partitionPoint revs w ≤ History.partitionPoint revs at_ := by
  unfold History.partitionPoint
  induction revs with
  | nil => simp
  | cons x rest ih =>
    by_cases hx : x.main ≤ w
    · have hx' : x.main ≤ at_ := hx.trans h
      simpa [hx, hx'] using ih
    · simp [hx]

/-! ## The generation alive at a watermark -/

/-- The generation alive at the watermark, without what precedes the revision in force. -/
def Generation.cutAt (g : Generation) (w : ℕ) : Generation :=
  { g with revs := g.revs.drop (History.partitionPoint g.revs w - 1) }

theorem trim_cons (w : ℕ) (g : Generation) (earlier : List Generation) :
    trim w (g :: earlier) = if g.closed ∧ g.lastMain ≤ w then []
      else if g.firstMain ≤ w then [g.cutAt w] else g :: trim w earlier := rfl

section Cut

variable {g : Generation} {w at_ : ℕ}

/-- A generation that began by the watermark is cut in front of the revision in force. -/
theorem cutAt_revs (hne : g.revs ≠ []) (hasc : g.revs.Pairwise (·.main < ·.main))
    (hfirst : g.firstMain ≤ w) :
    ∃ before cur after, g.revs = before ++ cur :: after ∧ (g.cutAt w).revs = cur :: after ∧
      (∀ x ∈ before, x.main < cur.main) ∧ cur.main ≤ w ∧ ∀ x ∈ after, w < x.main := by
  obtain ⟨before, cur, after, hrevs, hpoint, hrest⟩ := locate_split hne hasc hfirst
  refine ⟨before, cur, after, hrevs, ?_, hrest⟩
  rw [Generation.cutAt, hpoint, hrevs, List.drop_left]

theorem cutAt_lastMain (hne : g.revs ≠ []) (hasc : g.revs.Pairwise (·.main < ·.main))
    (hfirst : g.firstMain ≤ w) : (g.cutAt w).lastMain = g.lastMain := by
  obtain ⟨before, cur, after, hrevs, hcut, -⟩ := cutAt_revs hne hasc hfirst
  obtain ⟨last, hlast⟩ : ∃ last, (cur :: after).getLast? = some last :=
    ⟨_, List.getLast?_eq_some_getLast (List.cons_ne_nil _ _)⟩
  rw [Generation.lastMain, hcut, Generation.lastMain, hrevs, List.getLast?_append, hlast,
    Option.some_or]

theorem cutAt_firstMain_le (hne : g.revs ≠ []) (hasc : g.revs.Pairwise (·.main < ·.main))
    (hfirst : g.firstMain ≤ w) : (g.cutAt w).firstMain ≤ w := by
  obtain ⟨before, cur, after, -, hcut, -, hcur, -⟩ := cutAt_revs hne hasc hfirst
  rw [Generation.firstMain, hcut]
  exact hcur

theorem partitionPoint_pos (hne : g.revs ≠ []) (hfirst : g.firstMain ≤ w) :
    0 < History.partitionPoint g.revs w := by
  obtain ⟨first, rest, hrevs⟩ := List.exists_cons_of_ne_nil hne
  have hle : first.main ≤ w := by simpa [Generation.firstMain, hrevs] using hfirst
  simp [History.partitionPoint, hrevs, hle]

/-- A cut generation locates a later date past the revisions that were cut. -/
theorem cutAt_partitionPoint (h : w ≤ at_) :
    History.partitionPoint (g.cutAt w).revs at_ =
      History.partitionPoint g.revs at_ - (History.partitionPoint g.revs w - 1) :=
  partitionPoint_drop ((Nat.sub_le _ _).trans (partitionPoint_mono _ h))

end Cut

/-! ## Chains -/

theorem chain_push {g : Generation} {earlier : List Generation} {rev : Revision} {closed : Bool}
    (hchain : Chain (g :: earlier)) (hnew : ∀ x ∈ revsOf (g :: earlier), x.main < rev.main) :
    Chain (g.push rev closed :: earlier) := by
  obtain ⟨hne, hasc, hbelow, hrest⟩ := hchain
  refine ⟨by simp [Generation.push], ?_, ?_, hrest⟩
  · refine List.pairwise_append.mpr ⟨hasc, List.pairwise_singleton _ _, ?_⟩
    intro x hx y hy
    obtain rfl := List.mem_singleton.mp hy
    exact hnew x (by simp [hx])
  · intro r hr x hx
    rcases List.mem_append.mp hx with hx | hx
    · exact hbelow r hr x hx
    · obtain rfl := List.mem_singleton.mp hx
      exact hnew r (by simp [hr])

/-- Entering a revision newer than every other keeps the chain. -/
theorem chain_enterIn {gs : List Generation} {e : Event} (hchain : Chain gs)
    (hnew : ∀ x ∈ revsOf gs, x.main < e.date) : Chain (enterIn gs e) := by
  obtain ⟨heq, -, -⟩ | ⟨heq, -, -⟩ | ⟨g, earlier, rfl, -, heq⟩ := enterIn_cases gs e
  · rw [heq]; exact hchain
  · rw [heq]
    refine ⟨by simp, List.pairwise_singleton _ _, ?_, hchain⟩
    intro r hr x hx
    obtain rfl := List.mem_singleton.mp hx
    exact hnew r hr
  · rw [heq]
    exact chain_push hchain hnew

/-- Entering an event adds its revision at most. -/
theorem mem_revsOf_enterIn {gs : List Generation} {e : Event} {r : Revision}
    (hr : r ∈ revsOf (enterIn gs e)) : r ∈ revsOf gs ∨ r = e.1 := by
  obtain ⟨heq, -, -⟩ | ⟨heq, -, -⟩ | ⟨g, earlier, rfl, -, heq⟩ := enterIn_cases gs e
  · exact .inl (heq ▸ hr)
  · rw [heq, revsOf_cons] at hr
    exact (List.mem_append.mp hr).symm.imp_right List.mem_singleton.mp
  · rw [heq, revsOf_cons, Generation.push, List.append_assoc] at hr
    rw [revsOf_cons]
    rcases List.mem_append.mp hr with hr | hr
    · exact .inl (List.mem_append_left _ hr)
    · rcases List.mem_append.mp hr with hr | hr
      · exact .inr (List.mem_singleton.mp hr)
      · exact .inl (List.mem_append_right _ hr)

/-- Compaction only takes revisions away. -/
theorem revsOf_trim_subset {gs : List Generation} {w : ℕ} {x : Revision}
    (hx : x ∈ revsOf (trim w gs)) : x ∈ revsOf gs := by
  induction gs with
  | nil => exact hx
  | cons g earlier ih =>
    rw [trim] at hx
    split at hx
    · simp at hx
    · split at hx
      · simp only [revsOf_cons, revsOf_nil, List.append_nil] at hx
        exact List.mem_append_left _ (List.mem_of_mem_drop hx)
      · rcases List.mem_append.mp hx with hx | hx
        · exact List.mem_append_left _ hx
        · exact List.mem_append_right _ (ih hx)

theorem chain_trim {gs : List Generation} {w : ℕ} (hchain : Chain gs) : Chain (trim w gs) := by
  induction gs with
  | nil => trivial
  | cons g earlier ih =>
    obtain ⟨hne, hasc, hbelow, hrest⟩ := hchain
    rw [trim_cons]
    split
    · trivial
    · split
      · rename_i hfirst
        obtain ⟨before, cur, after, -, hcut, -⟩ := cutAt_revs hne hasc hfirst
        refine ⟨?_, hasc.sublist (List.drop_sublist _ _), by simp, trivial⟩
        rw [hcut]
        exact List.cons_ne_nil _ _
      · exact ⟨hne, hasc, fun r hr => hbelow r (revsOf_trim_subset hr), ih hrest⟩

/-! ## Compaction and what comes after it -/

/-- A later compaction does not see an earlier one. -/
theorem trim_trim {gs : List Generation} {w at_ : ℕ} (hchain : Chain gs) (h : w ≤ at_) :
    trim at_ (trim w gs) = trim at_ gs := by
  induction gs with
  | nil => rfl
  | cons g earlier ih =>
    obtain ⟨hne, hasc, -, hrest⟩ := hchain
    rw [trim_cons w, trim_cons at_ g]
    by_cases hdead : g.closed = true ∧ g.lastMain ≤ w
    · have hdead' : g.closed = true ∧ g.lastMain ≤ at_ := ⟨hdead.1, hdead.2.trans h⟩
      rw [if_pos hdead, if_pos hdead', trim]
    · rw [if_neg hdead]
      by_cases hlive : g.firstMain ≤ w
      · have hlast := cutAt_lastMain hne hasc hlive
        have hfirst := (cutAt_firstMain_le hne hasc hlive).trans h
        have hpos := partitionPoint_pos hne hlive
        have hmono := partitionPoint_mono g.revs h
        rw [if_pos hlive, trim_cons, hlast, if_pos hfirst, if_pos (hlive.trans h)]
        have hcut : (g.cutAt w).cutAt at_ = g.cutAt at_ := by
          rw [Generation.cutAt, cutAt_partitionPoint h]
          simp only [Generation.cutAt, List.drop_drop]
          congr 2
          omega
        rw [hcut]
        rfl
      · rw [if_neg hlive, trim_cons, ih hrest]

/-- An earlier compaction finds nothing left to trim. -/
theorem trim_trim_of_le {gs : List Generation} {w at_ : ℕ} (hchain : Chain gs) (h : at_ ≤ w) :
    trim at_ (trim w gs) = trim w gs := by
  induction gs with
  | nil => rfl
  | cons g earlier ih =>
    obtain ⟨hne, hasc, -, hrest⟩ := hchain
    rw [trim_cons w]
    by_cases hdead : g.closed = true ∧ g.lastMain ≤ w
    · rw [if_pos hdead, trim]
    · rw [if_neg hdead]
      by_cases hlive : g.firstMain ≤ w
      · have hlast := cutAt_lastMain hne hasc hlive
        have hdead' : ¬((g.cutAt w).closed = true ∧ (g.cutAt w).lastMain ≤ at_) := fun hd =>
          hdead ⟨hd.1, hlast ▸ hd.2.trans h⟩
        rw [if_pos hlive, trim_cons, if_neg hdead', trim]
        split
        · -- the revision in force at the later watermark is the first one left
          rename_i hfirst
          obtain ⟨before, cur, after, -, hcut, -, hcur, hafter⟩ := cutAt_revs hne hasc hlive
          have hcurle : cur.main ≤ at_ := by
            simpa [Generation.firstMain, hcut] using hfirst
          have hpoint : History.partitionPoint (g.cutAt w).revs at_ - 1 = 0 := by
            have hstop : (after.takeWhile fun rev => decide (rev.main ≤ at_)) = [] := by
              cases after with
              | nil => rfl
              | cons x rest =>
                have := hafter x (List.mem_cons_self ..)
                exact List.takeWhile_cons_of_neg (by simp; omega)
            rw [History.partitionPoint, hcut, List.takeWhile_cons_of_pos (by simp [hcurle]), hstop]
            rfl
          have hself : (g.cutAt w).cutAt at_ = g.cutAt w := by
            rw [Generation.cutAt, hpoint, List.drop_zero]
          rw [hself]
        · rfl
      · have hdead' : ¬(g.closed = true ∧ g.lastMain ≤ at_) := fun hd =>
          hdead ⟨hd.1, hd.2.trans h⟩
        rw [if_neg hlive, trim_cons, if_neg hdead', if_neg (by omega), ih hrest]

/-- Two compactions come to one at the larger watermark. -/
theorem trim_trim_max {gs : List Generation} (w at_ : ℕ) (hchain : Chain gs) :
    trim at_ (trim w gs) = trim (max w at_) gs := by
  rcases le_total w at_ with h | h
  · rw [trim_trim hchain h, max_eq_right h]
  · rw [trim_trim_of_le hchain h, max_eq_left h]

/-- What is not alive is not alive once trimmed. -/
theorem trim_not_open {gs : List Generation} (w : ℕ)
    (hgs : gs = [] ∨ ∃ g earlier, gs = g :: earlier ∧ g.closed = true) :
    trim w gs = [] ∨ ∃ g earlier, trim w gs = g :: earlier ∧ g.closed = true := by
  rcases hgs with rfl | ⟨g, earlier, rfl, hclosed⟩
  · exact .inl rfl
  · rw [trim_cons]
    split
    · exact .inl rfl
    · split
      · exact .inr ⟨_, _, rfl, hclosed⟩
      · exact .inr ⟨_, _, rfl, hclosed⟩

/-- Compaction commutes with entering what is newer than the watermark. -/
theorem trim_enterIn {gs : List Generation} {w : ℕ} {e : Event} (hchain : Chain gs)
    (h : w < e.date) : trim w (enterIn gs e) = enterIn (trim w gs) e := by
  obtain ⟨heq, hdies, hgs⟩ | ⟨heq, hdies, hgs⟩ | ⟨g, earlier, rfl, hopen, heq⟩ := enterIn_cases gs e
  · -- a deletion of something not alive: nothing is alive once trimmed either
    rw [heq]
    have hkeep : ∀ gs' : List Generation, (gs' = [] ∨ ∃ g earlier, gs' = g :: earlier ∧
        g.closed = true) → gs' = enterIn gs' e := by
      rintro _ (rfl | ⟨g, earlier, rfl, hclosed⟩)
      · simp [enterIn, hdies, tombstoneIn]
      · simp [enterIn, hdies, tombstoneIn, hclosed]
    exact hkeep _ (trim_not_open w hgs)
  · rw [heq, trim_cons]
    have hnew : ¬ e.1.main ≤ w := by
      have : e.date = e.1.main := rfl
      omega
    rw [if_neg (by simp), if_neg (by simpa [Generation.firstMain] using hnew)]
    have hopens : ∀ gs' : List Generation, (gs' = [] ∨ ∃ g earlier, gs' = g :: earlier ∧
        g.closed = true) → ⟨e.1, 1, [e.1], false⟩ :: gs' = enterIn gs' e := by
      rintro _ (rfl | ⟨g, earlier, rfl, hclosed⟩)
      · simp [enterIn, hdies, putIn]
      · simp [enterIn, hdies, putIn, hclosed]
    exact hopens _ (trim_not_open w hgs)
  · obtain ⟨hne, hasc, -, -⟩ := hchain
    have hnew : w < e.1.main := h
    have hpush : ∀ g' : Generation, ∀ earlier', g'.closed = false →
        enterIn (g' :: earlier') e = g'.push e.1 e.dies :: earlier' := by
      intro g' earlier' hc
      cases hd : e.dies <;>
        simp [enterIn, hd, putIn, tombstoneIn, hc, Generation.push]
    have hpushed : ¬((g.push e.1 e.dies).closed = true ∧ (g.push e.1 e.dies).lastMain ≤ w) := by
      rw [push_lastMain]
      omega
    have hlive : ¬(g.closed = true ∧ g.lastMain ≤ w) := by simp [hopen]
    rw [heq, trim_cons, trim_cons, if_neg hpushed, if_neg hlive, push_firstMain hne]
    by_cases hfirst : g.firstMain ≤ w
    · have hopen' : (g.cutAt w).closed = false := hopen
      rw [if_pos hfirst, if_pos hfirst, hpush _ _ hopen']
      have hle : History.partitionPoint g.revs w - 1 ≤ g.revs.length := by
        have : History.partitionPoint g.revs w ≤ g.revs.length :=
          (List.takeWhile_prefix _).length_le
        omega
      have hcut : (g.push e.1 e.dies).cutAt w = (g.cutAt w).push e.1 e.dies := by
        rw [Generation.cutAt, push_partitionPoint hnew]
        simp only [Generation.push, Generation.cutAt]
        rw [List.drop_append_of_le_length hle]
      rw [hcut]
    · rw [if_neg hfirst, if_neg hfirst, hpush _ _ hopen]

/-! ## Reading -/

theorem readIn_cons (at_ : ℕ) (g : Generation) (earlier : List Generation) :
    readIn at_ (g :: earlier) = if g.closed ∧ g.lastMain ≤ at_ then none
      else if g.firstMain ≤ at_ then
        (g.revs[History.partitionPoint g.revs at_ - 1]?).map fun modified =>
          ⟨modified, g.created,
            g.ver - (g.revs.length - 1 - (History.partitionPoint g.revs at_ - 1))⟩
      else readIn at_ earlier := rfl

/-- A read at or past the watermark does not see a compaction. -/
theorem readIn_trim {gs : List Generation} {w at_ : ℕ} (hchain : Chain gs) (h : w ≤ at_) :
    readIn at_ (trim w gs) = readIn at_ gs := by
  induction gs with
  | nil => rfl
  | cons g earlier ih =>
    obtain ⟨hne, hasc, -, hrest⟩ := hchain
    rw [trim_cons, readIn_cons at_ g]
    by_cases hdead : g.closed = true ∧ g.lastMain ≤ w
    · rw [if_pos hdead, if_pos ⟨hdead.1, hdead.2.trans h⟩, readIn]
    · rw [if_neg hdead]
      by_cases hlive : g.firstMain ≤ w
      · have hfirst := (cutAt_firstMain_le hne hasc hlive).trans h
        have hpos := partitionPoint_pos hne hlive
        have hmono := partitionPoint_mono g.revs h
        rw [if_pos hlive, readIn_cons, cutAt_lastMain hne hasc hlive, if_pos hfirst,
          if_pos (hlive.trans h), cutAt_partitionPoint h]
        -- both read the same revision, at places that differ by what was cut
        have hplace : (g.cutAt w).revs[History.partitionPoint g.revs at_ -
            (History.partitionPoint g.revs w - 1) - 1]? =
            g.revs[History.partitionPoint g.revs at_ - 1]? := by
          simp only [Generation.cutAt, List.getElem?_drop]
          congr 1
          omega
        have hver : (g.cutAt w).revs.length - 1 - (History.partitionPoint g.revs at_ -
            (History.partitionPoint g.revs w - 1) - 1) =
            g.revs.length - 1 - (History.partitionPoint g.revs at_ - 1) := by
          simp only [Generation.cutAt, List.length_drop]
          omega
        rw [hplace, hver]
        rfl
      · rw [if_neg hlive, readIn_cons, ih hrest]

/-- What a read finds does not depend on what is newer. -/
theorem readIn_enterIn {gs : List Generation} {at_ : ℕ} {e : Event} (hchain : Chain gs)
    (h : at_ < e.date) : readIn at_ (enterIn gs e) = readIn at_ gs := by
  have hnew : at_ < e.1.main := h
  obtain ⟨heq, -, -⟩ | ⟨heq, -, -⟩ | ⟨g, earlier, rfl, hopen, heq⟩ := enterIn_cases gs e
  · rw [heq]
  · rw [heq, readIn_cons, if_neg (by simp), if_neg (by simpa [Generation.firstMain] using hnew)]
  · obtain ⟨hne, hasc, -, -⟩ := hchain
    have hpushed :
        ¬((g.push e.1 e.dies).closed = true ∧ (g.push e.1 e.dies).lastMain ≤ at_) := by
      rw [push_lastMain]
      omega
    have hlive : ¬(g.closed = true ∧ g.lastMain ≤ at_) := by simp [hopen]
    rw [heq, readIn_cons, readIn_cons, if_neg hpushed, if_neg hlive, push_firstMain hne,
      push_partitionPoint hnew]
    by_cases hfirst : g.firstMain ≤ at_
    · obtain ⟨before, cur, after, hrevs, hpoint, -⟩ := locate_split hne hasc hfirst
      rw [if_pos hfirst, if_pos hfirst, hpoint]
      have hplace : (g.push e.1 e.dies).revs[before.length]? = g.revs[before.length]? := by
        simp only [Generation.push]
        rw [List.getElem?_append_left (by simp [hrevs])]
      have hver : (g.push e.1 e.dies).ver -
          ((g.push e.1 e.dies).revs.length - 1 - before.length) =
          g.ver - (g.revs.length - 1 - before.length) := by
        have hlen : g.revs.length = before.length + (after.length + 1) := by simp [hrevs]
        simp only [Generation.push, List.length_append, List.length_singleton]
        omega
      rw [hplace, hver]
      rfl
    · rw [if_neg hfirst, if_neg hfirst]

/-- A read finds one of the revisions, and none past the one asked for. -/
theorem mem_of_readIn {gs : List Generation} {at_ : ℕ} {rev : Revision} (hchain : Chain gs)
    (h : (readIn at_ gs).map (·.modified) = some rev) : rev ∈ revsOf gs ∧ rev.main ≤ at_ := by
  induction gs with
  | nil => cases h
  | cons g earlier ih =>
    obtain ⟨hne, hasc, -, hrest⟩ := hchain
    rw [readIn_cons] at h
    split at h
    · cases h
    · split at h
      · rename_i hlive
        obtain ⟨before, cur, after, hrevs, hpoint, -, hcurle, -⟩ := locate_split hne hasc hlive
        have hcur : g.revs[before.length]? = some cur := by simp [hrevs]
        rw [hpoint, hcur] at h
        obtain rfl : cur = rev := Option.some.inj h
        exact ⟨List.mem_append_left _ (List.mem_of_getElem? hcur), hcurle⟩
      · obtain ⟨hmem, hle⟩ := ih hrest h
        exact ⟨List.mem_append_right _ hmem, hle⟩

/-- Compaction keeps what lies past the watermark and the revision a read there finds.
SOURCE: crates/mvcc/src/index.rs:182-210 -/
theorem mem_revsOf_trim {gs : List Generation} {w : ℕ} (hchain : Chain gs) (rev : Revision) :
    rev ∈ revsOf (trim w gs) ↔
      rev ∈ revsOf gs ∧ (w < rev.main ∨ (readIn w gs).map (·.modified) = some rev) := by
  induction gs with
  | nil => simp [trim]
  | cons g earlier ih =>
    obtain ⟨hne, hasc, hbelow, hrest⟩ := hchain
    rw [trim_cons, readIn_cons]
    have holder : ∀ {bound}, (∃ x ∈ g.revs, x.main ≤ bound) →
        ∀ r ∈ revsOf earlier, r.main ≤ bound := by
      rintro bound ⟨x, hx, hle⟩ r hr
      have := hbelow r hr x hx
      omega
    by_cases hdead : g.closed = true ∧ g.lastMain ≤ w
    · rw [if_pos hdead, if_pos hdead]
      have hall : ∀ x ∈ g.revs, x.main ≤ w := fun x hx => (le_lastMain hasc hx).trans hdead.2
      obtain ⟨x, hx⟩ := List.exists_mem_of_ne_nil _ hne
      simp only [revsOf_nil, List.not_mem_nil, Option.map_none, reduceCtorEq, or_false,
        false_iff, not_and, not_lt, revsOf_cons, List.mem_append]
      rintro (hr | hr)
      · exact hall rev hr
      · exact holder ⟨x, hx, hall x hx⟩ rev hr
    · rw [if_neg hdead, if_neg hdead]
      by_cases hlive : g.firstMain ≤ w
      · obtain ⟨before, cur, after, hrevs, hpoint, hbefore, hcurle, hafter⟩ :=
          locate_split hne hasc hlive
        have hcut : (g.cutAt w).revs = cur :: after := by
          rw [Generation.cutAt, hpoint, hrevs, List.drop_left]
        have hcur : g.revs[before.length]? = some cur := by simp [hrevs]
        have hearlier := holder ⟨cur, by simp [hrevs], hcurle⟩
        rw [if_pos hlive, if_pos hlive, hpoint, hcur]
        simp only [revsOf_cons, revsOf_nil, List.append_nil, hcut, Option.map_some,
          Option.some.injEq, List.mem_append, hrevs, List.mem_cons]
        constructor
        · rintro (rfl | hr)
          · exact ⟨.inl (.inr (.inl rfl)), .inr rfl⟩
          · exact ⟨.inl (.inr (.inr hr)), .inl (hafter rev hr)⟩
        · rintro ⟨(hr | rfl | hr) | hr, hkeep⟩
          · rcases hkeep with hlt | rfl
            · have := hbefore rev hr
              omega
            · exact .inl rfl
          · exact .inl rfl
          · exact .inr hr
          · rcases hkeep with hlt | rfl
            · have := hearlier rev hr
              omega
            · exact .inl rfl
      · have hall : ∀ x ∈ g.revs, w < x.main := fun x hx => by
          have := firstMain_le hasc hx
          omega
        rw [if_neg hlive, if_neg hlive]
        simp only [revsOf_cons, List.mem_append, ih hrest]
        constructor
        · rintro (hr | ⟨hr, hkeep⟩)
          · exact ⟨.inl hr, .inl (hall rev hr)⟩
          · exact ⟨.inr hr, hkeep⟩
        · rintro ⟨hr | hr, hkeep⟩
          · exact .inl hr
          · exact .inr ⟨hr, hkeep⟩

/-! ## Replaying a key's events -/

/-- The generations mirror a life: the newest one is open and tells of it, or nothing is
alive. -/
def Mirrors (gs : List Generation) : List Event → Prop
  | [] => gs = [] ∨ ∃ g earlier, gs = g :: earlier ∧ g.closed = true
  | first :: rest => ∃ earlier,
      gs = ⟨first.1, rest.length + 1, (first :: rest).map (·.1), false⟩ :: earlier

/-- There is no life exactly where no generation is open. -/
theorem Mirrors.nil_iff {gs : List Generation} {lived : List Event} (h : Mirrors gs lived) :
    lived = [] ↔ gs = [] ∨ ∃ g earlier, gs = g :: earlier ∧ g.closed = true := by
  cases lived with
  | nil => exact ⟨fun _ => h, fun _ => rfl⟩
  | cons first rest =>
    obtain ⟨earlier, rfl⟩ := h
    simp

/-- What a read of the newest revision finds of a life. -/
def foundIn (lived : List Event) : Option Found :=
  match lived.head?, lived.getLast? with
  | some first, some last => some ⟨last.1, first.1, lived.length⟩
  | _, _ => none

/-- Entering events one by one, the generations mirror the life the key is in.
SOURCE: crates/mvcc/src/index.rs:52-93 -/
theorem replayIn_mirrors (es : List Event) : Mirrors (replayIn es) (life Event.dies es) := by
  induction es using List.reverseRecOn with
  | nil => exact .inl rfl
  | append_singleton es e ih =>
    rw [replayIn_concat]
    cases hdies : e.dies with
    | true =>
      rw [life_concat_dies hdies]
      cases hlife : life Event.dies es with
      | nil =>
        rw [hlife] at ih
        rcases ih with hgs | ⟨g, earlier, hgs, hclosed⟩
        · exact .inl (by simp [hgs, enterIn, hdies, tombstoneIn])
        · exact .inr ⟨g, earlier, by simp [hgs, enterIn, hdies, tombstoneIn, hclosed], hclosed⟩
      | cons first rest =>
        rw [hlife] at ih
        obtain ⟨earlier, hgs⟩ := ih
        rw [hgs, enterIn, if_pos hdies, tombstoneIn, if_neg (by simp)]
        exact .inr ⟨_, earlier, rfl, rfl⟩
    | false =>
      rw [life_concat_alive hdies]
      cases hlife : life Event.dies es with
      | nil =>
        rw [hlife] at ih
        rcases ih with hgs | ⟨g, earlier, hgs, hclosed⟩
        · exact ⟨[], by simp [hgs, enterIn, hdies, putIn]⟩
        · exact ⟨g :: earlier, by simp [hgs, enterIn, hdies, putIn, hclosed]⟩
      | cons first rest =>
        rw [hlife] at ih
        obtain ⟨earlier, hgs⟩ := ih
        exact ⟨earlier, by simp [hgs, enterIn, hdies, putIn]⟩

/-- The revisions of the generations are those of the events that are not idle. -/
theorem mem_revsOf_replayIn {es : List Event} (hdated : Dated Event.date es) (rev : Revision) :
    rev ∈ revsOf (replayIn es) ↔
      ∃ e ∈ es, e.1 = rev ∧ ¬ Idle Event.date Event.dies es e := by
  induction es using List.reverseRecOn with
  | nil => simp [replayIn]
  | append_singleton es e ih =>
    have hlt := hdated.lt_of_concat
    -- an earlier event does not see the new one, the new one sees all the earlier ones
    have hold : ∀ x ∈ es, (Idle Event.date Event.dies (es ++ [e]) x ↔
        Idle Event.date Event.dies es x) := by
      intro x hx
      have hcut : ([e].filter fun y => y.date < x.date) = [] := by
        have := hlt x hx
        simp; omega
      simp only [Idle, List.filter_append, hcut, List.append_nil]
    have hnew : Idle Event.date Event.dies (es ++ [e]) e ↔
        e.dies = true ∧ life Event.dies es = [] := by
      have hall : es.filter (fun y => y.date < e.date) = es :=
        List.filter_eq_self.mpr fun y hy => decide_eq_true (hlt y hy)
      simp [Idle, List.filter_append, hall]
    have hsplit : (∃ x ∈ es ++ [e], x.1 = rev ∧ ¬ Idle Event.date Event.dies (es ++ [e]) x) ↔
        rev ∈ revsOf (replayIn es) ∨
          (e.1 = rev ∧ ¬(e.dies = true ∧ life Event.dies es = [])) := by
      rw [ih hdated.append_left, ← hnew]
      constructor
      · rintro ⟨x, hx, hrev, hidle⟩
        rcases List.mem_append.mp hx with hx | hx
        · exact .inl ⟨x, hx, hrev, fun h => hidle ((hold x hx).mpr h)⟩
        · obtain rfl := List.mem_singleton.mp hx
          exact .inr ⟨hrev, hidle⟩
      · rintro (⟨x, hx, hrev, hidle⟩ | ⟨hrev, hidle⟩)
        · exact ⟨x, by simp [hx], hrev, fun h => hidle ((hold x hx).mp h)⟩
        · exact ⟨e, by simp, hrev, hidle⟩
    rw [hsplit, replayIn_concat]
    have hmirror := replayIn_mirrors es
    obtain ⟨heq, hdies, hgs⟩ | ⟨heq, hdies, hgs⟩ | ⟨g, earlier, hgs, hopen, heq⟩ :=
      enterIn_cases (replayIn es) e
    · have hidle : ¬(e.1 = rev ∧ ¬(e.dies = true ∧ life Event.dies es = [])) := fun h =>
        h.2 ⟨hdies, hmirror.nil_iff.mpr hgs⟩
      rw [heq, or_iff_left hidle]
    · rw [heq]
      simp only [revsOf_cons, List.singleton_append, List.mem_cons, hdies, Bool.false_eq_true,
        false_and, not_false_eq_true, and_true]
      rw [or_comm, eq_comm]
    · have hlive : life Event.dies es ≠ [] := by
        rw [Ne, hmirror.nil_iff, hgs]
        simp [hopen]
      rw [heq, hgs]
      simp only [Generation.push, revsOf_cons, List.mem_append, List.mem_singleton, hlive,
        and_false, not_false_eq_true, and_true]
      rw [or_right_comm, eq_comm]

theorem mem_of_mem_revsOf_replayIn {es : List Event} (hdated : Dated Event.date es)
    {rev : Revision} (h : rev ∈ revsOf (replayIn es)) : ∃ e ∈ es, e.1 = rev := by
  obtain ⟨e, he, hrev, -⟩ := (mem_revsOf_replayIn hdated rev).mp h
  exact ⟨e, he, hrev⟩

theorem chain_replayIn {es : List Event} (hdated : Dated Event.date es) :
    Chain (replayIn es) := by
  induction es using List.reverseRecOn with
  | nil => trivial
  | append_singleton es e ih =>
    rw [replayIn_concat]
    refine chain_enterIn (ih hdated.append_left) fun x hx => ?_
    obtain ⟨y, hy, rfl⟩ := mem_of_mem_revsOf_replayIn hdated.append_left hx
    exact hdated.lt_of_concat y hy

/-- A read finds what is told of the life the key is in at the date.
SOURCE: crates/mvcc/src/index.rs:166-180 -/
theorem readIn_replayIn {es : List Event} (hdated : Dated Event.date es) (at_ : ℕ) :
    readIn at_ (replayIn es) = foundIn (life Event.dies (upTo Event.date at_ es)) := by
  induction es using List.reverseRecOn with
  | nil => rfl
  | append_singleton es e ih =>
    by_cases hlt : at_ < e.date
    · rw [replayIn_concat, upTo_concat_of_lt hlt, readIn_enterIn (chain_replayIn hdated.append_left)
        hlt, ih hdated.append_left]
    · -- every event counts, so the newest generation tells
      have hall : ∀ x ∈ es ++ [e], x.date ≤ at_ := by
        intro x hx
        rcases List.mem_append.mp hx with hx | hx
        · have := hdated.lt_of_concat x hx
          omega
        · obtain rfl := List.mem_singleton.mp hx
          omega
      have hrevs : ∀ x ∈ revsOf (replayIn (es ++ [e])), x.main ≤ at_ := by
        intro x hx
        obtain ⟨y, hy, rfl⟩ := mem_of_mem_revsOf_replayIn hdated hx
        exact hall y hy
      have hchain := chain_replayIn hdated
      rw [upTo_eq_self hall]
      have hmirror := replayIn_mirrors (es ++ [e])
      cases hlife : life Event.dies (es ++ [e]) with
      | nil =>
        rw [hlife] at hmirror
        rcases hmirror with hgs | ⟨g, earlier, hgs, hclosed⟩
        · rw [hgs]; rfl
        · rw [hgs] at hrevs hchain ⊢
          obtain ⟨hne, -, -, -⟩ := hchain
          have hlast : g.lastMain ≤ at_ := by
            rw [Generation.lastMain, List.getLast?_eq_some_getLast hne]
            exact hrevs _ (by simp)
          rw [readIn_cons, if_pos ⟨hclosed, hlast⟩]
          rfl
      | cons first rest =>
        rw [hlife] at hmirror
        obtain ⟨earlier, hgs⟩ := hmirror
        rw [hgs] at hrevs ⊢
        have hle : ∀ x ∈ first :: rest, x.1.main ≤ at_ := fun x hx =>
          hrevs x.1 (List.mem_append_left _ (List.mem_map_of_mem hx))
        have hpoint : History.partitionPoint ((first :: rest).map (·.1)) at_ =
            rest.length + 1 := by
          have hself : ((first :: rest).map (·.1)).takeWhile
              (fun rev => decide (rev.main ≤ at_)) = (first :: rest).map (·.1) := by
            rw [List.takeWhile_eq_self_iff]
            intro x hx
            obtain ⟨y, hy, rfl⟩ := List.mem_map.mp hx
            exact decide_eq_true (hle y hy)
          rw [History.partitionPoint, hself]
          simp
        have hfirst : (⟨first.1, rest.length + 1, (first :: rest).map (·.1), false⟩ :
            Generation).firstMain ≤ at_ := hle first (List.mem_cons_self ..)
        rw [readIn_cons, if_neg (by simp), if_pos hfirst, hpoint]
        have hget : (first :: rest)[rest.length]? = (first :: rest).getLast? := by
          rw [List.getLast?_eq_getElem?]
          simp
        simp only [foundIn, List.head?_cons, ← hget, Nat.add_sub_cancel, List.getElem?_map]
        rw [List.getElem?_eq_getElem (by simp : rest.length < (first :: rest).length)]
        simp

end Hadar.Mvcc
