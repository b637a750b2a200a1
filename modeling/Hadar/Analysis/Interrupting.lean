import Hadar.Analysis.Opening
import Hadar.Analysis.Refinement
import Hadar.Interface.Compaction

/-!
# Compactions that are cut short

A compaction lists what it drops key by key, each key's revisions from the oldest to the newest,
and removes them chunk by chunk. Cut short anywhere it has removed the first ones of the list: of
a key whose deletion is gone, the puts before it are gone too. Records from which no deletion is
missing whose key still has an older put are enough to read from the watermark on, whatever else
is left.
-/

set_option autoImplicit false

namespace Hadar.Mvcc

open Hadar.Lib Hadar.Lib.Prog Hadar.Storage Std

variable {events records : List Event} {w at_ : ℕ}

/-! ## Records that are enough -/

/-- Enough of the events have a record to read from the watermark on: those that survive it do,
and before a deletion without a record its key has only deletions. -/
structure Enough (w : ℕ) (events records : List Event) : Prop where
  sub : records.Sublist events
  survivors : ∀ e ∈ kept w events, e ∈ records
  harmless : ∀ d ∈ events, d ∉ records → d.dies = true →
    ∀ e ∈ records, e.2.key = d.2.key → e.date < d.date → e.dies = true

/-- What is in force from the watermark on the records tell. -/
theorem Enough.inForce_eq (h : Enough w events records) (hdated : Dated Event.date events)
    (hw : w ≤ at_) (key : Bytes) :
    inForce Event.date Event.dies at_ (eventsOf records key) =
      inForce Event.date Event.dies at_ (eventsOf events key) := by
  refine inForce_of_harmless (dated_eventsOf hdated key) (h.sub.filter _) (fun e he => ?_)
    fun d hd hgone hdies e he hlt => ?_
  · have hkey := (mem_eventsOf.mp (mem_of_inForce he).1).2
    exact mem_eventsOf.mpr ⟨h.survivors e (kept_of_inForce hdated hw he), hkey⟩
  · obtain ⟨hd, hkey⟩ := mem_eventsOf.mp hd
    obtain ⟨he, hkey'⟩ := mem_eventsOf.mp he
    have hgone' : d ∉ records := fun hheld => hgone (mem_eventsOf.mpr ⟨hheld, hkey⟩)
    exact h.harmless d hd hgone' hdies e he (hkey'.trans hkey.symm) hlt

/-- A deletion without a record that survives leaves no put of its key before it. -/
theorem dies_of_kept_before {d e : Event} (hdated : Dated Event.date events) (hd : d ∈ events)
    (hgone : d ∉ kept w events) (hdies : d.dies = true) (he : e ∈ kept w events)
    (hkey : e.2.key = d.2.key) (hlt : e.date < d.date) : e.dies = true := by
  obtain ⟨hin, hsurvives⟩ := List.mem_filter.mp he
  rw [decide_eq_true_eq, hkey] at hsurvives
  have hle : d.date ≤ w := by
    by_contra hpast
    exact hgone (List.mem_filter.mpr ⟨hd, decide_eq_true (.inl (by omega))⟩)
  have hdatedOf := dated_eventsOf hdated d.2.key
  obtain ⟨before, after, hsplit⟩ := List.append_of_mem (mem_eventsOf.mpr ⟨hd, rfl⟩)
  have hbefore : e ∈ before := by
    have hmem : e ∈ eventsOf events d.2.key := mem_eventsOf.mpr ⟨hin, hkey⟩
    rw [hsplit] at hmem hdatedOf
    rcases List.mem_append.mp hmem with hmem | hmem
    · exact hmem
    · rcases List.mem_cons.mp hmem with rfl | hmem
      · omega
      · have := hdatedOf.around.2 e hmem
        omega
  exact dies_of_survives_before hdatedOf hsplit hdies hle hbefore hsurvives

theorem enough_kept (hdated : Dated Event.date events) : Enough w events (kept w events) where
  sub := List.filter_sublist
  survivors := fun _ he => he
  harmless := fun _ hd hgone hdies _ he => dies_of_kept_before hdated hd hgone hdies he

/-- Events past the watermark join with their records. -/
theorem Enough.append {batch : List Event} (h : Enough w events records)
    (hdated : Dated Event.date (events ++ batch)) (hw : ∀ x ∈ batch, w < x.date) :
    Enough w (events ++ batch) (records ++ batch) where
  sub := h.sub.append_right batch
  survivors := fun e he => by
    rw [kept_append hdated hw] at he
    exact List.mem_append.mpr ((List.mem_append.mp he).imp_left (h.survivors e))
  harmless := fun d hd hgone hdies e he hkey hlt => by
    have hcross := (List.pairwise_append.mp hdated).2.2
    have hgone' : d ∉ records ∧ d ∉ batch := by simpa using hgone
    have hd : d ∈ events := (List.mem_append.mp hd).resolve_right hgone'.2
    rcases List.mem_append.mp he with he | he
    · exact h.harmless d hd hgone'.1 hdies e he hkey hlt
    · have := hcross d hd e he
      omega

/-! ## The order of what is dropped -/

/-- Of one key's revisions compaction drops the older ones first.
SOURCE: crates/mvcc/src/index.rs:115-121, 182-210 -/
theorem pairwise_compact {index : Index} (h : Indexes events w index)
    (hdated : Dated Event.date events) (at_ : ℕ) :
    (index.compact at_).2.Pairwise fun rev rev' => ∀ x ∈ events, ∀ y ∈ events,
      x.1 = rev → y.1 = rev' → x.2.key = y.2.key → x.date < y.date := by
  have hentry : ∀ p ∈ index.keys.toList, index.newest p.1 = p.2.generations.reverse := by
    intro p hp
    rw [Index.newest, ExtTreeMap.mem_toList_iff_getElem?_eq_some.mp hp, Option.getD_some]
  have hchain : ∀ p ∈ index.keys.toList, Chain p.2.generations.reverse := fun p hp =>
    hentry p hp ▸ h.chain hdated p.1
  -- the event of a revision that a key's history drops is one of the key's
  have hkey : ∀ p ∈ index.keys.toList, ∀ rev ∈ (p.2.compact at_).2, ∀ x ∈ events, x.1 = rev →
      x.2.key = p.1 := by
    intro p hp rev hrev x hx hsame
    have hheld := ((mem_dropped p.2 at_ (hchain p hp) rev).mp hrev).1
    rw [← hentry p hp, h p.1] at hheld
    obtain ⟨y, hy, hrev'⟩ :=
      mem_of_mem_revsOf_replayIn (dated_eventsOf hdated p.1) (revsOf_trim_subset hheld)
    obtain ⟨hy, hykey⟩ := mem_eventsOf.mp hy
    rw [hdated.eq_of_date hx hy (congrArg Revision.main (hsame.trans hrev'.symm))]
    exact hykey
  refine List.pairwise_flatMap.mpr ⟨fun p hp => ?_, ?_⟩
  · refine (pairwise_dropped p.2 at_ (hchain p hp)).imp ?_
    rintro rev rev' hlt x - y - rfl rfl -
    exact hlt
  · refine List.Pairwise.imp_of_mem ?_ (OrderedMap.ascending_toList index.keys)
    intro p q hp hq hpq rev hrev rev' hrev' x hx y hy hsame hsame' hxy
    have hne := ne_of_cmp_lt hpq
    exact absurd ((hkey p hp rev hrev x hx hsame).symm.trans
      (hxy.trans (hkey q hq rev' hrev' y hy hsame'))) hne

/-- With a revision of a key compaction drops every older put of the key that is still there. -/
theorem dropped_of_older {index : Index} (h : Indexes events w index)
    (hdated : Dated Event.date events) (hw : w ≤ at_) {d e : Event} (hd : d ∈ events)
    (hdropped : d.1 ∈ (index.compact at_).2) (he : e ∈ kept w events) (hkey : e.2.key = d.2.key)
    (hlt : e.date < d.date) (halive : e.dies = false) : e.1 ∈ (index.compact at_).2 := by
  obtain ⟨hin, hsurvives⟩ := List.mem_filter.mp he
  have hindexed : Indexed w (eventsOf events e.2.key) e := by
    refine (survives_iff.mp (of_decide_eq_true hsurvives)).resolve_left fun hidle => ?_
    exact Bool.false_ne_true (halive.symm.trans hidle.1)
  obtain ⟨hheld, hforgotten⟩ := (mem_dropped_iff h hdated hd).mp hdropped
  rw [max_eq_right hw] at hforgotten
  have hdle : d.date ≤ at_ := by
    by_contra hpast
    exact hforgotten ⟨hheld.1, .inl (by omega)⟩
  refine (mem_dropped_iff h hdated hin).mpr ⟨hindexed, ?_⟩
  rw [max_eq_right hw]
  rintro ⟨-, hpast | hforce⟩
  · omega
  · have hyoungest := ((inForce_iff (dated_eventsOf hdated e.2.key)).mp hforce).2.2.2 d
      (mem_eventsOf.mpr ⟨hd, hkey.symm⟩) hdle
    omega

/-- Once the first of what a compaction drops is removed, what is left is enough.
SOURCE: crates/mvcc/src/store.rs:281-295 -/
theorem enough_cut {index : Index} (h : Indexes events w index) (hdated : Dated Event.date events)
    (hw : w ≤ at_) {gone left : List Revision} (hsplit : (index.compact at_).2 = gone ++ left) :
    Enough at_ events ((kept w events).filter fun e => e.1 ∉ gone) where
  sub := List.filter_sublist.trans List.filter_sublist
  survivors := fun e he => by
    have hkept := kept_compact h hdated at_
    rw [max_eq_right hw, hsplit] at hkept
    rw [← hkept] at he
    obtain ⟨hheld, hnot⟩ := List.mem_filter.mp he
    refine List.mem_filter.mpr ⟨hheld, decide_eq_true fun hgone => ?_⟩
    exact of_decide_eq_true hnot (List.mem_append_left _ hgone)
  harmless := fun d hd hlost hdies e he hkey hlt => by
    obtain ⟨he, hnot⟩ := List.mem_filter.mp he
    by_cases hkept : d ∈ kept w events
    · -- the deletion is among the first, so an older put of its key would be too
      have hgone : d.1 ∈ gone := by
        by_contra hleft
        exact hlost (List.mem_filter.mpr ⟨hkept, decide_eq_true hleft⟩)
      by_contra halive
      have hdropped := dropped_of_older h hdated hw hd
        (hsplit ▸ List.mem_append_left _ hgone) he hkey hlt (Bool.not_eq_true _ ▸ halive)
      rw [hsplit] at hdropped
      have hlater : e.1 ∈ left :=
        (List.mem_append.mp hdropped).resolve_left (of_decide_eq_true hnot)
      have horder := pairwise_compact h hdated at_
      rw [hsplit] at horder
      have := (List.pairwise_append.mp horder).2.2 d.1 hgone e.1 hlater d hd e
        (List.mem_of_mem_filter he) rfl rfl hkey.symm
      omega
    · exact dies_of_kept_before hdated hd hkept hdies he hkey hlt

/-! ## Reading what is left -/

/-- What a key's record tells of the event in force. -/
theorem told_view (events : List Event) (at_ : ℕ) (key : Bytes) :
    (view events at_ key).map Record.told =
      (inForce Event.date Event.dies at_ (eventsOf events key)).map
        fun e => (key, e.2.value, e.1) := by
  have hforce : inForce Event.date Event.dies at_ (eventsOf events key) =
      (lifeAt events at_ key).getLast? := rfl
  rw [hforce, view]
  cases hlife : lifeAt events at_ key with
  | nil => rfl
  | cons first rest =>
    rw [List.getLast?_eq_some_getLast (List.cons_ne_nil first rest)]
    rfl

/-- Where the same event of each key is in force, two stores read the same. -/
theorem sameReads {live opened : KvStore} {at_' : ℕ} {requested : Option ℕ}
    (hlive : Serves events w live) (hopened : Serves records 0 opened)
    (hcalm : opened.engine.replies = []) (hw : w ≤ at_)
    (hat : requested.getD live.state.current.main = at_) (hge : live.state.compacted ≤ at_)
    (hle : at_ ≤ live.state.current.main) (hat' : requested.getD opened.state.current.main = at_')
    (hge' : opened.state.compacted ≤ at_') (hle' : at_' ≤ opened.state.current.main)
    (hforce : ∀ key, inForce Event.date Event.dies at_' (eventsOf records key) =
      inForce Event.date Event.dies at_ (eventsOf events key)) :
    SameReads live opened requested := by
  intro bounds limit hb
  have hlive' : Serves events w ⟨Engine.calmed live.engine, live.state⟩ :=
    ⟨hlive.dated, hlive.keys, hlive.index, hlive.contents⟩
  obtain ⟨_, hexec, rfl⟩ := returns_of_calm
    (reads_range hlive' (Index.refuses_built _ hb) limit requested hat hw hge hle) rfl
  obtain ⟨_, hexec', rfl⟩ := returns_of_calm
    (reads_range hopened (Index.refuses_built _ hb) limit requested hat' (Nat.zero_le _) hge' hle') hcalm
  refine ⟨_, _, by rw [hexec], by rw [hexec'], ?_⟩
  have htold := (lists_tell bounds hlive' hw).map_unique Record.told
    (lists_tell bounds hopened (Nat.zero_le at_')) fun key => by
      rw [told_view, told_view, hforce]
  cases limit with
  | none => exact htold
  | some n => simp only [capped, List.map_take, htold]

/-- A store opened over enough of the records goes on where the live store is. -/
theorem continues_of_enough {live : KvStore} {contents : Keyspace} {marker : Option ℕ}
    (hlive : Serves events w live) (hw : w ≤ at_) (hge : live.state.compacted ≤ at_)
    (hle : at_ ≤ live.state.current.main) (hpos : ∀ e ∈ events, 0 < e.date)
    (hnew : ∀ e ∈ events, e.date ≤ live.state.current.main)
    (hholds : Holds contents marker records) (henough : Enough at_ events records) :
    Continues live at_ contents := by
  have hdated := hlive.dated.sublist henough.sub
  have hopened : Shows records 0 ⟨Engine.holding contents, restoredState marker records⟩ :=
    shows_restored hholds hdated (fun e he => hlive.keys e (henough.sub.subset he))
      fun e he => hpos e (henough.sub.subset he)
  have hnewest : (restoredState marker records).current.main ≤ live.state.current.main :=
    newestOf_le hdated fun e he => hnew e (henough.sub.subset he)
  -- all the records are up to either newest revision
  have hforce : ∀ key, inForce Event.date Event.dies (newestOf Revision.zero records).main
      (eventsOf records key) =
        inForce Event.date Event.dies live.state.current.main (eventsOf events key) := by
    intro key
    have hupTo : ∀ n, (∀ e ∈ records, e.date ≤ n) →
        upTo Event.date n (eventsOf records key) = eventsOf records key := fun n h =>
      upTo_eq_self fun e he => h e (mem_eventsOf.mp he).1
    rw [← henough.inForce_eq hlive.dated hle key, inForce, inForce, hupTo _ (le_newestOf hdated),
      hupTo _ fun e he => hnew e (henough.sub.subset he)]
  refine ⟨_, openStore_eq (e := Engine.holding contents) hholds rfl, ?_, fun r hr hr' => ?_⟩
  · exact sameReads hlive hopened.serves rfl (hw.trans hle) rfl (hge.trans hle) le_rfl rfl
      (Nat.zero_le _) le_rfl hforce
  · exact sameReads hlive hopened.serves rfl (hw.trans hr) rfl (hge.trans hr) (hr'.trans hnewest)
      rfl (Nat.zero_le _) hr' (henough.inForce_eq hlive.dated hr)

/-! ## Runs -/

/-- The store at the map's revisions, its backend holding enough records to be opened over. -/
structure Covers (m : MultiVersion) (s : KvStore) : Prop where
  fits : Fits m.mutations
  watermark_le : m.watermark ≤ m.current
  current : s.state.current = revisionOf m.current
  compacted_le : s.state.compacted ≤ m.watermark
  index : Indexes m.events m.watermark s.state.index
  contents : ∃ marker records, Holds s.engine.committed marker records ∧
    Enough m.watermark m.events records

variable {m : MultiVersion} {s : KvStore}

theorem Represents.covers (h : Represents m s) : Covers m s := by
  obtain ⟨marker, hholds⟩ := h.contents
  exact ⟨h.fits, h.watermark_le, h.current, h.compacted.le, h.index, marker, _, hholds,
    enough_kept h.dated⟩

namespace Covers

theorem live (h : Covers m s) : Live m s := ⟨h.fits.count, h.watermark_le, h.current, h.index⟩

theorem date_le (h : Covers m s) : ∀ e ∈ m.events, e.date ≤ s.state.current.main := by
  intro e he
  have hcount := h.fits.count
  have hlate := (lt_date_of_mem_stampedFrom (n := 0) (by omega) he).2
  rw [Nat.zero_add] at hlate
  rw [h.live.current_main]
  exact hlate

theorem serves (h : Covers m s) : Serves m.events m.watermark s := by
  obtain ⟨marker, records, hholds, henough⟩ := h.contents
  exact ⟨h.live.dated, fun e he => h.fits.keys e.2 (mem_of_mem_stampedFrom he), h.index, marker, records,
    hholds, henough.survivors⟩

theorem later (h : Covers m s) {s' : KvStore} (hlater : s.Later s') : Covers m s' := by
  refine ⟨h.fits, h.watermark_le, ?_, ?_, ?_, ?_⟩
  · rw [hlater.state]; exact h.current
  · rw [hlater.state]; exact h.compacted_le
  · rw [hlater.state]; exact h.index
  · rw [hlater.engine.committed]; exact h.contents

/-- An accepted batch is appended to the map, its records to those there are.
SOURCE: crates/mvcc/src/store.rs:171-213 -/
theorem apply (h : Covers m s) {batch : List Mutation} {upto : ℕ} {s' : KvStore}
    (hfits : Fits (m.mutations ++ batch))
    (hstate : s'.state = s.state.entered (stampedFrom m.current batch)
      (revisionOf (m.current + batch.length)) upto)
    (hcommits : s'.engine.commits = (enteredContents s.engine.committed
      (stampedFrom m.current batch)).insert appliedKey (encodePosition upto) ::
        s.engine.commits) :
    Covers { m with mutations := m.mutations ++ batch } s' := by
  have hcount : m.current + batch.length ≤ i64Max := by
    have := hfits.count
    rwa [List.length_append] at this
  obtain ⟨hdated, hw, hlive⟩ := h.live.entered hcount hstate
  have hevents : stamped (m.mutations ++ batch) = m.events ++ stampedFrom m.current batch :=
    stamped_append _ _
  obtain ⟨marker, records, hholds, henough⟩ := h.contents
  refine ⟨hfits, hlive.watermark_le, hlive.current, ?_, hlive.index, some upto, _, ?_,
    hevents ▸ henough.append hdated hw⟩
  · rw [hstate]
    exact h.compacted_le
  · rw [Engine.committed, hcommits]
    exact Holds.mark (hholds.insert_all (hdated.sublist (henough.sub.append_right _))) upto

end Covers

/-! ## Commits -/

theorem suffix_clearings (commits : List Keyspace) (cs : List (List Revision)) :
    commits <:+ clearings commits cs := by
  induction cs generalizing commits with
  | nil => exact List.suffix_refl _
  | cons chunk rest ih => exact (List.suffix_cons _ _).trans (ih _)

/-- The commits of some chunks, cut short, are those of the first of them. -/
theorem exists_clearings {commits upto : List Keyspace} {cs : List (List Revision)}
    (hsince : commits <:+ upto) (hupto : upto <:+ clearings commits cs) :
    ∃ done rest, cs = done ++ rest ∧ upto = clearings commits done := by
  induction cs generalizing commits with
  | nil =>
    exact ⟨[], [], rfl, (hsince.sublist.antisymm hupto.sublist).symm⟩
  | cons chunk rest ih =>
    rw [clearings] at hupto
    by_cases hlen : upto.length = commits.length
    · exact ⟨[], chunk :: rest, rfl, (hsince.eq_of_length hlen.symm).symm⟩
    · have hle := hsince.length_le
      have hsince' : clearedContents (commits.headD ∅) chunk :: commits <:+ upto :=
        List.suffix_of_suffix_length_le (suffix_clearings _ rest) hupto (by
          rw [List.length_cons]
          omega)
      obtain ⟨done, left, rfl, heq⟩ := ih hsince' hupto
      exact ⟨chunk :: done, left, rfl, heq⟩

/-- What the first chunks of a compaction leave is enough. -/
theorem Represents.enough_clearings (h : Represents m s) {at_ chunk : ℕ} (hge : m.watermark ≤ at_)
    {done rest : List (List Revision)}
    (hsplit : chunks chunk (s.state.index.compact at_).2 = done ++ rest) :
    ∃ marker records, Holds ((clearings s.engine.commits done).headD ∅) marker records ∧
      Enough at_ m.events records := by
  obtain ⟨marker, hholds⟩ := h.contents
  have hdropped : (s.state.index.compact at_).2 = done.flatten ++ rest.flatten := by
    rw [← flatten_chunks chunk (s.state.index.compact at_).2, hsplit, List.flatten_append]
  refine ⟨marker, _, ?_, enough_cut h.index h.dated hge hdropped⟩
  rw [headD_clearings]
  exact hholds.remove_all _

/-- A compaction that fails leaves a store that may still be opened again.
SOURCE: crates/mvcc/src/store.rs:281-295 -/
theorem Represents.covers_failed (h : Represents m s) {at_ chunk : ℕ} {s' : KvStore}
    (hge : m.watermark ≤ at_) (hle : at_ ≤ m.current)
    (hstate : s'.state = { s.state with index := (s.state.index.compact at_).1 })
    {done rest : List (List Revision)}
    (hsplit : chunks chunk (s.state.index.compact at_).2 = done ++ rest)
    (hcommits : s'.engine.commits = clearings s.engine.commits done) :
    Covers { m with watermark := at_ } s' := by
  refine ⟨h.fits, hle, ?_, ?_, ?_, ?_⟩
  · rw [hstate]; exact h.current
  · rw [hstate]; exact h.compacted.le.trans hge
  · have hindex := h.index.compact h.dated at_
    rw [max_eq_right hge] at hindex
    rw [hstate]; exact hindex
  · rw [Engine.committed, hcommits]
    exact h.enough_clearings hge hsplit

/-! ## Runs that are cut short -/

/-- Whatever a batch ends in, the store may be opened again. -/
theorem Covers.after_apply (h : Covers m s) {batch : List Mutation} (upto : ℕ)
    (hkeys : ∀ m ∈ batch, m.key.length ≤ u32Max) :
    ∃ mutations, Covers ⟨mutations, m.watermark⟩ ((Mvcc.apply batch upto).exec s).2 := by
  refine Ends.left (P := fun s' => ∃ mutations, Covers ⟨mutations, m.watermark⟩ s') ?_
  refine Ends.mono (ends_apply h.current h.fits.count batch upto) (fun _ s' hok => ?_)
    (fun _ _ herr => ⟨_, h.later herr.1⟩) fun _ hdead => ⟨_, h.later hdead.1⟩
  exact ⟨_, h.apply (h.fits.append hkeys hok.1) hok.2.2.1 hok.2.2.2.1⟩

theorem Represents.after_apply (h : Represents m s) {batch : List Mutation} (upto : ℕ)
    (hkeys : ∀ m ∈ batch, m.key.length ≤ u32Max) :
    ∃ mutations, Represents ⟨mutations, m.watermark⟩ ((Mvcc.apply batch upto).exec s).2 := by
  refine Ends.left (P := fun s' => ∃ mutations, Represents ⟨mutations, m.watermark⟩ s') ?_
  have hlater : ∀ s', s.Later s' → ∃ mutations, Represents ⟨mutations, m.watermark⟩ s' :=
    fun s' hl => ⟨_, (h.carries.later hl).represents h.fits⟩
  refine Ends.mono (ends_apply h.current h.fits.count batch upto) (fun _ s' hok => ?_)
    (fun _ s' herr => hlater s' herr.1) fun s' hdead => hlater s' hdead.1
  exact ⟨_, h.apply (h.fits.append hkeys hok.1) hok.2.2.1 hok.2.2.2.1⟩

theorem represents_freshOver (replies : List Reply) :
    Represents MultiVersion.empty (freshOver replies) :=
  ⟨represents_fresh.fits, le_rfl, rfl, rfl, indexes_empty, none, holds_empty⟩

theorem Represents.of_compact_ok (h : Represents m s) {chunk at_ n : ℕ} {s' : KvStore}
    (hok : (compactBy chunk at_).exec s = (.ok n, s')) :
    Represents { m with watermark := at_ } s' :=
  (h.carries.of_compact_ok hok).2.2.represents h.fits

/-- A compaction that ends in an error or a crash after it began. -/
theorem Represents.of_compact_failed (h : Represents m s) {chunk at_ : ℕ} {e : Stop Error}
    {s' : KvStore} (hge : s.state.compacted ≤ at_) (hle : at_ ≤ s.state.current.main)
    (herr : (compactBy chunk at_).exec s = (.error e, s')) :
    Covers { m with watermark := at_ } s' := by
  have hends := ends_compactBy chunk at_ hle hge
  rw [h.compacted] at hge
  rw [h.current_main] at hle
  cases e with
  | error e =>
    obtain ⟨hstate, ⟨done, rest, hsplit, -, hcommits⟩, -⟩ := hends.of_error herr
    exact h.covers_failed hge hle hstate hsplit hcommits
  | panic =>
    obtain ⟨hstate, ⟨done, rest, hsplit, -, hcommits⟩, -⟩ := hends.of_dead herr (.inl rfl)
    exact h.covers_failed hge hle hstate hsplit hcommits
  | crash =>
    obtain ⟨hstate, ⟨done, rest, hsplit, -, hcommits⟩, -⟩ := hends.of_dead herr (.inr rfl)
    exact h.covers_failed hge hle hstate hsplit hcommits

variable {failed : Bool}

/-- As long as no compaction has failed the store represents what was applied. -/
theorem Ran.represents {again : Prop} (h : Ran again s w failed) (hclean : failed = false) :
    ∃ mutations, Represents ⟨mutations, w⟩ s := by
  induction h with
  | fresh replies => exact ⟨[], represents_freshOver replies⟩
  | applied batch upto before keys ih =>
    obtain ⟨mutations, hrep⟩ := ih hclean
    exact hrep.after_apply upto keys
  | compacted before anew ran ih =>
    obtain ⟨mutations, hrep⟩ := ih hclean
    exact ⟨mutations, hrep.of_compact_ok ran⟩
  | failed before anew begun ran ih => cases hclean

/-- Where no compaction begins after one that failed the store may always be opened again. -/
theorem Ran.covers (h : Ran False s w failed) : ∃ mutations, Covers ⟨mutations, w⟩ s := by
  induction h with
  | fresh replies => exact ⟨[], (represents_freshOver replies).covers⟩
  | applied batch upto before keys ih =>
    obtain ⟨mutations, hcovers⟩ := ih
    exact hcovers.after_apply upto keys
  | compacted before anew ran ih =>
    obtain ⟨mutations, hrep⟩ := before.represents (Bool.not_eq_true _ ▸ anew)
    exact ⟨mutations, (hrep.of_compact_ok ran).covers⟩
  | failed before anew begun ran ih =>
    obtain ⟨mutations, hrep⟩ := before.represents (Bool.not_eq_true _ ▸ anew)
    exact ⟨mutations, hrep.of_compact_failed begun.1 begun.2 ran⟩

theorem Covers.continues (h : Covers m s) : Continues s m.watermark s.engine.committed := by
  obtain ⟨marker, records, hholds, henough⟩ := h.contents
  exact continues_of_enough h.serves le_rfl h.compacted_le (h.live.current_main.symm ▸ h.watermark_le)
    (fun e he => pos_of_mem_stamped h.fits.count he) h.date_le hholds henough

/-- **A compaction cut short loses nothing.** In a run in which no compaction begins after one that
failed, a store opened over what the first of the commits leave reads what the live store read.
SOURCE: crates/mvcc/src/store.rs:66-117, 272-299, crates/mvcc/src/index.rs:115-121, 182-210 -/
theorem reached_continues {live : KvStore} {contents : Keyspace}
    (h : Reached False live w contents) : Continues live w contents := by
  cases h with
  | between run =>
    obtain ⟨mutations, hcovers⟩ := run.covers
    exact hcovers.continues
  | within run anew begun ran since upto =>
    obtain ⟨mutations, hrep⟩ := run.represents (Bool.not_eq_true _ ▸ anew)
    obtain ⟨hge, hle⟩ := begun
    obtain ⟨done, rest, hsplit, hcommits⟩ := (trimmed_of_compactBy hle hge ran).commits
    rw [hcommits] at upto
    obtain ⟨done', left, rfl, rfl⟩ := exists_clearings since upto
    rw [List.append_assoc] at hsplit
    obtain ⟨marker, records, hholds, henough⟩ :=
      hrep.enough_clearings (hrep.compacted ▸ hge) hsplit
    exact continues_of_enough hrep.shows.serves (hrep.compacted ▸ hge) hge hle
      (fun e he => pos_of_mem_stamped hrep.fits.count he) hrep.covers.date_le hholds henough

/-- A key is put, deleted and put again, and the process stops between the two commits of the
compaction that follows. -/
def halfway : KvStore :=
  ((Mvcc.apply [.put [107] [1], .delete [107], .put [107] [2]] 3).exec
    (freshOver (List.replicate 10 .done ++ [.crash]))).2

theorem reached_continues_halfway :
    Continues halfway 3 (((compactBy 0 3).exec halfway).2.engine.commits.headD ∅) := by
  have hrun : Ran False halfway 0 false := by
    refine .applied _ _ (.fresh _) ?_
    decide
  have hbegun : halfway.state.compacted ≤ 3 ∧ 3 ≤ halfway.state.current.main := by
    decide +kernel
  have hstopped : (compactBy 0 3).exec halfway =
      (((compactBy 0 3).exec halfway).1, ((compactBy 0 3).exec halfway).2) := rfl
  obtain ⟨done, rest, -, hcommits⟩ := (trimmed_of_compactBy hbegun.2 hbegun.1 hstopped).commits
  exact reached_continues (.within hrun (fun h => Bool.noConfusion h) hbegun rfl
    (hcommits ▸ suffix_clearings _ _) (List.suffix_refl _))

/-- A put is overwritten; the compaction that is to remove it is refused, and the next one, after
the key was deleted, removes the deletion and not that put. -/
def resurrecting : KvStore :=
  ((compact 3).exec ((Mvcc.apply [.delete [107]] 3).exec ((compact 2).exec
    ((Mvcc.apply [.put [107] [1], .put [107] [2]] 2).exec
      (freshOver (List.replicate 5 .done ++ [.refused ⟨.io, "disk full"⟩ false]))).2).2).2).2

/-- What a read of everything tells at the newest revision. -/
def newestTold (s : KvStore) : Option (List (Bytes × Bytes × Revision)) :=
  ((range Bounds.all none none).exec s).1.toOption.map fun records => records.map Record.told

theorem SameReads.newestTold {live opened : KvStore} (h : SameReads live opened none) :
    newestTold ⟨Engine.calmed live.engine, live.state⟩ = newestTold opened := by
  obtain ⟨records, records', hexec, hexec', htold⟩ := h Bounds.all none .all
  rw [Mvcc.newestTold, Mvcc.newestTold, hexec, hexec']
  exact congrArg some htold

/-- A compaction that begins after one that failed can bring a deleted key back. -/
theorem reached_resurrects : ¬ ∀ live watermark contents, Reached True live watermark contents →
    Continues live watermark contents := by
  intro h
  obtain ⟨e, hfailed⟩ := exec_of_not_returnsFrom (p := compact 2)
    (s := ((Mvcc.apply [.put [107] [1], .put [107] [2]] 2).exec
      (freshOver (List.replicate 5 .done ++ [.refused ⟨.io, "disk full"⟩ false]))).2)
    (by decide +kernel)
  obtain ⟨n, hcompacted⟩ := exec_of_returnsFrom (p := compact 3)
    (s := ((Mvcc.apply [.delete [107]] 3).exec ((compact 2).exec
      ((Mvcc.apply [.put [107] [1], .put [107] [2]] 2).exec
        (freshOver (List.replicate 5 .done ++ [.refused ⟨.io, "disk full"⟩ false]))).2).2).2)
    (by decide +kernel)
  have hreached : Reached True resurrecting 3 resurrecting.engine.committed :=
    .between (.compacted (.applied _ _ (.failed (.applied _ _ (.fresh _) (by decide))
      (fun _ => trivial) (by decide +kernel) hfailed) (by decide)) (fun _ => trivial) hcompacted)
  obtain ⟨state, hopen, hnewest, -⟩ := h _ _ _ hreached
  have hlive : newestTold ⟨Engine.calmed resurrecting.engine, resurrecting.state⟩ = some [] := by
    decide +kernel
  have hopened : (openStore (Engine.holding resurrecting.engine.committed)).1.toOption.bind
      (fun state => newestTold ⟨Engine.holding resurrecting.engine.committed, state⟩) =
        some [([107], [1], revisionOf 1)] := by
    decide +kernel
  rw [hopen] at hopened
  have hsame := hnewest.newestTold
  rw [hlive] at hsame
  have heq := hsame.trans hopened
  cases heq

end Hadar.Mvcc
