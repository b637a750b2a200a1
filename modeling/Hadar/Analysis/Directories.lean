import Hadar.Analysis.Stores
import Hadar.Model.Wal

/-!
# Operations on the directory

What each operation on the log directory can end in, for every list of replies, and the
rules that carry what holds on the directory or on the store to the host of both.
-/

set_option autoImplicit false

namespace Hadar.Wal

open Hadar.Lib Hadar.Lib.Prog Hadar.Storage Hadar.Mvcc Std

variable {α : Type} {d : Disk}

namespace Disk

/-- The directory some operations later, with nothing changed by them. -/
structure Later (d d' : Disk) : Prop where
  files : d'.files = d.files
  replies : d'.replies <:+ d.replies

theorem Later.refl (d : Disk) : d.Later d := ⟨rfl, List.suffix_refl _⟩

theorem Later.trans {d d' d'' : Disk} (h : d.Later d') (h' : d'.Later d'') : d.Later d'' :=
  ⟨h'.files.trans h.files, h'.replies.trans h.replies⟩

instance : Faults Disk where
  Later := Later
  Refuses := fun d => ∃ cut, Reply.refused cut ∈ d.replies
  Crashes := fun d => ∃ cut, Reply.crash cut ∈ d.replies
  refl := Later.refl
  trans := Later.trans
  refuses := fun h ⟨cut, hmem⟩ => ⟨cut, h.replies.subset hmem⟩
  crashes := fun h ⟨cut, hmem⟩ => ⟨cut, h.replies.subset hmem⟩

/-- A directory whose operations all succeed neither refuses nor crashes. -/
theorem calm (h : d.replies = []) : ¬ Faults.Refuses d ∧ ¬ Faults.Crashes d := by
  constructor
  · rintro ⟨cut, hmem⟩
    rw [h] at hmem
    cases hmem
  · rintro ⟨cut, hmem⟩
    rw [h] at hmem
    cases hmem

end Disk

namespace Host

/-- The host some operations and calls later, with nothing changed by them. -/
structure Later (h h' : Host) : Prop where
  disk : h.disk.Later h'.disk
  store : h.store.Later h'.store

theorem Later.refl (h : Host) : h.Later h :=
  ⟨Disk.Later.refl h.disk, rfl, Engine.Later.refl h.store.engine⟩

theorem Later.trans {h h' h'' : Host} (hl : h.Later h') (hl' : h'.Later h'') : h.Later h'' :=
  ⟨hl.disk.trans hl'.disk, hl.store.trans hl'.store⟩

instance : Faults Host where
  Later := Later
  Refuses := fun h => Faults.Refuses h.disk ∨ Faults.Refuses h.store
  Crashes := fun h => Faults.Crashes h.disk ∨ Faults.Crashes h.store
  refl := Later.refl
  trans := Later.trans
  refuses := fun hl h => h.imp (Faults.refuses (σ := Disk) hl.disk)
    (Faults.refuses (σ := KvStore) hl.store)
  crashes := fun hl h => h.imp (Faults.crashes (σ := Disk) hl.disk)
    (Faults.crashes (σ := KvStore) hl.store)

end Host

/-! ## The operations -/

/-- Taking a reply. -/
theorem ends_nextReply : Ends nextReply d
    (fun r d' => d.Later d' ∧ r = d.replies.headD .done ∧ d'.replies = d.replies.tail)
    (fun _ _ => False) (fun _ => False) := by
  unfold nextReply
  refine ends_bind.mpr (ends_get.mpr ?_)
  cases hr : d.replies with
  | nil => exact ends_pure.mpr ⟨Disk.Later.refl d, rfl, hr⟩
  | cons r rest =>
    refine ends_bind.mpr (ends_set.mpr (ends_pure.mpr ⟨⟨rfl, ?_⟩, rfl, rfl⟩))
    rw [hr]
    exact List.suffix_cons r rest

/-- A reply other than `done` is one of those listed. -/
theorem mem_of_headD {r : Reply} (h : d.replies.headD .done = r) (hr : r ≠ .done) :
    r ∈ d.replies := by
  cases hreplies : d.replies with
  | nil =>
    rw [hreplies] at h
    exact absurd h.symm hr
  | cons first rest =>
    rw [hreplies] at h
    exact List.mem_cons.mpr (.inl h.symm)

theorem refuses_of_headD {cut : ℕ} (h : d.replies.headD .done = .refused cut) :
    Faults.Refuses d := ⟨cut, mem_of_headD h Reply.noConfusion⟩

theorem crashes_of_headD {cut : ℕ} (h : d.replies.headD .done = .crash cut) :
    Faults.Crashes d := ⟨cut, mem_of_headD h Reply.noConfusion⟩

/-- An operation takes effect if it is not refused and nothing stops. -/
theorem ends_operation {context : String} {effect : Prog Disk Error α} {bad doomed : Prop}
    {ok : α → Disk → Prop}
    (h : ∀ d', d.Later d' → Ends effect d' ok (Fails bad d) (Stops doomed d)) :
    Ends (operation context effect) d ok (Fails bad d) (Stops doomed d) := by
  refine ends_bind.mpr (Ends.mono ends_nextReply (fun r d' hr => ?_) (fun _ _ h => h.elim)
    fun _ h => h.elim)
  obtain ⟨hlater, hreply, -⟩ := hr
  cases r with
  | done => exact h d' hlater
  | refused cut => exact ends_fail.mpr ⟨hlater, .inl (refuses_of_headD hreply.symm)⟩
  | crash cut => exact ends_crashing.mpr ⟨hlater, .inl (crashes_of_headD hreply.symm)⟩

theorem reads_createDir : Reads False False createDir d fun _ => True :=
  ends_operation fun _ h => ends_pure.mpr ⟨trivial, h⟩

/-- SOURCE: crates/wal/src/segment.rs:145-167 -/
theorem reads_list : Reads False False list d (· = d.files.toList.map (·.1)) :=
  ends_operation fun d' h => ends_bind.mpr (ends_get.mpr (ends_pure.mpr ⟨by rw [h.files], h⟩))

/-- SOURCE: crates/wal/src/segment.rs:174-182 -/
theorem reads_readSegment {first : ℕ} {file : File} (h : d.files[first]? = some file) :
    Reads False False (readSegment first) d (· = file.data) := by
  refine Reads.bind (ends_operation fun _ hl => ends_pure.mpr ⟨trivial, hl⟩)
    fun (_ : Unit) d1 (_ : True) h1 => ?_
  refine ends_operation fun d2 h2 => ends_bind.mpr (ends_get.mpr ?_)
  have hfile : d2.files[first]? = some file := by
    rw [Disk.Later.files h2, Disk.Later.files h1, h]
  rw [hfile]
  exact ends_pure.mpr ⟨rfl, h2⟩

/-- A file that exists can be opened. -/
theorem reads_openFile {first : ℕ} {file : File} (h : d.files[first]? = some file) :
    Reads False False (openFile first) d fun _ => True := by
  refine ends_operation fun d' hl => ends_bind.mpr (ends_get.mpr ?_)
  have hexists : d'.files.contains first = true := by
    rw [hl.files, ExtTreeMap.contains_eq_isSome_getElem?, h]
    rfl
  rw [hexists, if_pos rfl]
  exact ends_pure.mpr ⟨trivial, hl⟩

end Hadar.Wal
