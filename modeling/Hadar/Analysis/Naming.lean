import Hadar.Interface.Naming
import Mathlib.Data.List.Sort

/-!
# Names and the directory listing

A segment's name is read back as the number it was written from, and on the fixed width the lexical
order of the names is the order of the numbers. `list` reads any directory: it returns every file
with the extension under its number, in order, or it returns an error because one of them has no
number.
-/

set_option autoImplicit false

namespace Hadar.Wal.Named

open Hadar.Lib Hadar.Lib.Prog Hadar.Storage Hadar.Mvcc Std

/-! ## Names -/

section Names

variable {m n : ℕ}

theorem u64_has_twenty_digits (h : n ≤ u64Max) : n < 10 ^ 20 :=
  Nat.lt_of_le_of_lt h (by decide)

/-- What stands before and after the last dot. -/
theorem splitAtDot_append {before after : Name} (hbefore : before ≠ []) (hafter : dot ∉ after)
    (hdots : before ++ dot :: after ≠ [dot, dot]) :
    splitAtDot (before ++ dot :: after) = (some before, some after) := by
  have hreverse : (before ++ dot :: after).reverse = after.reverse ++ dot :: before.reverse := by
    simp
  have hpasses : ∀ b ∈ after.reverse, (b != dot) = true := fun b hb =>
    bne_iff_ne.mpr fun heq => hafter (heq ▸ List.mem_reverse.mp hb)
  unfold splitAtDot
  rw [if_neg hdots, hreverse, List.dropWhile_append_of_pos hpasses,
    List.takeWhile_append_of_pos hpasses, List.dropWhile_cons_of_neg (by simp),
    List.takeWhile_cons_of_neg (by simp)]
  obtain ⟨b, rest, hcases⟩ := List.exists_cons_of_ne_nil (mt List.reverse_eq_nil_iff.mp hbefore)
  have hback : (b :: rest).reverse = before := by rw [← hcases, List.reverse_reverse]
  rw [hcases]
  dsimp only
  rw [hback, List.append_nil, List.reverse_reverse]

theorem splitAtDot_fileName (n : ℕ) :
    splitAtDot (fileName n) = (some (toDecimal 20 n), some walExtension) := by
  rw [fileName]
  refine splitAtDot_append ?_ (by decide) fun h => ?_
  · exact List.ne_nil_of_length_pos (by simp)
  · simpa [walExtension] using congrArg List.length h

theorem extension_fileName (n : ℕ) : extension (fileName n) = some walExtension := by
  rw [extension, splitAtDot_fileName]

/-- A number that was written is read back.
SOURCE: crates/wal/src/segment.rs:42, 154-157 -/
theorem indexOf_fileName (h : n ≤ u64Max) : indexOf (fileName n) = some n := by
  rw [indexOf, fileStem, splitAtDot_fileName]
  dsimp only [Option.bind_some]
  have hread : ofDecimal (u64Max + 1) (toDecimal 20 n) = some n :=
    ofDecimal_toDecimal (u64_has_twenty_digits h) (Nat.lt_succ_of_le h)
  cases hdigits : toDecimal 20 n with
  | nil => exact absurd (congrArg List.length hdigits) (by simp)
  | cons b rest =>
    have hdigit : 48 ≤ b.toNat :=
      (isDigit_of_mem_toDecimal (hdigits ▸ List.mem_cons_self .. : b ∈ toDecimal 20 n)).1
    have hplus : b ≠ plus := by
      rintro rfl
      exact absurd hdigit (by decide)
    rw [hdigits] at hread
    simp only [parseU64, if_neg hplus, hread]

/-- Lexical order is numeric order.
SOURCE: crates/wal/src/segment.rs:139-140 -/
theorem compare_fileName (hm : m ≤ u64Max) (hn : n ≤ u64Max) :
    compare (fileName m) (fileName n) = compare m n := by
  have hlengths : (toDecimal 20 m).length = (toDecimal 20 n).length := by simp
  have hsame : compare (dot :: walExtension) (dot :: walExtension) = .eq := ReflCmp.compare_self
  rw [fileName, fileName, compare_append hlengths, hsame, Ordering.then_eq]
  exact compare_toDecimal (u64_has_twenty_digits hm) (u64_has_twenty_digits hn)

end Names

/-! ## Listing -/

/-- What a file is to `list`: with the extension and a number for its stem it is that segment. -/
def segmentOf (name : Name) : Option (ℕ × Name) :=
  if extension name = some walExtension then (indexOf name).map (·, name) else none

/-- The file has the extension of a segment, and no number. -/
def Misnamed (name : Name) : Prop := extension name = some walExtension ∧ indexOf name = none

section Listing

variable {names : List Name} {name : Name} {first : ℕ}

theorem segmentOf_eq_some {p : ℕ × Name} : segmentOf name = some p ↔
    extension name = some walExtension ∧ indexOf name = some p.1 ∧ name = p.2 := by
  unfold segmentOf
  split
  · rename_i hextension
    rw [Option.map_eq_some_iff]
    constructor
    · rintro ⟨n, hindex, rfl⟩
      exact ⟨hextension, hindex, rfl⟩
    · rintro ⟨-, hindex, hname⟩
      exact ⟨p.1, hindex, Prod.ext rfl hname⟩
  · rename_i hextension
    exact ⟨nofun, fun h => absurd h.1 hextension⟩

/-- The loop over the entries collects the segments, where none of the files is misnamed.
SOURCE: crates/wal/src/segment.rs:148-163 -/
theorem collect_ok (h : ∀ name ∈ names, ¬Misnamed name) :
    collect names = .ok (names.filterMap segmentOf) := by
  induction names with
  | nil => rfl
  | cons path rest ih =>
    obtain ⟨hpath, hrest⟩ := List.forall_mem_cons.mp h
    unfold collect
    split
    · rename_i hextension
      have hnone : segmentOf path = none := if_neg hextension
      rw [ih hrest, List.filterMap_cons_none hnone]
    · rename_i hextension
      rw [ne_eq, not_not] at hextension
      cases hindex : indexOf path with
      | none => exact absurd ⟨hextension, hindex⟩ hpath
      | some first =>
        have hsegment : segmentOf path = some (first, path) :=
          segmentOf_eq_some.mpr ⟨hextension, hindex, rfl⟩
        rw [ih hrest, List.filterMap_cons_some hsegment]
        rfl

/-- It stops where one is.
SOURCE: crates/wal/src/segment.rs:153-160 -/
theorem collect_error (hmem : name ∈ names) (h : Misnamed name) :
    collect names = .error (.corrupt "segment file name is not a record index") := by
  induction names with
  | nil => cases hmem
  | cons path rest ih =>
    unfold collect
    rcases List.mem_cons.mp hmem with rfl | hmem
    · rw [if_neg (not_not.mpr h.1), h.2]
    · split
      · exact ih hmem
      · cases indexOf path with
        | none => rfl
        | some first =>
          dsimp only
          rw [ih hmem]
          rfl

theorem sublist_filterMap_segmentOf (names : List Name) :
    ((names.filterMap segmentOf).map (·.2)).Sublist names := by
  induction names with
  | nil => exact .slnil
  | cons path rest ih =>
    cases hsegment : segmentOf path with
    | none =>
      rw [List.filterMap_cons_none hsegment]
      exact ih.cons _
    | some p =>
      obtain ⟨-, -, rfl⟩ := segmentOf_eq_some.mp hsegment
      rw [List.filterMap_cons_some hsegment]
      exact ih.cons_cons _

variable [Listing]

theorem mem_entries {f : Folder} : name ∈ Listing.entries f ↔ name ∈ f.files :=
  (Listing.perm_entries f).mem_iff.trans ExtTreeMap.mem_keys

omit [Listing] in
theorem exec_nextReply {f : Folder} (hreply : f.replies.headD .done = .done) :
    nextReply.exec f = (.ok .done, { f with replies := f.replies.tail }) := by
  obtain ⟨files, replies⟩ := f
  cases replies with
  | nil => rfl
  | cons reply rest =>
    obtain rfl : reply = .done := hreply
    rfl

/-- SOURCE: crates/wal/src/segment.rs:145-167 -/
theorem exec_list {f : Folder} (hreply : f.replies.headD .done = .done) :
    list.exec f = (((collect (Listing.entries f)).map Listing.sortByKey).mapError .error,
      { f with replies := f.replies.tail }) := by
  unfold list
  rw [Prog.exec_bind_ok (Prog.exec_get f), Prog.exec_bind_ok (exec_nextReply hreply)]
  cases collect (Listing.entries f) <;> rfl

/-- A refusal after entries that are all well named.
SOURCE: crates/wal/src/segment.rs:149 -/
theorem exec_list_refused {files : ExtTreeMap Name File} {cut : ℕ} {rest : List Reply}
    {segments : List (ℕ × Name)}
    (hcollect : collect ((Listing.entries ⟨files, .refused cut :: rest⟩).take cut) = .ok segments) :
    list.exec ⟨files, .refused cut :: rest⟩ =
      (.error (.error (.io "listing segments")), ⟨files, rest⟩) := by
  have hnext : nextReply.exec ⟨files, .refused cut :: rest⟩ =
      (.ok (.refused cut), ⟨files, rest⟩) := rfl
  unfold list
  rw [Prog.exec_bind_ok (Prog.exec_get _), Prog.exec_bind_ok hnext]
  simp only [hcollect]
  rfl

theorem mem_listed {f : Folder} {p : ℕ × Name} :
    p ∈ Listing.sortByKey ((Listing.entries f).filterMap segmentOf) ↔
      p.2 ∈ f.files ∧ extension p.2 = some walExtension ∧ indexOf p.2 = some p.1 := by
  rw [(Listing.perm_sortByKey _).mem_iff, List.mem_filterMap]
  constructor
  · rintro ⟨path, hmem, hsegment⟩
    obtain ⟨hextension, hindex, rfl⟩ := segmentOf_eq_some.mp hsegment
    exact ⟨mem_entries.mp hmem, hextension, hindex⟩
  · rintro ⟨hmem, hextension, hindex⟩
    exact ⟨p.2, mem_entries.mpr hmem, segmentOf_eq_some.mpr ⟨hextension, hindex, rfl⟩⟩

theorem nodup_listed (f : Folder) :
    ((Listing.sortByKey ((Listing.entries f).filterMap segmentOf)).map (·.2)).Nodup := by
  have hnodup : (Listing.entries f).Nodup :=
    (Listing.perm_entries f).nodup_iff.mpr ExtTreeMap.nodup_keys
  exact ((Listing.perm_sortByKey _).map _).nodup_iff.mpr
    ((sublist_filterMap_segmentOf _).nodup hnodup)

omit [Listing] in
/-- Segments that have the names of their numbers are in lexical order. -/
theorem lexical_of_ordered {segments : List (ℕ × Name)} (hordered : segments.Pairwise (·.1 ≤ ·.1))
    (hnodup : (segments.map (·.2)).Nodup)
    (hnames : ∀ p ∈ segments, p.1 ≤ u64Max ∧ p.2 = fileName p.1) :
    segments.Pairwise fun p q => compare p.2 q.2 = .lt := by
  refine (hordered.and (List.pairwise_map.mp hnodup)).imp_of_mem fun {p q} hp hq h => ?_
  obtain ⟨hpbound, hpname⟩ := hnames p hp
  obtain ⟨hqbound, hqname⟩ := hnames q hq
  have hne : p.1 ≠ q.1 := fun heq => h.2 (by rw [hpname, hqname, heq])
  rw [hpname, hqname, compare_fileName hpbound hqbound]
  exact Nat.compare_eq_lt.mpr (Nat.lt_of_le_of_ne h.1 hne)

/-- **What the listing is.** Of any directory it returns the files with the extension, each once and
under the number that its name is, in the order of the numbers, which is the lexical order of the
names where these are the log's own. Where one of the files has no number, it returns an error.
SOURCE: crates/wal/src/segment.rs:136-167 -/
theorem list_reads_directory (f : Folder) (hreply : f.replies.headD .done = .done) :
    ((∃ name ∈ f.files, Misnamed name) ∧ (list.exec f).1 =
        .error (.error (.corrupt "segment file name is not a record index"))) ∨
      (∀ name ∈ f.files, ¬Misnamed name) ∧ ∃ segments, (list.exec f).1 = .ok segments ∧
        segments.Pairwise (·.1 ≤ ·.1) ∧ (segments.map (·.2)).Nodup ∧
        (∀ first name, (first, name) ∈ segments ↔
          name ∈ f.files ∧ extension name = some walExtension ∧ indexOf name = some first) ∧
        ((∀ name ∈ f.files, extension name = some walExtension →
          ∃ first ≤ u64Max, name = fileName first) →
            segments.Pairwise fun p q => compare p.2 q.2 = .lt) := by
  rw [exec_list hreply]
  by_cases hmisnamed : ∃ name ∈ f.files, Misnamed name
  · obtain ⟨name, hmem, hname⟩ := hmisnamed
    refine .inl ⟨⟨name, hmem, hname⟩, ?_⟩
    rw [collect_error (mem_entries.mpr hmem) hname]
    rfl
  · have hnamed : ∀ name ∈ f.files, ¬Misnamed name := fun name hmem hname =>
      hmisnamed ⟨name, hmem, hname⟩
    rw [collect_ok fun name hmem => hnamed name (mem_entries.mp hmem)]
    refine .inr ⟨hnamed, _, rfl, Listing.sorted_sortByKey _, nodup_listed f,
      fun first name => mem_listed, fun hown => ?_⟩
    refine lexical_of_ordered (Listing.sorted_sortByKey _) (nodup_listed f) fun p hp => ?_
    obtain ⟨hmem, hextension, hindex⟩ := mem_listed.mp hp
    obtain ⟨first, hfirst, hname⟩ := hown p.2 hmem hextension
    rw [hname, indexOf_fileName hfirst] at hindex
    obtain rfl := Option.some.inj hindex
    exact ⟨hfirst, hname⟩

end Listing

/-! ## A directory with another file in it -/

/-- A platform that gives the entries of a directory in the order of their names, and whose sort
leaves equal keys as they are. -/
abbrev nameOrder : Listing where
  entries f := f.files.keys
  perm_entries _ := .refl _
  sortByKey segments := segments.insertionSort fun p q => p.1 ≤ q.1
  perm_sortByKey segments := segments.perm_insertionSort _
  sorted_sortByKey segments := by
    have : Std.Total fun p q : ℕ × Name => p.1 ≤ q.1 := ⟨fun p q => Nat.le_total p.1 q.1⟩
    have : IsTrans (ℕ × Name) fun p q => p.1 ≤ q.1 := ⟨fun _ _ _ => Nat.le_trans⟩
    exact segments.pairwise_insertionSort _

/-- `notes.txt` -/
def notesName : Name := [110, 111, 116, 101, 115, 46, 116, 120, 116]

/-- Two segments, one of them named by hand, and a file that is none. -/
def mixedFolder : Folder :=
  ⟨((ExtTreeMap.empty.insert notesName ⟨[1], [1]⟩).insert (fileName 10) ⟨[], []⟩).insert
    (55 :: dot :: walExtension) ⟨[], []⟩, []⟩

/-- Both are listed, and nothing else. -/
theorem list_reads_directory_mixed : ∃ segments, ((@list nameOrder).exec mixedFolder).1 = .ok segments ∧
    segments.Pairwise (·.1 ≤ ·.1) ∧ ∀ first name, (first, name) ∈ segments ↔
      name ∈ mixedFolder.files ∧ extension name = some walExtension ∧ indexOf name = some first := by
  have hreturns : (@list nameOrder).returnsFrom mixedFolder = true := by decide +kernel
  obtain ⟨_, hexec⟩ := exec_of_returnsFrom hreturns
  rcases @list_reads_directory nameOrder mixedFolder rfl with ⟨-, hfails⟩ | ⟨-, segments, hlist, h⟩
  · rw [hexec] at hfails
    cases hfails
  · exact ⟨segments, hlist, h.1, h.2.2.1⟩

end Hadar.Wal.Named
