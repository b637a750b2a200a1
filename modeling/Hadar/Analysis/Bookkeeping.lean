import Hadar.Analysis.Writing
import Hadar.Interface.Bookkeeping
import Hadar.Interface.Crc32

/-!
# Segments hold what was written to them

A full segment is left before anything is appended, and an append that leaves bytes behind
does not count them. So a segment is poisoned only while there is room in it, and from then on
it is neither full, so it has no successor, nor written to.
-/

set_option autoImplicit false

namespace Hadar.Wal

open Hadar.Lib Hadar.Lib.Prog Hadar.Storage Hadar.Mvcc Std

/-- The writer's segment is as its book says: its file begins with the book's bytes, which are
those it counts, and goes on only where the segment is poisoned and has room. -/
structure Kept (w : Writer) (book : Book) : Prop where
  positive : 1 ≤ w.segment.limit
  count : w.segment.written = book.bytes.length
  held : ∃ file, w.host.disk.files[w.segment.sink]? = some file ∧ book.bytes <+: file.data ∧
    (w.segment.poisoned = false → file.data = book.bytes)
  room : w.segment.poisoned = true → w.segment.isFull = false
  before : ∀ p ∈ book.before, p.1 ≠ w.segment.sink ∧
    ∃ file, w.host.disk.files[p.1]? = some file ∧ file.data = p.2

/-- The book with more appends. -/
def Book.adding (book : Book) (more : List Bytes) : Book :=
  { book with appends := book.appends ++ more }

/-- The book once its segment is left. -/
def Book.closing (book : Book) (sink : ℕ) : Book :=
  ⟨[], [], book.before ++ [(sink, book.bytes)]⟩

theorem Book.adding_nil (book : Book) : book.adding [] = book := by
  rw [Book.adding, List.append_nil]

theorem Book.bytes_adding (book : Book) (bytes : Bytes) :
    (book.adding [bytes]).bytes = book.bytes ++ bytes := by
  rw [Book.bytes, Book.adding, List.flatten_append, List.flatten_singleton, ← List.append_assoc]
  rfl

namespace Kept

variable {w w' : Writer} {book : Book}

theorem of_files (h : Kept w book) (hfiles : w'.host.disk.files = w.host.disk.files)
    (hsegment : w'.segment = w.segment) : Kept w' book := by
  refine ⟨?_, ?_, ?_, ?_, ?_⟩
  · rw [hsegment]; exact h.positive
  · rw [hsegment]; exact h.count
  · rw [hsegment, hfiles]; exact h.held
  · rw [hsegment]; exact h.room
  · rw [hsegment, hfiles]; exact h.before

/-- A file the segments that were left are not in may change. -/
theorem before_insert (h : Kept w book) {sink : ℕ} {file : File}
    (hfiles : w'.host.disk.files = w.host.disk.files.insert sink file)
    (hsink : ∀ p ∈ book.before, p.1 ≠ sink) :
    ∀ p ∈ book.before, ∃ file, w'.host.disk.files[p.1]? = some file ∧ file.data = p.2 := by
  intro p hp
  obtain ⟨-, file', hfile', hdata⟩ := h.before p hp
  refine ⟨file', ?_, hdata⟩
  rw [hfiles, ExtTreeMap.getElem?_insert, if_neg, hfile']
  exact fun heq => hsink p hp (Nat.compare_eq_eq.mp heq).symm

/-- Its file was written to, and the segment counts what the book has. -/
theorem written (h : Kept w book) {more : List Bytes} (rest flushed : Bytes)
    (hfiles : w'.host.disk.files = w.host.disk.files.insert w.segment.sink
      ⟨(book.adding more).bytes ++ rest, flushed⟩)
    (hsink : w'.segment.sink = w.segment.sink) (hlimit : w'.segment.limit = w.segment.limit)
    (hcount : w'.segment.written = (book.adding more).bytes.length)
    (hclean : w'.segment.poisoned = false → rest = [])
    (hroom : w'.segment.poisoned = true → w'.segment.isFull = false) :
    Kept w' (book.adding more) := by
  refine ⟨by rw [hlimit]; exact h.positive, hcount,
    ⟨⟨(book.adding more).bytes ++ rest, flushed⟩, ?_, List.prefix_append _ _, fun hsound => ?_⟩,
    hroom, fun p hp => ⟨?_, ?_⟩⟩
  · rw [hsink, hfiles, ExtTreeMap.getElem?_insert_self]
  · rw [hclean hsound, List.append_nil]
  · rw [hsink]
    exact (h.before p hp).1
  · exact h.before_insert hfiles (fun p hp => (h.before p hp).1) p hp

/-- What an append adds to the book: all of its bytes or nothing. -/
def appending (w : Writer) (bytes : Bytes) : List Bytes :=
  if w.segment.poisoned = false ∧ w.host.disk.replies.headD .done = .done then [bytes] else []

/-- An append whose bytes were written in full, flushed or not. -/
theorem full (h : Kept w book) {bytes flushed : Bytes} (hsound : w.segment.poisoned = false)
    (hdone : w.host.disk.replies.headD .done = .done)
    (hsegment : w'.segment = { w.segment with written := w.segment.written + bytes.length })
    (hfiles : w'.host.disk.files = w.host.disk.files.insert w.segment.sink
      ⟨book.bytes ++ bytes, flushed⟩) :
    Kept w' (book.adding (appending w bytes)) ∧ w'.segment.sink = w.segment.sink := by
  rw [appending, if_pos ⟨hsound, hdone⟩]
  refine ⟨h.written [] flushed ?_ ?_ ?_ ?_ (fun _ => rfl) fun hbad => ?_, by rw [hsegment]⟩
  · rw [hfiles, Book.bytes_adding, List.append_nil]
  · rw [hsegment]
  · rw [hsegment]
  · rw [hsegment, Book.bytes_adding, List.length_append, h.count]
  · rw [hsegment] at hbad
    exact absurd (hsound.symm.trans hbad) Bool.false_ne_true

/-- An append whose bytes were written in part, if at all: what is left of them poisons the
segment. -/
theorem part (h : Kept w book) (hopen : w.segment.isFull = false) {bytes rest flushed : Bytes}
    {cut : ℕ} {poisoned : Bool} (hcut : w.host.disk.replies.headD .done = .refused cut)
    (hsegment : w'.segment = { w.segment with poisoned }) (hrest : poisoned = false → rest = [])
    (hfiles : w'.host.disk.files = w.host.disk.files.insert w.segment.sink
      ⟨book.bytes ++ rest, flushed⟩) :
    Kept w' (book.adding (appending w bytes)) ∧ w'.segment.sink = w.segment.sink := by
  rw [appending, if_neg (by rw [hcut]; exact fun h => nomatch h.2)]
  refine ⟨h.written rest flushed ?_ ?_ ?_ ?_ (fun hsound => ?_) fun _ => ?_, by rw [hsegment]⟩
  · rw [hfiles, Book.adding_nil]
  · rw [hsegment]
  · rw [hsegment]
  · rw [hsegment, Book.adding_nil, h.count]
  · rw [hsegment] at hsound
    exact hrest hsound
  · rw [hsegment]
    exact hopen

/-- An append to a segment with room.
SOURCE: crates/wal/src/segment.rs:99-129 -/
theorem ends_append (h : Kept w book) (hopen : w.segment.isFull = false) (bytes : Bytes) :
    Ends (Writer.onSegment (Segment.append bytes)) w
      (fun _ w' => Kept w' (book.adding (appending w bytes)) ∧ w'.segment.sink = w.segment.sink)
      (fun _ w' => Kept w' (book.adding (appending w bytes)) ∧ w'.segment.sink = w.segment.sink)
      fun _ => True := by
  cases hpoisoned : w.segment.poisoned with
  | true =>
    refine Ends.mono (ends_append_poisoned hpoisoned bytes) (fun _ _ h => h.elim)
      (fun _ w' hw' => ?_) fun _ _ => trivial
    subst hw'
    rw [appending, if_neg fun hboth => Bool.false_ne_true (hboth.1.symm.trans hpoisoned),
      Book.adding_nil]
    exact ⟨h, rfl⟩
  | false =>
    obtain ⟨file, hfile, -, hclean⟩ := h.held
    have hdata : file.data = book.bytes := hclean hpoisoned
    refine ends_zoom.mpr (Ends.mono (ends_append_at hfile (by rw [h.count, hdata]) hpoisoned bytes)
      (fun _ t ht => ?_) (fun _ t ht => ?_) fun _ _ => trivial)
    · obtain ⟨hdone, hsegment, -, hfiles⟩ := ht
      rw [hdata] at hfiles
      exact h.full hpoisoned hdone hsegment hfiles
    · obtain ⟨-, -, file', hfallen, hfiles⟩ := ht
      obtain ⟨segment, hsegment⟩ : ∃ segment, t.segment = segment := ⟨_, rfl⟩
      rw [hsegment] at hfallen
      cases hfallen with
      | rewound poisoned first kept =>
        rw [hdata, ← List.append_nil book.bytes] at hfiles
        exact h.part hopen first hsegment (fun _ => rfl) hfiles
      | stuck first next =>
        rw [hdata] at hfiles
        exact h.part hopen first hsegment (fun hsound => absurd hsound.symm Bool.false_ne_true)
          hfiles
      | unflushed first next =>
        rw [hdata] at hfiles
        exact h.full hpoisoned first hsegment hfiles

/-- A full segment is left for an empty one, which no segment before it is.
SOURCE: crates/wal/src/writer.rs:191-196 -/
theorem ends_rollIfFull (h : Kept w book) :
    Ends rollIfFull w
      (fun _ w' => w'.segment.isFull = false ∧ (w' = w ∨
        w'.segment.sink ≠ w.segment.sink ∧ Kept w' (book.closing w.segment.sink)))
      (fun _ w' => Kept w' book ∧ w'.segment.sink = w.segment.sink) fun _ => True := by
  obtain ⟨file, hfile, -, hclean⟩ := h.held
  refine Ends.mono (ends_rollIfFull_any w) (fun _ w' hrolled => ?_) (fun _ w' hfailed => ?_)
    fun _ _ => trivial
  · rcases hrolled with ⟨hopen, rfl⟩ | ⟨hfull, hfresh, -, d, rfl, -, hfiles⟩
    · exact ⟨hopen, .inl rfl⟩
    have hsound : w.segment.poisoned = false := by
      by_contra hpoisoned
      have hopen := h.room (Bool.eq_true_of_not_eq_false hpoisoned)
      exact Bool.false_ne_true (hopen.symm.trans hfull)
    -- the name of the new segment is that of no file
    have hnew : ∀ {name : ℕ} {file : File}, w.host.disk.files[name]? = some file →
        name ≠ w.host.store.state.applied := by
      rintro name file hname rfl
      rw [ExtTreeMap.contains_eq_isSome_getElem?, hname] at hfresh
      cases hfresh
    have hbefore : ∀ p ∈ (book.closing w.segment.sink).before,
        ∃ file, w.host.disk.files[p.1]? = some file ∧ file.data = p.2 := by
      intro p hp
      rcases List.mem_append.mp hp with hp | hp
      · exact (h.before p hp).2
      · obtain rfl := List.mem_singleton.mp hp
        exact ⟨file, hfile, hclean hsound⟩
    refine ⟨?_, .inr ⟨(hnew hfile).symm, h.positive, rfl, ⟨⟨[], []⟩, ?_, List.prefix_refl _,
      fun _ => rfl⟩, fun hbad => absurd hbad Bool.false_ne_true, fun p hp => ?_⟩⟩
    · exact decide_eq_false (Nat.not_le.mpr h.positive)
    · dsimp only
      rw [hfiles, ExtTreeMap.getElem?_insert_self]
    · obtain ⟨file', hfile', hdata'⟩ := hbefore p hp
      refine ⟨hnew hfile', file', ?_, hdata'⟩
      dsimp only
      rw [hfiles, ExtTreeMap.getElem?_insert, if_neg, hfile']
      exact fun heq => hnew hfile' (Nat.compare_eq_eq.mp heq).symm
  · obtain ⟨⟨d, rfl, hlater⟩, -⟩ := hfailed
    exact ⟨h.of_files hlater.files rfl, rfl⟩

/-- What a store does with a batch leaves the segments alone. -/
theorem ends_onStore {α : Type} {p : Prog KvStore Mvcc.Error α} (h : Kept w book) :
    Ends (Writer.onHost (Host.onStore p)) w (fun _ w' => Kept w' book ∧ w'.segment = w.segment)
      (fun _ w' => Kept w' book ∧ w'.segment = w.segment) fun _ => True :=
  ends_zoom.mpr (ends_zoom.mpr (Ends.mono (ends_exec p _) (fun _ _ _ => ⟨h.of_files rfl rfl, rfl⟩)
    (fun _ _ _ => ⟨h.of_files rfl rfl, rfl⟩) fun _ _ => trivial))

end Kept

/-! ## Retiring batches -/

section Retiring

variable [Crc32] {w w' rolled : Writer} {book : Book} {batch : List Request}

theorem Book.after_same (h : w'.segment.sink = w.segment.sink) :
    book.after w w' batch = book.adding (writtenBy w batch) := by
  rw [Book.after, if_pos h]
  rfl

theorem Book.after_moved (h : w'.segment.sink ≠ w.segment.sink) :
    book.after w w' batch = (book.closing w.segment.sink).adding (writtenBy w batch) := by
  rw [Book.after, if_neg h]
  rfl

theorem writtenBy_error {e : Error} (h : encodeBatch (mutationsOf batch) [] = .error e) :
    writtenBy w batch = [] := by
  rw [writtenBy, h]

theorem writtenBy_stopped {bytes : Bytes} {stop : Stop Error}
    (h : encodeBatch (mutationsOf batch) [] = .ok bytes)
    (hroll : rollIfFull.exec w = (.error stop, rolled)) : writtenBy w batch = [] := by
  rw [writtenBy, h]
  dsimp only
  rw [hroll]

theorem writtenBy_rolled {bytes : Bytes} (h : encodeBatch (mutationsOf batch) [] = .ok bytes)
    (hroll : rollIfFull.exec w = (.ok (), rolled)) :
    writtenBy w batch = Kept.appending rolled bytes := by
  rw [writtenBy, h]
  dsimp only
  rw [hroll]
  rfl

/-- Retiring a batch keeps the book.
SOURCE: crates/wal/src/writer.rs:175-208 -/
theorem Kept.ends_retire (h : Kept w book) (batch : List Request) :
    Ends (retire batch) w (fun _ w' => Kept w' (book.after w w' batch))
      (fun _ w' => Kept w' (book.after w w' batch)) fun _ => True := by
  unfold retire
  cases hencode : encodeBatch (mutationsOf batch) [] with
  | error e =>
    refine ends_fail.mpr ?_
    rw [Book.after_same rfl, writtenBy_error hencode, Book.adding_nil]
    exact h
  | ok bytes =>
    refine ends_bind.mpr (Ends.mono (h.ends_rollIfFull.and (ends_exec rollIfFull w))
      (fun (_ : Unit) rolled hrolled => ?_) (fun e w' hfailed => ?_) fun _ _ => trivial)
    · obtain ⟨⟨hopen, hmoved⟩, hroll⟩ := hrolled
      -- the book the append goes to, as the batch leaves it
      obtain ⟨book', hkept, hafter⟩ : ∃ book', Kept rolled book' ∧ ∀ w' : Writer,
          w'.segment.sink = rolled.segment.sink →
          book.after w w' batch = book'.adding (Kept.appending rolled bytes) := by
        rw [← writtenBy_rolled hencode hroll]
        rcases hmoved with rfl | ⟨hne, hclosed⟩
        · exact ⟨book, h, fun w' hw' => Book.after_same hw'⟩
        · exact ⟨_, hclosed, fun w' hw' => Book.after_moved (hw' ▸ hne)⟩
      refine ends_bind.mpr (Ends.mono (hkept.ends_append hopen bytes)
        (fun (_ : Unit) w2 h2 => ?_) (fun _ w2 h2 => ?_) fun _ _ => trivial)
      · refine ends_bind.mpr (ends_modify.mpr (ends_bind.mpr (ends_get.mpr ?_)))
        have hcounted : Kept { w2 with appended := w2.appended + bytes.length }
            (book'.adding (Kept.appending rolled bytes)) := h2.1.of_files rfl rfl
        refine Ends.mono hcounted.ends_onStore (fun _ w3 h3 => ?_) (fun _ w3 h3 => ?_)
          fun _ _ => trivial
        · rw [hafter w3 (by rw [h3.2]; exact h2.2)]
          exact h3.1
        · rw [hafter w3 (by rw [h3.2]; exact h2.2)]
          exact h3.1
      · rw [hafter w2 h2.2]
        exact h2.1
    · obtain ⟨⟨hkept, hsink⟩, hroll⟩ := hfailed
      rw [Book.after_same hsink, writtenBy_stopped hencode hroll, Book.adding_nil]
      exact hkept

/-- A poisoned segment with room stays as it is, whatever is to be retired.
SOURCE: crates/wal/src/writer.rs:191-198, crates/wal/src/segment.rs:99-105 -/
theorem ends_retire_poisoned (hpoisoned : w.segment.poisoned = true)
    (hopen : w.segment.isFull = false) (batch : List Request) :
    Ends (retire batch) w
      (fun _ w' => w'.segment = w.segment ∧ w'.host.disk.files = w.host.disk.files)
      (fun _ w' => w'.segment = w.segment ∧ w'.host.disk.files = w.host.disk.files)
      fun w' => w'.segment = w.segment ∧ w'.host.disk.files = w.host.disk.files := by
  unfold retire
  cases encodeBatch (mutationsOf batch) [] with
  | error e => exact ends_fail.mpr ⟨rfl, rfl⟩
  | ok bytes =>
    refine ends_bind.mpr (ends_bind.mpr (ends_get.mpr ?_))
    rw [hopen, if_neg Bool.false_ne_true]
    refine ends_pure.mpr (ends_bind.mpr (Ends.mono (ends_append_poisoned hpoisoned bytes)
      (fun _ _ h => h.elim) (fun _ w' hw' => ?_) fun _ h => h.elim))
    subst hw'
    exact ⟨rfl, rfl⟩

omit [Crc32] in
theorem Begun.kept (h : Begun w book) : Kept w book := by
  cases h with
  | @created d d' segment first limit appended store positive ran =>
    obtain ⟨rfl, -, -, -, hfiles⟩ := (ends_create d first limit).of_ok ran
    refine ⟨positive, rfl, ⟨⟨[], []⟩, ?_, List.prefix_refl _, fun _ => rfl⟩,
      fun hbad => absurd hbad Bool.false_ne_true, fun p hp => nomatch hp⟩
    dsimp only
    rw [hfiles, ExtTreeMap.getElem?_insert_self]
  | @reopened d d' segment file first valid limit appended store positive held ran =>
    obtain ⟨rfl, hfiles⟩ := (ends_reopen_at held valid limit).of_ok ran
    have hbytes : Book.bytes ⟨setLen file.data valid, [], []⟩ = setLen file.data valid :=
      List.append_nil _
    refine ⟨positive, ?_, ⟨⟨setLen file.data valid, setLen file.data valid⟩, ?_, ?_, fun _ => ?_⟩,
      fun hbad => absurd hbad Bool.false_ne_true, fun p hp => nomatch hp⟩
    · rw [hbytes, length_setLen]
    · dsimp only
      rw [hfiles, ExtTreeMap.getElem?_insert_self]
    · exact ⟨[], by rw [hbytes, List.append_nil]⟩
    · rw [hbytes]

/-- The book of every run of batches is kept. -/
theorem Booked.kept (h : Booked w book) : Kept w book := by
  induction h with
  | begun start => exact start.kept
  | @retired w w' book outcome before batch replies calls ran ih =>
    have hgiven : Kept (w.given replies calls) book := ih.of_files rfl rfl
    have hends : Ends (retire batch).attempt (w.given replies calls)
        (fun _ w' => Kept w' (book.after (w.given replies calls) w' batch)) (fun _ _ => True)
        fun _ => True := ends_attempt.mpr (hgiven.ends_retire batch)
    exact hends.of_ok ran

/-- However the operations on the directory turn out, a segment that is not poisoned is exactly
the bytes it was opened with and those of the appends that were written in full; one that is
poisoned still begins with them and is never left nor written to again; and no segment that was
left has anything else in it.
SOURCE: crates/wal/src/segment.rs:63-134, crates/wal/src/writer.rs:191-198 -/
theorem booked_accurate (h : Booked w book) : Accurate w book := by
  have hkept := h.kept
  obtain ⟨file, hfile, hprefix, hclean⟩ := hkept.held
  refine ⟨fun hsound => ⟨file, hfile, hclean hsound, ?_⟩, fun hpoisoned => ⟨file, hfile, ?_,
    hkept.count, fun batch replies calls => ?_⟩, fun p hp => (hkept.before p hp).2⟩
  · rw [hclean hsound, hkept.count]
  · rw [hkept.count]
    exact (List.prefix_iff_eq_take.mp hprefix).symm
  · exact (ends_retire_poisoned (w := w.given replies calls) hpoisoned (hkept.room hpoisoned)
      batch).left

end Retiring

/-- A writer with a segment just created in an empty directory. -/
def createdWriter : Writer :=
  ⟨⟨((Segment.create 0 20).exec Disk.empty).2, KvStore.fresh⟩,
    (Segment.create 0 20).returned Disk.empty ⟨0, 0, 0, true⟩, 0⟩

/-- It after one put, the flush of which was refused. -/
def unflushedWriter : Writer :=
  ((@retire crc32fast [⟨[.put [107] [118]]⟩]).attempt.exec
    (createdWriter.given [.done, .refused 0] [])).2

/-- It after another put, written in part and not rewound. -/
def stuckWriter : Writer :=
  ((@retire crc32fast [⟨[.put [108] [118]]⟩]).attempt.exec
    (unflushedWriter.given [.refused 3, .refused 0] [])).2

/-- The one record stays, three bytes of the other follow it, and the segment is poisoned. -/
theorem booked_accurate_stuck :
    ∃ book, @Accurate crc32fast stuckWriter book ∧ book.appends.length = 1 ∧
      stuckWriter.segment.poisoned = true := by
  have hcreated : @Booked crc32fast createdWriter ⟨[], [], []⟩ :=
    @Booked.begun crc32fast _ _ (.created 0 20 0 KvStore.fresh (by decide) (exec_returned (by decide +kernel) _))
  obtain ⟨first, hfirst⟩ := exec_of_returnsFrom
    (p := (@retire crc32fast [⟨[.put [107] [118]]⟩]).attempt)
    (s := createdWriter.given [.done, .refused 0] []) (by decide +kernel)
  obtain ⟨second, hsecond⟩ := exec_of_returnsFrom
    (p := (@retire crc32fast [⟨[.put [108] [118]]⟩]).attempt)
    (s := unflushedWriter.given [.refused 3, .refused 0] []) (by decide +kernel)
  have hunflushed := @Booked.retired crc32fast _ _ _ _ hcreated _ _ _ hfirst
  have hstuck := @Booked.retired crc32fast _ _ _ _ hunflushed _ _ _ hsecond
  exact ⟨_, @booked_accurate crc32fast _ _ hstuck, by decide +kernel, by decide +kernel⟩

end Hadar.Wal
