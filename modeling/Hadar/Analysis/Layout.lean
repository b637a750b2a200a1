import Hadar.Analysis.Scanning

/-!
# Logs laid out in segments

A log written by the crate is one sequence of records cut into segments, each named by how
many records came before it. What follows the last record, if anything, is the beginning of
one that was being written. Recovery reads such a log whole, and cutting it anywhere leaves
such a log.
-/

set_option autoImplicit false

namespace Hadar.Wal

open Hadar.Lib Hadar.Lib.Prog Hadar.Storage Hadar.Mvcc Std

variable [Crc32]

/-! ## Records cut short -/

/-- Bytes a record begins with, but not all of them. -/
def Torn (bytes : Bytes) : Prop :=
  ∃ m, Encodable m ∧ bytes <+: recordOf m ∧ bytes.length < (recordOf m).length

theorem torn_nil : Torn [] := by
  refine ⟨.put [] [], by decide, List.nil_prefix, ?_⟩
  exact List.length_pos_iff.mpr (recordOf_ne_nil _)

theorem Torn.decode {bytes : Bytes} (h : Torn bytes) : decode bytes = .error .truncated := by
  obtain ⟨m, hm, hstart, hcut⟩ := h
  exact decode_cut hm hstart hcut

theorem Torn.of_prefix {bytes start : Bytes} (h : Torn bytes) (hstart : start <+: bytes) :
    Torn start := by
  obtain ⟨m, hm, hbytes, hcut⟩ := h
  exact ⟨m, hm, hstart.trans hbytes, Nat.lt_of_le_of_lt hstart.length_le hcut⟩

/-- How many of the records fit in `room` bytes. -/
def fitting (room : ℕ) : List Mutation → ℕ
  | [] => 0
  | m :: rest =>
    if (recordOf m).length ≤ room then fitting (room - (recordOf m).length) rest + 1 else 0

theorem fitting_le (room : ℕ) (mutations : List Mutation) :
    fitting room mutations ≤ mutations.length := by
  induction mutations generalizing room with
  | nil => exact Nat.le_refl 0
  | cons m rest ih =>
    rw [fitting]
    split
    · exact Nat.succ_le_succ (ih _)
    · exact Nat.zero_le _

/-- The first `k` records fit in `room` bytes exactly when `k` is no more than fit. -/
theorem records_le_iff {mutations : List Mutation} {room k : ℕ} (hk : k ≤ mutations.length) :
    (recordsOf (mutations.take k)).length ≤ room ↔ k ≤ fitting room mutations := by
  induction mutations generalizing room k with
  | nil =>
    obtain rfl : k = 0 := Nat.le_zero.mp hk
    simp
  | cons m rest ih =>
    cases k with
    | zero => simp
    | succ k =>
      have hk' : k ≤ rest.length := Nat.le_of_succ_le_succ hk
      rw [List.take_succ_cons, recordsOf_cons, List.length_append, fitting]
      split
      · rename_i hm
        rw [Nat.succ_le_succ_iff, ← ih hk']
        omega
      · rename_i hm
        omega

/-- Records cut at any byte are the ones that fit and the beginning of the next. -/
theorem take_records {mutations : List Mutation} (h : ∀ m ∈ mutations, Encodable m) (room : ℕ) :
    ∃ torn, Torn torn ∧ (recordsOf mutations).take room =
      recordsOf (mutations.take (fitting room mutations)) ++ torn := by
  induction mutations generalizing room with
  | nil => exact ⟨[], torn_nil, by simp⟩
  | cons m rest ih =>
    rw [recordsOf_cons, List.take_append, fitting]
    split
    · rename_i hm
      obtain ⟨torn, htorn, heq⟩ := ih (fun x hx => h x (List.mem_cons_of_mem _ hx))
        (room - (recordOf m).length)
      refine ⟨torn, htorn, ?_⟩
      rw [List.take_of_length_le hm, heq, List.take_succ_cons, recordsOf_cons, List.append_assoc]
    · rename_i hm
      refine ⟨(recordOf m).take room, ⟨m, h m (List.mem_cons_self ..), List.take_prefix _ _, ?_⟩,
        ?_⟩
      · rw [List.length_take]
        omega
      · rw [show room - (recordOf m).length = 0 by omega]
        simp

/-! ## One segment -/

section Segment

variable {mutations : List Mutation} {torn : Bytes}

theorem scanned_torn (h : ∀ m ∈ mutations, Encodable m) (htorn : Torn torn) :
    scanned (recordsOf mutations ++ torn) = (mutations, torn) := by
  rw [scanned_records h, complete, leftover, scanned_error htorn.decode, List.append_nil]

theorem complete_torn (h : ∀ m ∈ mutations, Encodable m) (htorn : Torn torn) :
    complete (recordsOf mutations ++ torn) = mutations :=
  congrArg Prod.fst (scanned_torn h htorn)

theorem leftover_torn (h : ∀ m ∈ mutations, Encodable m) (htorn : Torn torn) :
    leftover (recordsOf mutations ++ torn) = torn :=
  congrArg Prod.snd (scanned_torn h htorn)

theorem complete_records (h : ∀ m ∈ mutations, Encodable m) :
    complete (recordsOf mutations) = mutations := by
  have := complete_torn h torn_nil
  rwa [List.append_nil] at this

theorem leftover_records (h : ∀ m ∈ mutations, Encodable m) :
    leftover (recordsOf mutations) = [] := by
  have := leftover_torn h torn_nil
  rwa [List.append_nil] at this

end Segment

/-! ## The directory -/

section Directory

variable {start : ℕ} {older : List (List Mutation)} {active : List Mutation} {torn : Bytes}

theorem sealedFrom_append (start : ℕ) (a b : List (List Mutation)) :
    sealedFrom start (a ++ b) = sealedFrom start a ++ sealedFrom (start + a.flatten.length) b := by
  induction a generalizing start with
  | nil => rfl
  | cons ms rest ih =>
    rw [List.cons_append, sealedFrom, sealedFrom, ih, List.cons_append, List.flatten_cons,
      List.length_append, Nat.add_assoc]

/-- A log that is sealed and goes on in a new segment. -/
theorem laidOut_sealed (start : ℕ) (older : List (List Mutation)) (active : List Mutation) :
    laidOut start (older ++ [active]) [] [] =
      laidOut start older active [] ++ [(start + older.flatten.length + active.length, [])] := by
  rw [laidOut, laidOut, sealedFrom_append, List.flatten_append, List.length_append,
    List.flatten_singleton, ← Nat.add_assoc, List.append_nil, recordsOf_nil, List.append_nil]
  rfl

/-- A log without its oldest segments. -/
theorem drop_sealedFrom (start n : ℕ) (older : List (List Mutation)) :
    (sealedFrom start older).drop n =
      sealedFrom (start + (older.take n).flatten.length) (older.drop n) := by
  induction n generalizing start older with
  | zero => rfl
  | succ n ih =>
    cases older with
    | nil => rfl
    | cons ms rest =>
      rw [sealedFrom, List.drop_succ_cons, ih, List.take_succ_cons, List.flatten_cons,
        List.length_append, Nat.add_assoc]
      rfl

/-- Every record of the log fits a frame, and what follows the last one is torn. -/
structure Written (older : List (List Mutation)) (active : List Mutation) (torn : Bytes) :
    Prop where
  older : ∀ m ∈ older.flatten, Encodable m
  active : ∀ m ∈ active, Encodable m
  torn : Torn torn

theorem Written.tail {ms : List Mutation} (h : Written (ms :: older) active torn) :
    (∀ m ∈ ms, Encodable m) ∧ Written older active torn :=
  ⟨fun m hm => h.older m (by simp [hm]),
    fun m hm => h.older m (by rw [List.flatten_cons]; exact List.mem_append_right _ hm),
    h.active, h.torn⟩

theorem laidOut_cons (start : ℕ) (ms : List Mutation) (older : List (List Mutation))
    (active : List Mutation) (torn : Bytes) :
    laidOut start (ms :: older) active torn =
      (start, recordsOf ms) :: laidOut (start + ms.length) older active torn := by
  rw [laidOut, laidOut, sealedFrom, List.flatten_cons, List.length_append, Nat.add_assoc]
  rfl

theorem laidOut_ne_nil : laidOut start older active torn ≠ [] :=
  List.append_ne_nil_of_right_ne_nil _ (List.cons_ne_nil _ _)

theorem readable_laidOut (h : Written older active torn) :
    Readable (laidOut start older active torn) := by
  induction older generalizing start with
  | nil =>
    show decode (leftover (recordsOf active ++ torn)) = .error .truncated
    rw [leftover_torn h.active h.torn, h.torn.decode]
  | cons ms rest ih =>
    obtain ⟨hms, hrest⟩ := h.tail
    rw [laidOut_cons]
    have hne : laidOut (start + ms.length) rest active torn ≠ [] := laidOut_ne_nil
    have hreadable : Readable (laidOut (start + ms.length) rest active torn) := ih hrest
    obtain ⟨next, others, hnext⟩ := List.exists_cons_of_ne_nil hne
    rw [hnext] at hreadable ⊢
    exact ⟨leftover_records hms, hreadable⟩

theorem getLast?_laidOut : (laidOut start older active torn).getLast? =
    some (start + older.flatten.length, recordsOf active ++ torn) := by
  rw [laidOut, List.getLast?_concat]

theorem head?_laidOut (start : ℕ) (older : List (List Mutation)) (active : List Mutation)
    (torn : Bytes) : ∃ bytes, (laidOut start older active torn).head? = some (start, bytes) := by
  cases older with
  | nil => exact ⟨_, rfl⟩
  | cons ms rest => exact ⟨_, by rw [laidOut_cons]; rfl⟩

theorem logEnd_laidOut (h : Written older active torn) :
    logEnd (laidOut start older active torn) =
      start + (older.flatten ++ active).length := by
  rw [logEnd, getLast?_laidOut, List.length_append]
  dsimp only
  rw [complete_torn h.active h.torn, Nat.add_assoc]

theorem tailOf_laidOut (h : Written older active torn) :
    tailOf (laidOut start older active torn) =
      some ⟨start + older.flatten.length, (recordsOf active).length⟩ := by
  rw [tailOf, getLast?_laidOut, Option.map_some, complete_torn h.active h.torn]

/-- What recovery meets past a position is what the log holds past it. -/
theorem past_laidOut (h : Written older active torn) (applied : ℕ) :
    past applied (laidOut start older active torn) =
      (older.flatten ++ active).drop (applied - start) := by
  induction older generalizing start with
  | nil =>
    show (complete (recordsOf active ++ torn)).drop (applied - start) ++ [] = _
    rw [complete_torn h.active h.torn, List.append_nil]
    rfl
  | cons ms rest ih =>
    obtain ⟨hms, hrest⟩ := h.tail
    rw [laidOut_cons, past_cons, ih hrest, complete_records hms, List.flatten_cons,
      List.append_assoc, @List.drop_append _ ms, Nat.sub_sub]

end Directory

/-! ## Any bytes -/

/-- A list of mutations is encoded exactly when each of them fits a frame. -/
theorem encodable_of_encodeBatch {mutations : List Mutation} {out bytes : Bytes}
    (h : encodeBatch mutations out = .ok bytes) :
    (∀ m ∈ mutations, Encodable m) ∧ bytes = out ++ recordsOf mutations := by
  by_cases hall : ∀ m ∈ mutations, Encodable m
  · rw [encodeBatch_eq hall] at h
    exact ⟨hall, (Except.ok.inj h).symm⟩
  · obtain ⟨e, he⟩ := encodeBatch_error hall out
    rw [he] at h
    cases h

/-- A segment begins with its complete records. -/
theorem encodeBatch_complete (bytes : Bytes) :
    encodeBatch (complete bytes) [] = .ok (bytes.take (recordsOf (complete bytes)).length) := by
  have htake : bytes.take (recordsOf (complete bytes)).length = recordsOf (complete bytes) :=
    (congrArg (List.take _) (records_leftover bytes)).symm.trans List.take_left
  rw [encodeBatch_eq (fun _ hm => encodable_of_mem_complete hm), htake, List.nil_append]

theorem drop_complete (bytes : Bytes) :
    bytes.drop (recordsOf (complete bytes)).length = leftover bytes :=
  (congrArg (List.drop _) (records_leftover bytes)).symm.trans List.drop_left

theorem length_complete_le (bytes : Bytes) :
    (recordsOf (complete bytes)).length ≤ bytes.length := by
  have hlength := congrArg List.length (records_leftover bytes)
  rw [List.length_append] at hlength
  omega

/-- The record loop over the last segment is total and exact. Whatever the bytes are, it finds
them corrupt or ends where they stop being the encodings of the mutations it found, at bytes
that are none or end mid-record, and each record it takes lies within what is left and moves
it on. Over encodings cut anywhere it takes the ones that were left whole. Where the records are
numbered within a `u64` it does so counting in one.
SOURCE: crates/wal/src/wal.rs:212-239 -/
theorem replayRecords_exact (applied first : ℕ) (pending : List Mutation) :
    (∀ bytes : Bytes,
      (∀ rest mutation width, rest <:+ bytes → decode rest = .ok (mutation, width) →
        0 < width ∧ width ≤ rest.length) ∧
      ((∃ e, replayRecords applied true bytes first 0 pending = .error e ∧ e.isCorrupt = true) ∨
        ∃ mutations valid, replayRecords applied true bytes first 0 pending =
            .ok (first + mutations.length, valid, pending ++ mutations.drop (applied - first)) ∧
          valid ≤ bytes.length ∧ encodeBatch mutations [] = .ok (bytes.take valid) ∧
          (bytes.drop valid = [] ∨ decode (bytes.drop valid) = .error .truncated))) ∧
    (∀ (mutations : List Mutation) (whole bytes : Bytes),
      encodeBatch mutations [] = .ok whole → bytes <+: whole →
      ∃ k ≤ mutations.length, ∃ valid,
        replayRecords applied true bytes first 0 pending =
          .ok (first + k, valid, pending ++ (mutations.take k).drop (applied - first)) ∧
        encodeBatch (mutations.take k) [] = .ok (bytes.take valid) ∧
        ∀ j ≤ mutations.length,
          (∃ encoded, encodeBatch (mutations.take j) [] = .ok encoded ∧ encoded.length ≤ bytes.length) ↔
            j ≤ k) ∧
    ∀ (overflowChecks : Bool) (bytes : Bytes), first + (complete bytes).length ≤ u64Max →
      replayRecordsCounted overflowChecks applied true bytes first 0 pending =
        some (replayRecords applied true bytes first 0 pending) := by
  refine ⟨fun bytes => ⟨fun _ _ _ _ h => decode_width h, ?_⟩, fun mutations whole bytes h hcut => ?_,
    fun overflowChecks bytes hcount => replayRecordsCounted_eq overflowChecks applied true hcount 0
      pending⟩
  · by_cases hend : leftover bytes = [] ∨ decode (leftover bytes) = .error .truncated
    · refine .inr ⟨complete bytes, (recordsOf (complete bytes)).length, ?_,
        length_complete_le bytes, encodeBatch_complete bytes, ?_⟩
      · rw [replayRecords_ok applied (hend.imp id fun htorn => ⟨rfl, htorn⟩), Nat.zero_add]
      · rw [drop_complete]
        exact hend
    · exact .inl (replayRecords_error applied
        (fun h => hend (h.imp id fun htorn => htorn.2)) first 0 pending)
  · obtain ⟨hall, rfl⟩ := encodable_of_encodeBatch h
    rw [List.nil_append] at hcut
    obtain ⟨torn, htorn, htake⟩ := take_records hall bytes.length
    rw [← List.prefix_iff_eq_take.mp hcut] at htake
    have hsub : ∀ j, ∀ m ∈ mutations.take j, Encodable m :=
      fun j m hm => hall m (List.mem_of_mem_take hm)
    have hcomplete : complete bytes = mutations.take (fitting bytes.length mutations) := by
      conv_lhs => rw [htake]
      exact complete_torn (hsub _) htorn
    have hend : decode (leftover bytes) = .error .truncated := by
      conv_lhs => rw [htake]
      rw [leftover_torn (hsub _) htorn, htorn.decode]
    refine ⟨fitting bytes.length mutations, fitting_le _ _, (recordsOf (complete bytes)).length,
      ?_, ?_, fun j hj => ?_⟩
    · rw [replayRecords_ok applied (.inr ⟨rfl, hend⟩), Nat.zero_add, hcomplete, List.length_take,
        Nat.min_eq_left (fitting_le _ _)]
    · rw [← hcomplete]
      exact encodeBatch_complete bytes
    · rw [encodeBatch_eq (hsub j), List.nil_append, ← records_le_iff hj]
      simp

end Hadar.Wal
