import Hadar.Analysis.Holes
import Hadar.Analysis.Layout
import Hadar.Interface.Damage

/-!
# Damage to the log

A flipped bit of a record changes its checksum, its length or its payload. The checksum
catches all three as long as the frame it is computed over is there to be read; a length that
runs past the end of the segment leaves nothing to check, and what recovery then sees is what
an interrupted append leaves behind.
-/

set_option autoImplicit false

namespace Hadar.Wal

open Hadar.Lib Hadar.Lib.Prog Hadar.Storage Hadar.Mvcc Std

/-! ## Flipped bits -/

@[simp] theorem length_flipBit (bytes : Bytes) (at_ bit : ℕ) :
    (flipBit bytes at_ bit).length = bytes.length := by
  simp [flipBit]

theorem flipBit_append_left {a : Bytes} {at_ : ℕ} (h : at_ < a.length) (b : Bytes) (bit : ℕ) :
    flipBit (a ++ b) at_ bit = flipBit a at_ bit ++ b := by
  induction a generalizing at_ with
  | nil => cases h
  | cons x a ih =>
    cases at_ with
    | zero => rfl
    | succ at_ =>
      have hrest := ih (Nat.lt_of_succ_lt_succ h)
      simp only [flipBit, List.cons_append, List.modify_succ_cons] at hrest ⊢
      rw [hrest]

theorem flipBit_append_right {a : Bytes} {at_ : ℕ} (h : a.length ≤ at_) (b : Bytes) (bit : ℕ) :
    flipBit (a ++ b) at_ bit = a ++ flipBit b (at_ - a.length) bit := by
  induction a generalizing at_ with
  | nil => rfl
  | cons x a ih =>
    cases at_ with
    | zero => cases h
    | succ at_ =>
      have hrest := ih (Nat.le_of_succ_le_succ h)
      simp only [flipBit, List.cons_append, List.modify_succ_cons, List.length_cons,
        Nat.add_sub_add_right] at hrest ⊢
      rw [hrest]

/-- A flipped bit is a change. -/
theorem flipBit_ne {bytes : Bytes} {at_ bit : ℕ} (hat : at_ < bytes.length) (hbit : bit < 8) :
    flipBit bytes at_ bit ≠ bytes := by
  induction bytes generalizing at_ with
  | nil => cases hat
  | cons x bytes ih =>
    cases at_ with
    | zero =>
      intro heq
      have hflip : x ^^^ UInt8.ofNat (2 ^ bit) = x ^^^ 0 := by
        rw [UInt8.xor_zero]
        exact (List.cons.inj heq).1
      have hbits : ∀ b < 8, UInt8.ofNat (2 ^ b) ≠ 0 := by decide
      exact hbits bit hbit ((UInt8.xor_right_inj x).mp hflip)
    | succ at_ =>
      intro heq
      exact ih (Nat.lt_of_succ_lt_succ hat) (List.cons.inj heq).2

/-! ## One record -/

theorem claimed_frame {sum len : Bytes} (hsum : sum.length = 4) (hlen : len.length = 4)
    (rest : Bytes) : claimed (sum ++ (len ++ rest)) = ofBE len := by
  rw [claimed, List.drop_left' hsum, List.take_left' hlen]

theorem hashed_frame {sum len : Bytes} (hsum : sum.length = 4) (hlen : len.length = 4)
    (rest : Bytes) : hashed (sum ++ (len ++ rest)) = len ++ rest.take (ofBE len) := by
  have hheader : (sum ++ len).length = 8 := by rw [List.length_append, hsum, hlen]
  rw [hashed, claimed_frame hsum hlen, List.drop_left' hsum, List.take_left' hlen,
    ← List.append_assoc sum, List.drop_left' hheader]

section Records

variable [Crc32]

/-- Equal checksums are equal hashes. -/
theorem checksum_inj {len payload len' payload' : Bytes}
    (h : checksum len payload = checksum len' payload') :
    Crc32.hash (len ++ payload) = Crc32.hash (len' ++ payload') := by
  have hlt : ∀ x : UInt32, x.toNat < 256 ^ 4 := fun x => Nat.lt_of_lt_of_le x.toNat_lt (by decide)
  exact UInt32.toNat_inj.mp ((toBE_inj (hlt _) (hlt _)).mp h)

/-- A header whose checksum or whose length, or a payload that differs from what was written,
is not decoded, and it is taken for one that ends early only if it claims to go on past the
end.
SOURCE: crates/wal/src/frame.rs:41-65 -/
theorem decode_damaged {payload sum len rest : Bytes} (hle : payload.length ≤ maxPayloadLen)
    (hsum : sum.length = 4) (hlen : len.length = 4) (tail : Bytes)
    (hchanged : sum ≠ checksum (toBE 4 payload.length) payload ∧ len = toBE 4 payload.length ∧
        rest = payload ++ tail ∨
      sum = checksum (toBE 4 payload.length) payload ∧
        len ++ rest.take (ofBE len) ≠ toBE 4 payload.length ++ payload)
    (hcrc : Crc32.hash (hashed (sum ++ (len ++ rest))) =
        Crc32.hash (hashed (frameOf payload ++ tail)) →
      hashed (sum ++ (len ++ rest)) = hashed (frameOf payload ++ tail)) :
    ∃ e, decode (sum ++ (len ++ rest)) = .error e ∧
      (e = .truncated ↔ ofBE len ≤ maxPayloadLen ∧ rest.length < ofBE len) := by
  have hwritten : hashed (frameOf payload ++ tail) = toBE 4 payload.length ++ payload := by
    rw [frameOf, List.append_assoc, List.append_assoc, hashed_frame (length_checksum _ _)
      (length_toBE _ _), ofBE_length_of_le hle, List.take_left]
  rw [hwritten, hashed_frame hsum hlen] at hcrc
  by_cases himplausible : ofBE len > maxPayloadLen
  · refine ⟨_, decode_error (by rw [decodeFrame_header hsum hlen, if_pos himplausible]), ?_⟩
    constructor
    · intro h; cases h
    · rintro ⟨h, -⟩; omega
  · by_cases hshort : rest.length < ofBE len
    · refine ⟨_, decode_error
        (by rw [decodeFrame_header hsum hlen, if_neg himplausible, if_pos hshort]), ?_⟩
      exact iff_of_true rfl ⟨by omega, hshort⟩
    · have hmismatch : checksum len (rest.take (ofBE len)) ≠ sum := by
        intro hmatch
        rcases hchanged with ⟨hne, rfl, rfl⟩ | ⟨rfl, hne⟩
        · rw [ofBE_length_of_le hle, List.take_left] at hmatch
          exact hne hmatch.symm
        · exact hne (hcrc (checksum_inj hmatch))
      refine ⟨_, decode_error (by rw [decodeFrame_header hsum hlen, if_neg himplausible,
        if_neg hshort, if_pos hmismatch]), ?_⟩
      constructor
      · intro h; cases h
      · rintro ⟨-, h⟩; exact absurd h hshort

/-- A record with a flipped bit is not decoded, and it is taken for one that ends early only
if the flip is in its length and makes it claim to go on past the end. -/
theorem decode_flipBit {m : Mutation} (hm : Encodable m) {at_ bit : ℕ}
    (hat : at_ < (recordOf m).length) (hbit : bit < 8) (tail : Bytes)
    (hcrc : Crc32.hash (hashed (flipBit (recordOf m) at_ bit ++ tail)) =
        Crc32.hash (hashed (recordOf m ++ tail)) →
      hashed (flipBit (recordOf m) at_ bit ++ tail) = hashed (recordOf m ++ tail)) :
    ∃ e, decode (flipBit (recordOf m) at_ bit ++ tail) = .error e ∧
      (e = .truncated ↔ 4 ≤ at_ ∧ at_ < 8 ∧
        claimed (flipBit (recordOf m) at_ bit ++ tail) ≤ maxPayloadLen ∧
        (recordOf m ++ tail).length <
          headerLen + claimed (flipBit (recordOf m) at_ bit ++ tail)) := by
  have hS : (checksum (toBE 4 (payloadOf m).length) (payloadOf m)).length = 4 :=
    length_checksum _ _
  have hL : (toBE 4 (payloadOf m).length).length = 4 := length_toBE _ _
  have hrecord : recordOf m = checksum (toBE 4 (payloadOf m).length) (payloadOf m) ++
      (toBE 4 (payloadOf m).length ++ payloadOf m) := rfl
  rw [recordOf, length_frameOf] at hat
  rcases Nat.lt_or_ge at_ 4 with hsum | hsum
  · -- the checksum
    have hflip : flipBit (recordOf m) at_ bit ++ tail =
        flipBit (checksum (toBE 4 (payloadOf m).length) (payloadOf m)) at_ bit ++
          (toBE 4 (payloadOf m).length ++ (payloadOf m ++ tail)) := by
      rw [hrecord, flipBit_append_left (by omega), List.append_assoc, List.append_assoc]
    have hflipped : flipBit (checksum (toBE 4 (payloadOf m).length) (payloadOf m)) at_ bit ≠
        checksum (toBE 4 (payloadOf m).length) (payloadOf m) := flipBit_ne (by omega) hbit
    rw [hflip] at hcrc ⊢
    obtain ⟨e, hdecode, htruncated⟩ := decode_damaged hm (by rw [length_flipBit, hS]) hL tail
      (.inl ⟨hflipped, rfl, rfl⟩) hcrc
    refine ⟨e, hdecode, htruncated.trans (iff_of_false ?_ ?_)⟩
    · rw [ofBE_length_of_le hm, List.length_append]
      omega
    · omega
  · rcases Nat.lt_or_ge at_ 8 with hlen | hlen
    · -- the length
      have hflip : flipBit (recordOf m) at_ bit ++ tail =
          checksum (toBE 4 (payloadOf m).length) (payloadOf m) ++
            (flipBit (toBE 4 (payloadOf m).length) (at_ - 4) bit ++ (payloadOf m ++ tail)) := by
        rw [hrecord, flipBit_append_right (by omega), hS, flipBit_append_left (by omega),
          List.append_assoc, List.append_assoc]
      have hflipped : flipBit (toBE 4 (payloadOf m).length) (at_ - 4) bit ≠
          toBE 4 (payloadOf m).length := flipBit_ne (by omega) hbit
      have hL' : (flipBit (toBE 4 (payloadOf m).length) (at_ - 4) bit).length = 4 := by
        rw [length_flipBit, hL]
      rw [hflip] at hcrc ⊢
      obtain ⟨e, hdecode, htruncated⟩ := decode_damaged hm hS hL' tail
        (.inr ⟨rfl, fun h => hflipped (List.append_inj h (by rw [hL', hL])).1⟩) hcrc
      refine ⟨e, hdecode, htruncated.trans ?_⟩
      rw [claimed_frame hS hL', List.length_append, List.length_append, recordOf, length_frameOf,
        headerLen]
      omega
    · -- the payload
      have hflip : flipBit (recordOf m) at_ bit ++ tail =
          checksum (toBE 4 (payloadOf m).length) (payloadOf m) ++
            (toBE 4 (payloadOf m).length ++ (flipBit (payloadOf m) (at_ - 4 - 4) bit ++ tail)) := by
        rw [hrecord, flipBit_append_right (by omega), hS, flipBit_append_right (by omega), hL,
          List.append_assoc, List.append_assoc]
      have hflipped : flipBit (payloadOf m) (at_ - 4 - 4) bit ≠ payloadOf m :=
        flipBit_ne (by omega) hbit
      have hP' : (flipBit (payloadOf m) (at_ - 4 - 4) bit).length = (payloadOf m).length :=
        length_flipBit _ _ _
      rw [hflip] at hcrc ⊢
      obtain ⟨e, hdecode, htruncated⟩ := decode_damaged hm hS hL tail (.inr ⟨rfl, fun h => by
        rw [ofBE_length_of_le hm, List.take_left' hP'] at h
        exact hflipped (List.append_cancel_left h)⟩) hcrc
      refine ⟨e, hdecode, htruncated.trans (iff_of_false ?_ ?_)⟩
      · rw [ofBE_length_of_le hm, List.length_append, hP']
        omega
      · omega

/-! ## One segment -/

theorem length_recordOf (m : Mutation) : (recordOf m).length = 8 + (payloadOf m).length :=
  length_frameOf _

/-- A byte of a segment is a byte of one of its records. -/
theorem exists_record {mutations : List Mutation} {at_ : ℕ}
    (h : at_ < (recordsOf mutations).length) :
    ∃ before m after, mutations = before ++ m :: after ∧ (recordsOf before).length ≤ at_ ∧
      at_ < (recordsOf before).length + (recordOf m).length := by
  induction mutations generalizing at_ with
  | nil => cases h
  | cons m rest ih =>
    rw [recordsOf_cons, List.length_append] at h
    rcases Nat.lt_or_ge at_ (recordOf m).length with hlt | hge
    · exact ⟨[], m, rest, rfl, Nat.zero_le _, by simpa using hlt⟩
    · have hrest : at_ - (recordOf m).length < (recordsOf rest).length := by omega
      obtain ⟨before, m', after, rfl, hlow, hhigh⟩ := ih hrest
      refine ⟨m :: before, m', after, rfl, ?_, ?_⟩ <;>
        rw [recordsOf_cons, List.length_append] <;> omega

theorem offsetOf_append (before after : List Mutation) :
    offsetOf (before ++ after) before.length = (recordsOf before).length := by
  rw [offsetOf, List.take_left]

/-- Records begin in the order they are numbered, each at least a header past the one before. -/
theorem offsetOf_lt {mutations : List Mutation} {k k' : ℕ} (h : k < k')
    (hk' : k' ≤ mutations.length) : offsetOf mutations k + 8 ≤ offsetOf mutations k' := by
  have hsplit : mutations.take k' =
      mutations.take k ++ (mutations.drop k).take (k' - k) := by
    rw [← List.take_add, Nat.add_sub_cancel' (Nat.le_of_lt h)]
  have hne : (mutations.drop k).take (k' - k) ≠ [] := by
    rw [← List.length_pos_iff, List.length_take, List.length_drop]
    omega
  obtain ⟨m, rest, hcons⟩ := List.exists_cons_of_ne_nil hne
  rw [offsetOf, offsetOf, hsplit, hcons, recordsOf_append, recordsOf_cons, List.length_append,
    List.length_append, length_recordOf]
  omega

/-- A segment with a flipped bit is read up to the record the bit is in, and what is found
there is taken for a record that ends early only if the flip is in its length and makes it
claim to go on past the end. -/
theorem scanned_flipBit {mutations : List Mutation} (h : ∀ m ∈ mutations, Encodable m)
    {at_ bit : ℕ} (hat : at_ < (recordsOf mutations).length) (hbit : bit < 8)
    (hcrc : NoCollision (recordsOf mutations) (flipBit (recordsOf mutations) at_ bit)) :
    ∃ k < mutations.length, offsetOf mutations k ≤ at_ ∧ at_ < offsetOf mutations (k + 1) ∧
      complete (flipBit (recordsOf mutations) at_ bit) = mutations.take k ∧
      leftover (flipBit (recordsOf mutations) at_ bit) ≠ [] ∧
      (decode (leftover (flipBit (recordsOf mutations) at_ bit)) = .error .truncated ↔
        offsetOf mutations k + 4 ≤ at_ ∧ at_ < offsetOf mutations k + 8 ∧
        claimed ((flipBit (recordsOf mutations) at_ bit).drop (offsetOf mutations k)) ≤
          maxPayloadLen ∧
        (recordsOf mutations).length < offsetOf mutations k + headerLen +
          claimed ((flipBit (recordsOf mutations) at_ bit).drop (offsetOf mutations k))) := by
  obtain ⟨before, m, after, rfl, hlow, hhigh⟩ := exists_record hat
  have hbefore : ∀ x ∈ before, Encodable x := fun x hx => h x (List.mem_append_left _ hx)
  have hm : Encodable m := h m (List.mem_append_right _ (List.mem_cons_self ..))
  have hk : before.length < (before ++ m :: after).length := by simp
  have hwritten : recordsOf (before ++ m :: after) =
      recordsOf before ++ (recordOf m ++ recordsOf after) := by
    rw [recordsOf_append, recordsOf_cons]
  have hflip : flipBit (recordsOf (before ++ m :: after)) at_ bit = recordsOf before ++
      (flipBit (recordOf m) (at_ - (recordsOf before).length) bit ++ recordsOf after) := by
    rw [hwritten, flipBit_append_right hlow, flipBit_append_left (by omega)]
  have hoffset := offsetOf_append before (m :: after)
  have hnext : offsetOf (before ++ m :: after) (before.length + 1) =
      (recordsOf before).length + (recordOf m).length := by
    have := offsetOf_append (before ++ [m]) after
    rw [recordsOf_append, recordsOf_cons, recordsOf_nil, List.append_nil] at this
    simpa using this
  have hcompared := hcrc before.length (by rw [complete_records h]; exact hk)
  rw [complete_records h, hoffset, hflip, List.drop_left, hwritten, List.drop_left] at hcompared
  have hin : at_ - (recordsOf before).length < (recordOf m).length := by omega
  obtain ⟨e, hdecode, htruncated⟩ := decode_flipBit hm hin hbit (recordsOf after) hcompared
  have hscanned := scanned_records hbefore
    (flipBit (recordOf m) (at_ - (recordsOf before).length) bit ++ recordsOf after)
  rw [complete, leftover, scanned_error hdecode, List.append_nil] at hscanned
  refine ⟨before.length, hk, by omega, by omega, ?_, ?_, ?_⟩
  · rw [hflip, complete, hscanned, List.take_left]
  · rw [hflip, leftover, hscanned]
    refine List.append_ne_nil_of_left_ne_nil (List.ne_nil_of_length_pos ?_) _
    rw [length_flipBit, length_recordOf]
    omega
  · have hlength : (recordsOf before ++ (recordOf m ++ recordsOf after)).length =
        (recordsOf before).length + (recordOf m ++ recordsOf after).length := List.length_append
    rw [hflip, leftover, hscanned, hdecode, hoffset, List.drop_left, hwritten, hlength]
    have hhead : (8 : ℕ) ≤ (recordOf m).length := by rw [length_recordOf]; omega
    constructor
    · intro he
      obtain ⟨h4, h8, hle, hshort⟩ := htruncated.mp (Except.error.inj he)
      exact ⟨by omega, by omega, hle, by omega⟩
    · rintro ⟨h4, h8, hle, hshort⟩
      exact congrArg Except.error (htruncated.mpr ⟨by omega, by omega, hle, by omega⟩)

/-! ## The directory -/

omit [Crc32] in
/-- Damage changes the bytes of its segment and nothing else. -/
theorem segments_damage {d : Disk} {first : ℕ} {file : File} {l r : List (ℕ × File)}
    (h : d.files.toList = l ++ (first, file) :: r) (at_ bit : ℕ) :
    (d.damage first at_ bit).segments =
      l.map (fun p => (p.1, p.2.data)) ++
        (first, flipBit file.data at_ bit) :: r.map fun p => (p.1, p.2.data) := by
  rw [Disk.damage, Disk.update, OrderedMap.getElem?_of_toList h]
  dsimp only
  rw [Disk.segments, OrderedMap.toList_overwrite h, List.map_append, List.map_cons]

/-- Only the last segment may end in what is no record. -/
theorem not_readable {l r : List (ℕ × Bytes)} {p q : ℕ × Bytes} (h : leftover p.2 ≠ []) :
    ¬ Readable (l ++ p :: q :: r) := by
  induction l with
  | nil => exact fun hread => h hread.1
  | cons x l ih =>
    cases l with
    | nil => exact fun hread => ih hread.2
    | cons y l => exact fun hread => ih hread.2

/-- Sealed segments are whole, so the last one decides. -/
theorem readable_sealedFrom {start : ℕ} {older : List (List Mutation)}
    (h : ∀ m ∈ older.flatten, Encodable m) (p : ℕ × Bytes) :
    Readable (sealedFrom start older ++ [p]) ↔ decode (leftover p.2) = .error .truncated := by
  induction older generalizing start with
  | nil => exact Iff.rfl
  | cons ms rest ih =>
    have hms : ∀ m ∈ ms, Encodable m := fun m hm => h m (by simp [hm])
    have hrest : ∀ m ∈ rest.flatten, Encodable m := fun m hm =>
      h m (by rw [List.flatten_cons]; exact List.mem_append_right _ hm)
    have hne : sealedFrom (start + ms.length) rest ++ [p] ≠ [] :=
      List.append_ne_nil_of_right_ne_nil _ (List.cons_ne_nil _ _)
    obtain ⟨q, others, hq⟩ := List.exists_cons_of_ne_nil hne
    have hiff := @ih (start + ms.length) hrest
    rw [sealedFrom, List.cons_append, hq]
    rw [hq] at hiff
    exact ⟨fun hread => hiff.mp hread.2, fun hp => ⟨leftover_records hms, hiff.mpr hp⟩⟩

theorem logEnd_concat (l : List (ℕ × Bytes)) (p : ℕ × Bytes) :
    logEnd (l ++ [p]) = p.1 + (complete p.2).length := by
  rw [logEnd, List.getLast?_concat]

/-- Every segment of a log that was written whole holds records and nothing else. -/
theorem mem_laidOut {start : ℕ} {older : List (List Mutation)} {active : List Mutation}
    (h : ∀ m ∈ older.flatten ++ active, Encodable m) {p : ℕ × Bytes}
    (hp : p ∈ laidOut start older active []) :
    ∃ mutations, p.2 = recordsOf mutations ∧ ∀ m ∈ mutations, Encodable m := by
  induction older generalizing start with
  | nil =>
    obtain rfl := List.mem_singleton.mp hp
    exact ⟨active, List.append_nil _, fun m hm => h m (List.mem_append_right _ hm)⟩
  | cons ms rest ih =>
    rw [laidOut_cons] at hp
    rcases List.mem_cons.mp hp with rfl | hp
    · exact ⟨ms, rfl, fun m hm => h m (by simp [hm])⟩
    · refine ih (fun m hm => h m ?_) hp
      rw [List.flatten_cons, List.append_assoc]
      exact List.mem_append_right _ hm

/-- Over a log that was written whole and then had one bit flipped recovery fails, unless the
flip is in the length of a record of the last segment, makes it claim to go on past the end of
the file, and the store has applied no more than the records before it.
SOURCE: crates/wal/src/wal.rs:197-257, crates/wal/src/frame.rs:41-65 -/
theorem recover_damaged {h : Host} {start : ℕ} {older : List (List Mutation)}
    {active : List Mutation} {first at_ bit : ℕ} {file : File}
    (hdisk : h.disk.replies = []) (hengine : h.store.engine.replies = [])
    (hlog : h.disk.segments = laidOut start older active [])
    (hencodable : ∀ m ∈ older.flatten ++ active, Encodable m)
    (hfile : h.disk.files[first]? = some file) (hat : at_ < file.data.length) (hbit : bit < 8)
    (hcrc : NoCollision file.data (flipBit file.data at_ bit)) :
    (∃ e h', recover.exec { h with disk := h.disk.damage first at_ bit } =
        (.error (.error e), h')) ↔
      ¬ Mistaken start older active h.store.state.applied first at_ bit := by
  have hmem : (first, file) ∈ h.disk.files.toList :=
    ExtTreeMap.mem_toList_iff_getElem?_eq_some.mpr hfile
  obtain ⟨l, r, hsplit⟩ := List.append_of_mem hmem
  have hreplies : (h.disk.damage first at_ bit).replies = [] := by
    rw [Disk.damage, Disk.update, hfile]
    exact hdisk
  have hsegments : l.map (fun p => (p.1, p.2.data)) ++
      (first, file.data) :: r.map (fun p => (p.1, p.2.data)) = laidOut start older active [] := by
    rw [← hlog, Disk.segments, hsplit, List.map_append, List.map_cons]
  obtain ⟨mutations, hdata, hmutations⟩ := mem_laidOut (p := (first, file.data)) hencodable
    (by rw [← hsegments]; simp)
  dsimp only at hdata
  rw [hdata] at hat hcrc hsegments
  obtain ⟨k, hk, hlow, hhigh, hcomplete, hleft, htorn⟩ := scanned_flipBit hmutations hat hbit hcrc
  refine (recover_error_iff (h := { h with disk := h.disk.damage first at_ bit }) hreplies
    hengine).trans (not_congr ?_)
  dsimp only
  rw [segments_damage hsplit, hdata]
  cases r with
  | nil =>
    obtain ⟨hsealed, hlast⟩ := List.append_inj' hsegments rfl
    obtain ⟨hfirst, hactive⟩ := Prod.mk.inj (List.cons.inj hlast).1
    rw [List.append_nil] at hactive
    have hsame : mutations = active := by
      rw [← complete_records hmutations, hactive, complete_records fun m hm =>
        hencodable m (List.mem_append_right _ hm)]
    subst hsame
    have holder : ∀ m ∈ older.flatten, Encodable m := fun m hm =>
      hencodable m (List.mem_append_left _ hm)
    rw [hsealed, List.map_nil, readable_sealedFrom holder, logEnd_concat, hcomplete,
      List.length_take_of_le (Nat.le_of_lt hk), htorn]
    constructor
    · rintro ⟨⟨h4, h8, hmax, hshort⟩, hle⟩
      exact ⟨hfirst, k, hk, hle, h4, h8, hmax, hshort⟩
    · rintro ⟨-, k', hk', hle, h4, h8, hmax, hshort⟩
      -- the record the bit is in is the only one whose length it can be in
      have hk'k : k' = k := by
        rcases Nat.lt_trichotomy k' k with hlt | heq | hgt
        · have := offsetOf_lt hlt (Nat.le_of_lt hk)
          omega
        · exact heq
        · have hnext : k + 1 ≤ k' := hgt
          rcases Nat.eq_or_lt_of_le hnext with heq | hlt
          · rw [← heq] at h4
            omega
          · have := offsetOf_lt hlt (Nat.le_of_lt hk')
            omega
      subst hk'k
      exact ⟨⟨h4, h8, hmax, hshort⟩, hle⟩
  | cons q r =>
    -- a sealed segment: the damage is seen whatever it is
    refine iff_of_false (fun hbad => not_readable hleft hbad.1) fun hbad => ?_
    have hasc := OrderedMap.ascending_toList h.disk.files
    rw [hsplit] at hasc
    have hlater := (List.pairwise_cons.mp (List.pairwise_append.mp hasc).2.1).1
    have hlast := congrArg List.getLast? hsegments
    rw [getLast?_laidOut, List.map_cons, List.getLast?_append_cons, List.getLast?_cons_cons] at hlast
    have hmapped : ((q :: r).map fun p => (p.1, p.2.data)).getLast? =
        some (start + older.flatten.length, recordsOf active ++ []) := hlast
    rw [List.getLast?_map] at hmapped
    obtain ⟨p, hp, hpeq⟩ := Option.map_eq_some_iff.mp hmapped
    have hlt := Nat.compare_eq_lt.mp (hlater p (List.mem_of_getLast? hp))
    have hname : p.1 = start + older.flatten.length := congrArg Prod.fst hpeq
    have := hbad.1
    omega

end Records

/-! ## One flip in two places -/

/-- The two segments as they were written. -/
theorem twoSegments_laidOut : (twoSegments 1).disk.segments =
    @laidOut crc32fast 0 [[.put [107] [118]]] [.put [107] [118]] [] := by decide +kernel

/-- In the sealed segment a length that claims to go on past the end is refused. -/
theorem recover_damaged_sealed :
    (∃ e h', (@recover crc32fast).exec
        { twoSegments 1 with disk := (twoSegments 1).disk.damage 0 7 4 } =
        (.error (.error e), h')) ↔
      ¬ @Mistaken crc32fast 0 [[.put [107] [118]]] [.put [107] [118]]
        (twoSegments 1).store.state.applied 0 7 4 :=
  @recover_damaged crc32fast (twoSegments 1) 0 [[.put [107] [118]]] [.put [107] [118]] 0 7 4
    ⟨lonely, lonely⟩ rfl rfl twoSegments_laidOut (by decide) (by decide +kernel)
    (by decide +kernel) (by decide) (by unfold NoCollision; decide +kernel)

/-- In the last segment the same flip is taken for the end of the log, though the record was
complete. -/
theorem recover_damaged_last :
    ¬ ∀ (h : Host) (start : ℕ) (older : List (List Mutation)) (active : List Mutation)
      (first at_ bit : ℕ) (file : File), h.disk.replies = [] → h.store.engine.replies = [] →
      h.disk.segments = @laidOut crc32fast start older active [] →
      (∀ m ∈ older.flatten ++ active, Encodable m) →
      h.disk.files[first]? = some file → at_ < file.data.length → bit < 8 →
      @NoCollision crc32fast file.data (flipBit file.data at_ bit) →
      ∃ e h', (@recover crc32fast).exec { h with disk := h.disk.damage first at_ bit } =
        (.error (.error e), h') := by
  intro hall
  obtain ⟨e, h', herror⟩ := hall (twoSegments 1) 0 [[.put [107] [118]]] [.put [107] [118]] 1 7 4
    ⟨lonely, lonely⟩ rfl rfl twoSegments_laidOut (by decide) (by decide +kernel)
    (by decide +kernel) (by decide) (by unfold NoCollision; decide +kernel)
  have hok : ((@recover crc32fast).exec
      { twoSegments 1 with disk := (twoSegments 1).disk.damage 1 7 4 }).1.toOption.isSome =
      true := by decide +kernel
  rw [herror] at hok
  cases hok

end Hadar.Wal
