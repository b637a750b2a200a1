import Hadar.Interface.Log

/-!
# The log's record format

A record is a frame around a payload, and the frame's header says how far the record goes.
So a complete record decodes to its mutation whatever follows it, a record cut short is
recognised as such, and what decodes is the encoding of what it decodes to.
-/

set_option autoImplicit false

namespace Hadar.Wal

open Hadar.Lib Hadar.Storage Hadar.Mvcc

variable [Crc32]

/-! ## Frames -/

@[simp] theorem length_checksum (len payload : Bytes) : (checksum len payload).length = 4 := by
  simp [checksum]

theorem length_frameOf (payload : Bytes) : (frameOf payload).length = 8 + payload.length := by
  simp [frameOf]
  omega

/-- SOURCE: crates/wal/src/frame.rs:17-31 -/
theorem encodeFrame_eq {payload : Bytes} (h : payload.length ≤ maxPayloadLen) (out : Bytes) :
    encodeFrame payload out = .ok (out ++ frameOf payload) := by
  have hmax : maxPayloadLen ≤ u32Max := by decide
  rw [encodeFrame, if_neg (by omega), if_neg (by omega)]
  simp [frameOf]

theorem encodeFrame_error {payload : Bytes} (h : maxPayloadLen < payload.length) (out : Bytes) :
    ∃ e, encodeFrame payload out = .error e := by
  rw [encodeFrame]
  split
  · exact ⟨_, rfl⟩
  · exact ⟨_, rfl⟩

/-- Fewer bytes than a header end early. -/
theorem decodeFrame_short {bytes : Bytes} (h : bytes.length < headerLen) :
    decodeFrame bytes = .error .truncated := by
  rw [decodeFrame, splitAtChecked, if_neg (by omega)]

/-- What decoding makes of a checksum, a length and what follows them.
SOURCE: crates/wal/src/frame.rs:41-65 -/
theorem decodeFrame_header {sum len : Bytes} (hsum : sum.length = 4) (hlen : len.length = 4)
    (rest : Bytes) :
    decodeFrame (sum ++ (len ++ rest)) =
      if ofBE len > maxPayloadLen then .error (.corrupt "frame claims an implausible length")
      else if rest.length < ofBE len then .error .truncated
      else if checksum len (rest.take (ofBE len)) ≠ sum then
        .error (.corrupt "frame checksum does not match its contents")
      else .ok (rest.take (ofBE len), headerLen + ofBE len) := by
  have hheader : (sum ++ len).length = headerLen := by
    rw [List.length_append, hsum, hlen]; rfl
  have hall : sum ++ (len ++ rest) = (sum ++ len) ++ rest := (List.append_assoc ..).symm
  rw [decodeFrame, splitAtChecked, if_pos (by rw [hall, List.length_append]; omega), hall,
    List.take_left' hheader, List.drop_left' hheader]
  dsimp only
  rw [List.take_left' hsum, List.drop_left' hsum, if_neg (by omega)]
  by_cases himplausible : ofBE len > maxPayloadLen
  · rw [if_pos himplausible, if_pos himplausible]
  · rw [if_neg himplausible, if_neg himplausible, splitAtChecked]
    by_cases hshort : rest.length < ofBE len
    · rw [if_neg (by omega), if_pos hshort]
    · rw [if_pos (by omega), if_neg hshort]

omit [Crc32] in
/-- Any bytes as long as a header are a checksum, a length and what follows them. -/
theorem header_split {bytes : Bytes} (h : headerLen ≤ bytes.length) :
    ∃ sum len rest, sum.length = 4 ∧ len.length = 4 ∧ bytes = sum ++ (len ++ rest) := by
  unfold headerLen at h
  refine ⟨bytes.take 4, (bytes.drop 4).take 4, (bytes.drop 4).drop 4, ?_, ?_, ?_⟩
  · rw [List.length_take]; omega
  · rw [List.length_take, List.length_drop]; omega
  · rw [List.take_append_drop, List.take_append_drop]

omit [Crc32] in
theorem ofBE_length_of_le {n : ℕ} (h : n ≤ maxPayloadLen) : ofBE (toBE 4 n) = n := by
  have hmax : maxPayloadLen < 256 ^ 4 := by decide
  exact ofBE_toBE_of_lt (by omega)

/-- A complete frame gives its payload back, whatever follows it. -/
theorem decodeFrame_frameOf {payload : Bytes} (h : payload.length ≤ maxPayloadLen) (rest : Bytes) :
    decodeFrame (frameOf payload ++ rest) = .ok (payload, (frameOf payload).length) := by
  rw [frameOf, List.append_assoc, List.append_assoc, decodeFrame_header (length_checksum _ _)
    (length_toBE _ _), ofBE_length_of_le h, if_neg (by omega),
    if_neg (by rw [List.length_append]; omega), List.take_left, if_neg (by simp)]
  simp [headerLen]
  omega

/-- A frame cut short ends early. -/
theorem decodeFrame_cut {payload start : Bytes} (h : payload.length ≤ maxPayloadLen)
    (hstart : start <+: frameOf payload) (hcut : start.length < (frameOf payload).length) :
    decodeFrame start = .error .truncated := by
  by_cases hshort : start.length < headerLen
  · exact decodeFrame_short hshort
  · have hlong : headerLen ≤ start.length := by omega
    obtain ⟨sum, len, rest, hsum, hlen, rfl⟩ := header_split hlong
    rw [length_frameOf] at hcut
    rw [frameOf] at hstart
    obtain ⟨tail, htail⟩ := hstart
    rw [List.append_assoc, List.append_assoc] at htail
    obtain ⟨rfl, hrest⟩ := List.append_inj htail (by rw [hsum, length_checksum])
    obtain ⟨rfl, hpayload⟩ := List.append_inj hrest (by rw [hlen, length_toBE])
    rw [decodeFrame_header hsum hlen, ofBE_length_of_le h, if_neg (by omega), if_pos]
    simp only [List.length_append, length_checksum, length_toBE] at hcut
    omega

/-- What a frame decodes to encodes to the frame.
SOURCE: crates/wal/src/frame.rs:41-65 -/
theorem frameOf_of_decodeFrame {bytes payload : Bytes} {width : ℕ}
    (h : decodeFrame bytes = .ok (payload, width)) :
    payload.length ≤ maxPayloadLen ∧ ∃ rest, bytes = frameOf payload ++ rest ∧
      width = (frameOf payload).length := by
  by_cases hshort : bytes.length < headerLen
  · rw [decodeFrame_short hshort] at h
    cases h
  · have hlong : headerLen ≤ bytes.length := by omega
    obtain ⟨sum, len, rest, hsum, hlen, rfl⟩ := header_split hlong
    rw [decodeFrame_header hsum hlen] at h
    split at h
    · cases h
    · rename_i hplausible
      split at h
      · cases h
      · rename_i hfits
        split at h
        · cases h
        · rename_i hmatch
          simp only [Except.ok.injEq, Prod.mk.injEq] at h
          obtain ⟨hpayload, hwidth⟩ := h
          have hpl : payload.length = ofBE len := by
            rw [← hpayload, List.length_take]
            omega
          have hlen' : toBE 4 payload.length = len := by
            rw [hpl, ← hlen, toBE_ofBE]
          rw [hpayload] at hmatch
          refine ⟨by omega, rest.drop (ofBE len), ?_, ?_⟩
          · rw [frameOf, hlen', not_not.mp hmatch, List.append_assoc, List.append_assoc, ← hpayload,
              List.take_append_drop]
          · rw [length_frameOf, ← hwidth, hpl]
            rfl

/-! ## Payloads -/

omit [Crc32] in
theorem length_payloadOf (mutation : Mutation) :
    (payloadOf mutation).length = 6 + mutation.key.length + mutation.value.length := by
  simp [payloadOf]
  omega

omit [Crc32] in
theorem Encodable.key_le {mutation : Mutation} (h : Encodable mutation) :
    mutation.key.length ≤ u32Max := by
  have hmax : maxPayloadLen ≤ u32Max := by decide
  have := length_payloadOf mutation
  unfold Encodable at h
  omega

omit [Crc32] in
/-- SOURCE: crates/wal/src/record.rs:16-71 -/
theorem decodePayload_payloadOf {mutation : Mutation} (h : mutation.key.length ≤ u32Max) :
    decodePayload (payloadOf mutation) = .ok mutation := by
  have hlt : mutation.key.length < 256 ^ 4 := Nat.lt_of_le_of_lt h (by decide)
  have hlen : (toBE 4 mutation.key.length).length = 4 := length_toBE _ _
  rw [payloadOf, decodePayload, if_neg (by simp), splitAtChecked, if_pos (by simp), List.take_left' hlen,
    List.drop_left' hlen]
  dsimp only
  rw [if_neg (by omega), ofBE_toBE_of_lt hlt, splitAtChecked, if_pos (by simp), List.take_left,
    List.drop_left]
  cases mutation <;> rfl

omit [Crc32] in
/-- A payload that decodes is the one its mutation has.
SOURCE: crates/wal/src/record.rs:37-71 -/
theorem payloadOf_of_decodePayload {payload : Bytes} {mutation : Mutation}
    (h : decodePayload payload = .ok mutation) : payload = payloadOf mutation := by
  unfold decodePayload at h
  split at h
  · cases h
  · rename_i version payload1
    split at h
    · cases h
    · rename_i hversion
      obtain rfl := not_not.mp hversion
      split at h
      · cases h
      · rename_i kind payload2
        unfold splitAtChecked at h
        by_cases hkeyLen : 4 ≤ payload2.length
        · rw [if_pos hkeyLen] at h
          dsimp only at h
          have htake : (payload2.take 4).length = 4 := by rw [List.length_take]; omega
          rw [if_neg (by omega)] at h
          by_cases hkey : ofBE (payload2.take 4) ≤ (payload2.drop 4).length
          · rw [if_pos hkey] at h
            dsimp only at h
            have hkl : ((payload2.drop 4).take (ofBE (payload2.take 4))).length =
                ofBE (payload2.take 4) := by rw [List.length_take]; omega
            -- the key length read back is the one that was written
            have hback : ∀ m : Mutation, m.key = (payload2.drop 4).take (ofBE (payload2.take 4)) →
                m.value = (payload2.drop 4).drop (ofBE (payload2.take 4)) → kindOf m = kind →
                recordVersion :: kind :: payload2 = payloadOf m := by
              intro m hk hv hkind
              have hwritten : toBE 4 (ofBE (payload2.take 4)) = payload2.take 4 := by
                have := toBE_ofBE (payload2.take 4)
                rwa [htake] at this
              rw [payloadOf, hk, hv, hkind, hkl, hwritten, List.take_append_drop,
                List.take_append_drop]
            by_cases hput : kind = putKind
            · rw [if_pos hput] at h
              cases h
              exact hback _ rfl rfl hput.symm
            · rw [if_neg hput] at h
              by_cases hdelete : kind = deleteKind
              · rw [if_pos hdelete] at h
                by_cases hempty : ((payload2.drop 4).drop (ofBE (payload2.take 4))).isEmpty = true
                · rw [if_pos hempty] at h
                  cases h
                  exact hback _ rfl (List.isEmpty_iff.mp hempty).symm hdelete.symm
                · rw [if_neg hempty] at h
                  cases h
              · rw [if_neg hdelete] at h
                cases h
          · rw [if_neg hkey] at h
            cases h
        · rw [if_neg hkeyLen] at h
          cases h

/-! ## Errors -/

/-- A frame that is refused ends early or is corrupt. -/
theorem decodeFrame_error_kind {bytes : Bytes} {e : Error} (h : decodeFrame bytes = .error e) :
    e = .truncated ∨ e.isCorrupt = true := by
  by_cases hshort : bytes.length < headerLen
  · rw [decodeFrame_short hshort] at h
    cases h
    exact .inl rfl
  · have hlong : headerLen ≤ bytes.length := by omega
    obtain ⟨sum, len, rest, hsum, hlen, rfl⟩ := header_split hlong
    rw [decodeFrame_header hsum hlen] at h
    split at h
    · cases h
      exact .inr rfl
    · split at h
      · cases h
        exact .inl rfl
      · split at h
        · cases h
          exact .inr rfl
        · cases h

omit [Crc32] in
theorem decodePayload_error_kind {payload : Bytes} {e : Error}
    (h : decodePayload payload = .error e) : e.isCorrupt = true := by
  unfold decodePayload at h
  repeat' split at h
  all_goals cases h <;> rfl

/-- A record that is refused ends early or is corrupt. -/
theorem decode_error_kind {bytes : Bytes} {e : Error} (h : decode bytes = .error e) :
    e = .truncated ∨ e.isCorrupt = true := by
  unfold decode at h
  split at h
  · rename_i hframe
    cases h
    exact decodeFrame_error_kind hframe
  · split at h
    · rename_i hpayload
      cases h
      exact .inr (decodePayload_error_kind hpayload)
    · cases h

/-! ## Records -/

theorem recordOf_ne_nil (mutation : Mutation) : recordOf mutation ≠ [] := by
  intro h
  have := congrArg List.length h
  rw [recordOf, length_frameOf] at this
  simp at this

/-- SOURCE: crates/wal/src/record.rs:16-35 -/
theorem encode_eq {mutation : Mutation} (h : Encodable mutation) (out : Bytes) :
    encode mutation out = .ok (out ++ recordOf mutation) := by
  have hkey := h.key_le
  rw [encode, if_neg (by omega)]
  exact encodeFrame_eq h out

theorem encode_error {mutation : Mutation} (h : ¬ Encodable mutation) (out : Bytes) :
    ∃ e, encode mutation out = .error e := by
  have hlong : maxPayloadLen < (payloadOf mutation).length := Nat.lt_of_not_le h
  rw [encode]
  by_cases hkey : mutation.key.length > u32Max
  · rw [if_pos hkey]
    exact ⟨_, rfl⟩
  · rw [if_neg hkey]
    exact encodeFrame_error hlong out

/-- A record decodes when its frame and its payload do. -/
theorem decode_ok {bytes payload : Bytes} {width : ℕ} {mutation : Mutation}
    (hframe : decodeFrame bytes = .ok (payload, width))
    (hpayload : decodePayload payload = .ok mutation) :
    decode bytes = .ok (mutation, width) := by
  rw [decode, hframe]
  dsimp only
  rw [hpayload]

/-- A record whose frame is refused is refused with the frame's error. -/
theorem decode_error {bytes : Bytes} {e : Error} (h : decodeFrame bytes = .error e) :
    decode bytes = .error e := by
  rw [decode, h]

/-- A complete record gives its mutation back, whatever follows it. -/
theorem decode_recordOf {mutation : Mutation} (h : Encodable mutation) (rest : Bytes) :
    decode (recordOf mutation ++ rest) = .ok (mutation, (recordOf mutation).length) :=
  decode_ok (decodeFrame_frameOf h rest) (decodePayload_payloadOf h.key_le)

/-- A record cut short ends early. -/
theorem decode_cut {mutation : Mutation} {start : Bytes} (h : Encodable mutation)
    (hstart : start <+: recordOf mutation) (hcut : start.length < (recordOf mutation).length) :
    decode start = .error .truncated :=
  decode_error (decodeFrame_cut h hstart hcut)

/-- What decodes is the record of what it decodes to. -/
theorem recordOf_of_decode {bytes : Bytes} {mutation : Mutation} {width : ℕ}
    (h : decode bytes = .ok (mutation, width)) :
    Encodable mutation ∧ ∃ rest, bytes = recordOf mutation ++ rest ∧
      width = (recordOf mutation).length := by
  unfold decode at h
  split at h
  · cases h
  · rename_i payload w hframe
    obtain ⟨hle, rest, hbytes, hwidth⟩ := frameOf_of_decodeFrame hframe
    split at h
    · cases h
    · rename_i m hpayload
      simp only [Except.ok.injEq, Prod.mk.injEq] at h
      obtain ⟨rfl, rfl⟩ := h
      obtain rfl := payloadOf_of_decodePayload hpayload
      exact ⟨hle, rest, hbytes, hwidth⟩

/-- A record's width is what a mutation's key and value come to. -/
theorem encode_isOk_iff (mutation : Mutation) (out : Bytes) :
    (∃ bytes, encode mutation out = .ok bytes) ↔
      6 + mutation.key.length + mutation.value.length ≤ maxPayloadLen := by
  rw [← length_payloadOf]
  constructor
  · rintro ⟨bytes, hbytes⟩
    by_contra hlong
    have hencodable : ¬ Encodable mutation := hlong
    obtain ⟨e, he⟩ := encode_error hencodable out
    rw [he] at hbytes
    cases hbytes
  · exact fun h => ⟨_, encode_eq h out⟩

/-- The format is invertible and prefix-free. A mutation is encoded exactly when it fits a frame,
as a string that decodes to it, with its width, whatever follows, and any part of which ends
early; and whatever decodes begins with the encoding of what it decodes to.
SOURCE: crates/wal/src/record.rs:16-71, crates/wal/src/frame.rs:17-65 -/
theorem record_format :
    (∀ mutation : Mutation,
      (∀ out, (∃ bytes, encode mutation out = .ok bytes) ↔
        6 + mutation.key.length + mutation.value.length ≤ maxPayloadLen) ∧
      (6 + mutation.key.length + mutation.value.length ≤ maxPayloadLen →
        ∃ w, (∀ out, encode mutation out = .ok (out ++ w)) ∧
          (∀ rest, decode (w ++ rest) = .ok (mutation, w.length)) ∧
          ∀ start, start <+: w → start ≠ w → decode start = .error .truncated)) ∧
    ∀ bytes mutation width, decode bytes = .ok (mutation, width) →
      width ≤ bytes.length ∧ encode mutation [] = .ok (bytes.take width) := by
  refine ⟨fun mutation => ⟨encode_isOk_iff mutation, fun hfits => ?_⟩, fun bytes mutation width h => ?_⟩
  · have hencodable : Encodable mutation := by
      rw [Encodable, length_payloadOf]
      exact hfits
    refine ⟨recordOf mutation, encode_eq hencodable, decode_recordOf hencodable,
      fun start hstart hne => decode_cut hencodable hstart ?_⟩
    exact Nat.lt_of_le_of_ne hstart.length_le fun hlength => hne (hstart.eq_of_length hlength)
  · obtain ⟨hencodable, rest, rfl, rfl⟩ := recordOf_of_decode h
    refine ⟨by rw [List.length_append]; omega, ?_⟩
    rw [encode_eq hencodable, List.nil_append, List.take_left]

/-! ## Batches of records -/

@[simp] theorem recordsOf_nil : recordsOf [] = [] := rfl

@[simp] theorem recordsOf_cons (m : Mutation) (rest : List Mutation) :
    recordsOf (m :: rest) = recordOf m ++ recordsOf rest := rfl

theorem recordsOf_append (a b : List Mutation) :
    recordsOf (a ++ b) = recordsOf a ++ recordsOf b := List.flatMap_append ..

/-- A batch is encoded as its records end to end.
SOURCE: crates/wal/src/writer.rs:182-189 -/
theorem encodeBatch_eq {mutations : List Mutation} (h : ∀ m ∈ mutations, Encodable m)
    (out : Bytes) : encodeBatch mutations out = .ok (out ++ recordsOf mutations) := by
  induction mutations generalizing out with
  | nil => simp [encodeBatch]
  | cons m rest ih =>
    rw [encodeBatch, encode_eq (h m (List.mem_cons_self ..))]
    dsimp only
    rw [ih fun x hx => h x (List.mem_cons_of_mem _ hx), recordsOf_cons, List.append_assoc]

theorem encodeBatch_error {mutations : List Mutation} (h : ¬ ∀ m ∈ mutations, Encodable m)
    (out : Bytes) : ∃ e, encodeBatch mutations out = .error e := by
  induction mutations generalizing out with
  | nil => simp at h
  | cons m rest ih =>
    rw [encodeBatch]
    by_cases hm : Encodable m
    · rw [encode_eq hm]
      refine ih (fun hrest => h fun x hx => ?_) _
      rcases List.mem_cons.mp hx with rfl | hx
      · exact hm
      · exact hrest x hx
    · obtain ⟨e, he⟩ := encode_error hm out
      rw [he]
      exact ⟨e, rfl⟩

end Hadar.Wal
