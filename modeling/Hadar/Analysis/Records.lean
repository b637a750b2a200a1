import Hadar.Analysis.Prefixes
import Hadar.Lib.OrderedMap
import Hadar.Model.Revision

/-!
# The format of the backend's records

A record is keyed by its revision, both numbers big-endian on a fixed width, and by a
trailing byte if it deletes. So the keys are read back as they were written, nothing else is
read as one, and the byte order of the keys is the order of the revisions, a deletion right
after a put at the same revision. The value is the user's key behind its length and then the
user's value.
-/

set_option autoImplicit false

namespace Hadar.Mvcc

open Hadar.Lib Hadar.Storage Std

/-! ## Revisions -/

namespace Revision

theorem main_lt (r : Revision) : r.main < 256 ^ 8 := Nat.lt_of_le_of_lt r.main_le (by decide)

theorem sub_lt (r : Revision) : r.sub < 256 ^ 8 := Nat.lt_of_le_of_lt r.sub_le (by decide)

theorem length_encode (r : Revision) : r.encode.length = encodedLen := by
  simp [encode, encodedLen]

/-- SOURCE: crates/mvcc/src/revision.rs:90-113 -/
theorem decode_encode (r : Revision) : decode r.encode = some r := by
  have hsep : r.encode[8]? = some separator := by
    rw [encode, List.getElem?_append_right (by simp)]
    simp
  have htake : r.encode.take 8 = toBE 8 r.main := by
    rw [encode, List.take_left' (by simp)]
  have hdrop : r.encode.drop 9 = toBE 8 r.sub := by
    rw [encode, List.append_cons, List.drop_left' (by simp)]
  rw [decode, if_neg (by simp [length_encode, hsep]), htake, hdrop, ofBE_toBE_of_lt r.main_lt,
    ofBE_toBE_of_lt r.sub_lt, new, dif_neg]
  have := r.main_le
  have := r.sub_le
  omega

/-- Only what was written is read as a revision. -/
theorem encode_of_decode {bytes : Bytes} {r : Revision} (h : decode bytes = some r) :
    bytes = r.encode := by
  rw [decode] at h
  split at h
  · cases h
  · rename_i hshape
    obtain ⟨hlength, hsep⟩ := not_or.mp hshape
    have hlength : bytes.length = 17 := not_not.mp hlength
    have hsep : bytes[8]? = some separator := not_not.mp hsep
    rw [new] at h
    split at h
    · cases h
    · obtain rfl := Option.some.inj h
      have hmain : toBE 8 (ofBE (bytes.take 8)) = bytes.take 8 := by
        have := toBE_ofBE (bytes.take 8)
        rwa [List.length_take, hlength] at this
      have hsub : toBE 8 (ofBE (bytes.drop 9)) = bytes.drop 9 := by
        have := toBE_ofBE (bytes.drop 9)
        rwa [List.length_drop, hlength] at this
      have hat : bytes.drop 8 = separator :: bytes.drop 9 := by
        obtain ⟨hlt, heq⟩ := List.getElem?_eq_some_iff.mp hsep
        rw [List.drop_eq_getElem_cons hlt, heq]
      rw [encode, hmain, hsub, ← hat, List.take_append_drop]

/-- Encoded revisions are ordered as their numbers are, by `main` and then by `sub`. -/
theorem compare_encode (r r' : Revision) (x y : Bytes) :
    compare (r.encode ++ x) (r'.encode ++ y) =
      (compare r.main r'.main).then ((compare r.sub r'.sub).then (compare x y)) := by
  simp only [encode, List.append_assoc, List.cons_append]
  rw [compare_append (by simp), compare_toBE r.main_lt r'.main_lt, compare_cons_self,
    compare_append (by simp), compare_toBE r.sub_lt r'.sub_lt]

end Revision

/-! ## Keys -/

/-- SOURCE: crates/mvcc/src/record.rs:10-45 -/
theorem parseKey_backendKey (r : Revision) (tombstone : Bool) :
    parseKey (backendKey r tombstone) = some (r, tombstone) := by
  have hlen := r.length_encode
  cases tombstone with
  | false =>
    simp [parseKey, backendKey, hlen, Revision.decode_encode]
  | true =>
    have htake : (r.encode ++ [tombstoneMark]).take Revision.encodedLen = r.encode := by
      rw [List.take_left' hlen]
    simp [parseKey, backendKey, hlen, htake, Revision.decode_encode]

theorem backendKey_inj {r r' : Revision} {t t' : Bool} (h : backendKey r t = backendKey r' t') :
    r = r' ∧ t = t' := by
  have := congrArg parseKey h
  simpa [parseKey_backendKey] using this

/-- Only what was written is parsed as a key.
SOURCE: crates/mvcc/src/record.rs:30-45 -/
theorem backendKey_of_parseKey {bytes : Bytes} {r : Revision} {tombstone : Bool}
    (h : parseKey bytes = some (r, tombstone)) : bytes = backendKey r tombstone := by
  cases bytes with
  | nil => cases h
  | cons lead rest =>
    rw [parseKey] at h
    split at h
    · cases h
    · rename_i hlead
      obtain rfl := not_not.mp hlead
      split at h
      · obtain ⟨revision, hdecode, heq⟩ := Option.map_eq_some_iff.mp h
        cases heq
        rw [backendKey, ← Revision.encode_of_decode hdecode, if_neg Bool.false_ne_true,
          List.append_nil]
      · split at h
        · rename_i hmark
          obtain ⟨hlength, hmark⟩ := hmark
          obtain ⟨revision, hdecode, heq⟩ := Option.map_eq_some_iff.mp h
          cases heq
          have hlast : rest.drop Revision.encodedLen = [tombstoneMark] := by
            obtain ⟨hlt, heq⟩ := List.getElem?_eq_some_iff.mp hmark
            rw [List.drop_eq_getElem_cons hlt, heq, List.drop_of_length_le (by omega)]
          rw [backendKey, ← Revision.encode_of_decode hdecode, if_pos rfl, ← hlast,
            List.take_append_drop]
        · cases h

/-- The mark of a deletion, as it ends a key. -/
theorem compare_mark (t t' : Bool) :
    compare (if t then [tombstoneMark] else [] : Bytes) (if t' then [tombstoneMark] else []) =
      compare t t' := by
  cases t <;> cases t' <;> rfl

/-- Keys are ordered as their revisions are, and a deletion stands after a put.
SOURCE: crates/mvcc/src/record.rs:10-19, crates/mvcc/src/revision.rs:90-97 -/
theorem compare_backendKey (r r' : Revision) (t t' : Bool) :
    compare (backendKey r t) (backendKey r' t') =
      (compare r.main r'.main).then ((compare r.sub r'.sub).then (compare t t')) := by
  rw [backendKey, backendKey, compare_cons_self, Revision.compare_encode, compare_mark]

/-- The marker stands before every key. -/
theorem compare_appliedKey (r : Revision) (t : Bool) : compare appliedKey (backendKey r t) = .lt := by
  show List.compareLex compare (0 :: [1]) (revisionPrefix :: _) = .lt
  rw [List.compareLex_cons_cons]
  rfl

/-- The marker's key is no revision's. -/
theorem appliedKey_ne_backendKey (rev : Revision) (tombstone : Bool) :
    appliedKey ≠ backendKey rev tombstone :=
  ne_of_cmp_lt (compare_appliedKey rev tombstone)

/-! ## Bounds of the scan -/

/-- Where the scan ends: before the byte past `t`. -/
def scanStop : Bound := .excluded [117]

theorem allRecords_eq : allRecords = ⟨.included [116], scanStop⟩ := by decide

theorem contains_backendKey (r : Revision) (t : Bool) :
    allRecords.contains (backendKey r t) = true :=
  (contains_withPrefix [revisionPrefix] _).mpr ⟨_, rfl⟩

/-! ## Values -/

/-- SOURCE: crates/mvcc/src/record.rs:48-67 -/
theorem decodeRecord_encodeRecord {key : Bytes} (value : Bytes) (h : key.length ≤ u32Max) :
    decodeRecord (encodeRecord key value) = some (key, value) := by
  have hlt : key.length < 256 ^ 4 := Nat.lt_of_le_of_lt h (by decide)
  have htake : (toBE 4 key.length ++ (key ++ value)).take 4 = toBE 4 key.length := by
    rw [List.take_left' (by simp)]
  have hdrop : (toBE 4 key.length ++ (key ++ value)).drop 4 = key ++ value := by
    rw [List.drop_left' (by simp)]
  simp only [decodeRecord, encodeRecord, if_pos h, splitAtChecked]
  rw [if_pos (by simp), htake, hdrop]
  dsimp only
  rw [ofBE_toBE_of_lt hlt, if_pos (by simp), List.take_left, List.drop_left]

/-- Only what was written is decoded.
SOURCE: crates/mvcc/src/record.rs:62-67 -/
theorem encodeRecord_of_decodeRecord {bytes key value : Bytes}
    (h : decodeRecord bytes = some (key, value)) : bytes = encodeRecord key value := by
  unfold decodeRecord splitAtChecked at h
  by_cases hlen : 4 ≤ bytes.length
  · rw [if_pos hlen] at h
    dsimp only at h
    split at h
    · rename_i hkey
      simp only [Option.some.injEq, Prod.mk.injEq] at h
      obtain ⟨rfl, rfl⟩ := h
      have htake : (bytes.take 4).length = 4 := by rw [List.length_take]; omega
      have hbound : ofBE (bytes.take 4) < 256 ^ 4 := by
        have := ofBE_lt (bytes.take 4)
        rwa [htake] at this
      have hwritten : toBE 4 (ofBE (bytes.take 4)) = bytes.take 4 := by
        have := toBE_ofBE (bytes.take 4)
        rwa [htake] at this
      have hlength : ((bytes.drop 4).take (ofBE (bytes.take 4))).length = ofBE (bytes.take 4) := by
        rw [List.length_take]; omega
      have hmax : ofBE (bytes.take 4) ≤ u32Max := by
        show ofBE (bytes.take 4) ≤ 256 ^ 4 - 1
        omega
      rw [encodeRecord, hlength, if_pos hmax, hwritten, List.take_append_drop,
        List.take_append_drop]
    · cases h
  · rw [if_neg hlen] at h
    cases h

theorem decodePosition_encodePosition (position : ℕ) :
    decodePosition (encodePosition position) = some (position % 2 ^ 64) := by
  simp [decodePosition, encodePosition, ofBE_toBE]

/-! ## The format as a whole -/

/-- The format is an order-preserving bijection. A key is parsed exactly as the revision and
the flag it was built from, keys are in byte order as `(main, sub, tombstone)` is in
lexicographic order, the scan of all records covers every key and not the marker; and a
record is decoded exactly as the key and value it was built from.
SOURCE: crates/mvcc/src/record.rs:10-67, crates/mvcc/src/revision.rs:90-113,
crates/mvcc/src/meta.rs:1-8 -/
theorem backend_format :
    (∀ (r : Revision) (t : Bool), parseKey (backendKey r t) = some (r, t)) ∧
    (∀ (bytes : Bytes) (r : Revision) (t : Bool), parseKey bytes = some (r, t) →
      bytes = backendKey r t ∧ r.main ≤ i64Max ∧ r.sub ≤ i64Max) ∧
    (∀ (r r' : Revision) (t t' : Bool), compare (backendKey r t) (backendKey r' t') = .lt ↔
      r.main < r'.main ∨ r.main = r'.main ∧
        (r.sub < r'.sub ∨ r.sub = r'.sub ∧ t = false ∧ t' = true)) ∧
    (∀ (r : Revision) (t : Bool), allRecords.contains (backendKey r t) = true) ∧
    allRecords.contains appliedKey = false ∧
    (∀ key value : Bytes, key.length ≤ u32Max →
      decodeRecord (encodeRecord key value) = some (key, value)) ∧
    ∀ bytes key value : Bytes, decodeRecord bytes = some (key, value) →
      bytes = encodeRecord key value := by
  refine ⟨parseKey_backendKey, fun bytes r t h => ?_, fun r r' t t' => ?_, contains_backendKey,
    by decide, fun key value h => decodeRecord_encodeRecord value h,
    fun bytes key value h => encodeRecord_of_decodeRecord h⟩
  · exact ⟨backendKey_of_parseKey h, r.main_le, r.sub_le⟩
  · have hflag : compare t t' = .lt ↔ t = false ∧ t' = true := by cases t <;> cases t' <;> decide
    rw [compare_backendKey, Ordering.then_eq_lt, Ordering.then_eq_lt, Nat.compare_eq_lt,
      Nat.compare_eq_eq, Nat.compare_eq_lt, Nat.compare_eq_eq, hflag]

end Hadar.Mvcc
