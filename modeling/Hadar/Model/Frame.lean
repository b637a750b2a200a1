import Hadar.Model.Revision

/-!
# Frames and log records

The log's errors (crates/wal/src/error.rs), its frames (crates/wal/src/frame.rs) and the
records inside them (crates/wal/src/record.rs). The checksum comes from the crate
`crc32fast`; the format only relies on it being a function of the bytes hashed, so it is a
parameter here.
-/

set_option autoImplicit false

namespace Hadar.Wal

open Hadar.Lib Hadar.Storage Hadar.Mvcc

/-- Failure returned by a log operation.
SOURCE: crates/wal/src/error.rs:6-19 -/
inductive Error where
  | shutdown
  | apply (detail : String)
  | io (context : String)
  | corrupt (detail : String)
  | truncated
  deriving DecidableEq, Repr

namespace Error

def isCorrupt : Error → Bool
  | corrupt _ => true
  | _ => false

def isTruncated : Error → Bool
  | truncated => true
  | _ => false

end Error

/-- The checksum of `crc32fast`, over all the bytes a hasher was fed. -/
class Crc32 where
  hash : Bytes → UInt32

variable [Crc32]

/-! ## Frames -/

/-- Bytes of framing that precede every payload. -/
def headerLen : ℕ := 8

/-- Largest payload a single frame may carry. -/
def maxPayloadLen : ℕ := 64 * 1024 * 1024

/-- `checksum(..).to_be_bytes()`: the hash covers the length as well as the payload.
SOURCE: crates/wal/src/frame.rs:67-72 -/
def checksum (len payload : Bytes) : Bytes := toBE 4 (Crc32.hash (len ++ payload)).toNat

/-- Appends `payload` to `out` as a framed record.
SOURCE: crates/wal/src/frame.rs:17-31 -/
def encodeFrame (payload out : Bytes) : Except Error Bytes :=
  if payload.length > u32Max then .error (.corrupt "payload lenght exceeds the frame format")
  else if payload.length > maxPayloadLen then
    .error (.corrupt "payload exceeds the maximum frame lenght")
  else
    let len := toBE 4 payload.length
    .ok (out ++ checksum len payload ++ len ++ payload)

/-- Reads the frame at the start of `bytes`, returning its payload and width.
SOURCE: crates/wal/src/frame.rs:41-65 -/
def decodeFrame (bytes : Bytes) : Except Error (Bytes × ℕ) :=
  match splitAtChecked bytes headerLen with
  | none => .error .truncated
  | some (header, rest) =>
    let expected := header.take 4
    let len := header.drop 4
    if len.length ≠ 4 then .error (.corrupt "frame header is malformed")
    else
      let payloadLen := ofBE len
      if payloadLen > maxPayloadLen then
        .error (.corrupt "frame claims an implausible length")
      else
        match splitAtChecked rest payloadLen with
        | none => .error .truncated
        | some (payload, _) =>
          if checksum len payload ≠ expected then
            .error (.corrupt "frame checksum does not match its contents")
          else .ok (payload, headerLen + payloadLen)

/-! ## Records -/

/-- Version of the record encoding, carried by every record. -/
def recordVersion : UInt8 := 1

def putKind : UInt8 := 1

def deleteKind : UInt8 := 2

def kindOf : Mutation → UInt8
  | .put _ _ => putKind
  | .delete _ => deleteKind

/-- The payload of a mutation's record. -/
def payloadOf (mutation : Mutation) : Bytes :=
  recordVersion :: kindOf mutation :: (toBE 4 mutation.key.length ++ (mutation.key ++ mutation.value))

/-- Appends `mutation` to `out` as a framed log record.
SOURCE: crates/wal/src/record.rs:16-35 -/
def encode (mutation : Mutation) (out : Bytes) : Except Error Bytes :=
  if mutation.key.length > u32Max then
    .error (.corrupt "key length exceeds the record format")
  else encodeFrame (payloadOf mutation) out

/-- What `decode` makes of a payload that framing has accepted.
SOURCE: crates/wal/src/record.rs:37-71 -/
def decodePayload (payload : Bytes) : Except Error Mutation :=
  match payload with
  | [] => .error (.corrupt "record is empty")
  | version :: payload =>
    if version ≠ recordVersion then
      .error (.corrupt "record was written by an unknown version")
    else
      match payload with
      | [] => .error (.corrupt "record has no kind")
      | kind :: payload =>
        match splitAtChecked payload 4 with
        | none => .error (.corrupt "record has no key length")
        | some (keyLen, payload) =>
          if keyLen.length ≠ 4 then .error (.corrupt "record key length is malformed")
          else
            match splitAtChecked payload (ofBE keyLen) with
            | none => .error (.corrupt "record key runs past its end")
            | some (key, value) =>
              if kind = putKind then .ok (.put key value)
              else if kind = deleteKind then
                if value.isEmpty then .ok (.delete key)
                else .error (.corrupt "deletion record carries a value")
              else .error (.corrupt "record names an unknown kind")

/-- Reads the record at the start of `bytes`, returning its mutation and width. -/
def decode (bytes : Bytes) : Except Error (Mutation × ℕ) :=
  match decodeFrame bytes with
  | .error e => .error e
  | .ok (payload, width) =>
    match decodePayload payload with
    | .error e => .error e
    | .ok mutation => .ok (mutation, width)

end Hadar.Wal
