import Hadar.Model.Frame

/-!
# The checksum in use

The log's checksum is the CRC-32 of the reversed polynomial `0xEDB88320`, as `crc32fast`
computes it. No theorem about the log needs more of it than that it is a function; it is
written out here so that a log can be looked at byte by byte.
-/

set_option autoImplicit false

namespace Hadar.Wal

open Hadar.Storage

/-- One bit of the division. -/
def crcBit (crc : ℕ) : ℕ := if crc % 2 = 1 then (crc / 2) ^^^ 0xEDB88320 else crc / 2

/-- One byte of the division. -/
def crcByte (crc : ℕ) (byte : UInt8) : ℕ := Nat.iterate crcBit 8 (crc ^^^ byte.toNat)

/-- CRC-32, which begins and ends with an inversion. -/
abbrev crc32fast : Crc32 :=
  ⟨fun bytes => UInt32.ofNat ((bytes.foldl crcByte 0xFFFFFFFF) ^^^ 0xFFFFFFFF)⟩

/-- The check value of the CRC-32 family: the checksum of `123456789`. -/
example : crc32fast.hash [49, 50, 51, 52, 53, 54, 55, 56, 57] = 0xCBF43926 := by decide +kernel

end Hadar.Wal
