/-
# `zlib.crc32`

The CRC-32 of ISO 3309 in its reflected form: generator `0xEDB88320`, register and
output both inverted.
-/
import Mathlib.Logic.Function.Iterate
import LmcacheAerospike.Records

/-- One bit of the shift register. -/
def crcBit (c : ℕ) : ℕ :=
  if c % 2 = 1 then (c / 2) ^^^ 0xEDB88320 else c / 2

/-- One byte into the register. -/
def crcByte (c : ℕ) (byte : UInt8) : ℕ :=
  crcBit^[8] (c ^^^ byte.toNat)

/-- `zlib.crc32(payload) & 0xFFFFFFFF`. -/
def crc32 (payload : Bytes) : ℕ :=
  (payload.foldl crcByte 0xFFFFFFFF ^^^ 0xFFFFFFFF) &&& 0xFFFFFFFF

/-- The check value of the algorithm: the CRC of `b"123456789"`. -/
example : crc32 [49, 50, 51, 52, 53, 54, 55, 56, 57] = 0xCBF43926 := by decide +kernel
