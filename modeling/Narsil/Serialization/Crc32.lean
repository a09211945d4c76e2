import Narsil.Replication.Entry

/-!
# CRC-32

The table-driven checksum of `serialization/crc32.ts`. The native routine the
package prefers for longer inputs computes the same function.
-/
namespace Narsil.Serialization

def ieeePolynomial : UInt32 := 0xedb88320
def allBits : UInt32 := 0xffffffff

def crcTableEntry (i : UInt32) : UInt32 :=
  (List.range 8).foldl
    (fun crc _ => if crc &&& 1 = 1 then (crc >>> 1) ^^^ ieeePolynomial else crc >>> 1) i

def crc32Init : UInt32 := allBits

def crc32Step (crc : UInt32) (byte : UInt8) : UInt32 :=
  (crc >>> 8) ^^^ crcTableEntry ((crc ^^^ byte.toUInt32) &&& 0xff)

def crc32Update (state : UInt32) (data : Bytes) : UInt32 :=
  data.foldl crc32Step state

def crc32Final (state : UInt32) : Nat := (state ^^^ allBits).toNat

def crc32 (data : Bytes) : Nat := crc32Final (crc32Update crc32Init data)

theorem crc32_lt (data : Bytes) : crc32 data < 2 ^ 32 := UInt32.toNat_lt _

/-- "123456789" has the check value of the IEEE polynomial. -/
example : crc32 [49, 50, 51, 52, 53, 54, 55, 56, 57] = 0xcbf43926 := by decide

end Narsil.Serialization
