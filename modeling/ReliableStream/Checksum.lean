import ReliableStream.Bytes

/-!
# The Internet checksum

The sum of the big-endian 16-bit words of a byte string, an odd last byte padded with zero on the
right, with the carries folded back into the low 16 bits, complemented.
-/

namespace ReliableStream

/-- `sum` plus the 16-bit words of the bytes; an odd last byte is the high half of its word. -/
def addWords (sum : Nat) : Bytes → Nat
  | [] => sum
  | [last] => sum + last.toNat * 256
  | high :: low :: rest => addWords (sum + (high.toNat * 256 + low.toNat)) rest

/-- Adds what stands above the low 16 bits of `n` to them, until nothing does. -/
def foldCarries (n : Nat) : Nat :=
  if n < 65536 then n else foldCarries (n % 65536 + n / 65536)

/-- The checksum of `data`. -/
def checksum (data : Bytes) : UInt16 := ~~~ UInt16.ofNat (foldCarries (addWords 0 data))

end ReliableStream
