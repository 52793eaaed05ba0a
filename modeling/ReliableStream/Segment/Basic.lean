import ReliableStream.Bytes
import ReliableStream.Segment.Flags

/-!
# Segments

A segment carries a piece of a stream, an acknowledgment of the opposite stream, or both. Its
`seqno` is the position of its first payload byte, its `ackno` the position its sender expects
next, its `window` how many bytes from there its sender has room for.
-/

namespace ReliableStream

structure Segment where
  seqno : UInt32
  ackno : UInt32
  flags : Flags
  window : UInt16
  checksum : UInt16
  payload : Bytes
  deriving DecidableEq

namespace Segment

/-- The size of the header. -/
def headerLen : Nat := 18

/-- The longest payload: a segment's whole length must fit in 16 bits. -/
def maxPayload : Nat := 65535 - headerLen

/-- The size of the encoded segment. -/
def size (s : Segment) : Nat := headerLen + s.payload.length

/-- The length field of the header, which counts the header too. -/
def lengthField (s : Segment) : UInt16 := UInt16.ofNat s.size

def hasFin (s : Segment) : Bool := s.flags.contains .fin

/-- The segment carries neither payload nor FIN. -/
def isBareAck (s : Segment) : Bool := s.payload.isEmpty && !s.hasFin

/-- The position of the first payload byte. -/
def start (s : Segment) : Nat := s.seqno.toNat

/-- How many positions the segment takes up: one for each payload byte and one for a FIN. -/
def span (s : Segment) : Nat := s.payload.length + s.hasFin.toNat

/-- The position after the segment as a 32-bit number, which wraps past the last. -/
def wrappedStop (s : Segment) : Nat := (s.start + s.span) % 0x100000000

end Segment

end ReliableStream
