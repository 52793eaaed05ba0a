import ReliableStream.Segment.Wire
import ReliableStream.Time

/-!
# Packets

A packet is a segment with the bytes that carry it. The bytes are made once, so a resend repeats
them whatever has changed since.
-/

namespace ReliableStream

structure Packet where
  segment : Segment
  wire : Bytes
  /-- How often it was resent. -/
  resends : Nat := 0
  deriving DecidableEq

namespace Packet

def ofSegment (s : Segment) : Packet := { segment := s, wire := s.encode }

def start (p : Packet) : Nat := p.segment.start

/-- What the packet takes up of the send window. -/
def payloadLen (p : Packet) : Nat := p.segment.payload.length

/-- The position after the packet. -/
def stop (p : Packet) : Nat := p.segment.start + p.segment.span

end Packet

/-- A packet that was sent and is not acknowledged. -/
structure SentPacket extends Packet where
  /-- When it was sent last. -/
  sentAt : Int
  deriving DecidableEq

end ReliableStream
