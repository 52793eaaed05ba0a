import ReliableStream.Segment.Wire
import ReliableStream.Sequence

/-!
# Numbering a stream

A `Numbering` gives each piece of an outgoing stream its position: data segments take one position
for each byte, the stream's single FIN takes one, pure acknowledgments take none. Nothing is
numbered past `lastPosition`, and no data or FIN follows the FIN. A piece that is refused leaves
the numbering as it is.
-/

namespace ReliableStream

structure Numbering where
  /-- The position that the next piece gets. -/
  next : Nat := firstPosition
  /-- The position of the FIN, once there is one. -/
  fin : Option Nat := none
  /-- The receive window that new segments carry. -/
  window : UInt16
  /-- The longest payload of a data segment. -/
  maxPayload : Nat

namespace Numbering

/-- The numbering of a stream that has sent nothing. -/
def start (window : UInt16) (maxPayload : Nat) : Numbering :=
  { window, maxPayload := min maxPayload Segment.maxPayload }

def setWindow (n : Numbering) (window : UInt16) : Numbering := { n with window }

/-- The segment at the next position, with the acknowledgment `ackno`. -/
def segment (n : Numbering) (ackno : UInt32) (flags : Flags) (payload : Bytes) : Segment :=
  .sealed (UInt32.ofNat n.next) ackno flags n.window payload

/-- The data segment that carries `payload`. -/
def data (n : Numbering) (payload : Bytes) (ackno : UInt32) :
    Except Error (Segment × Numbering) :=
  if n.fin.isSome then .error .secondFin
  else if n.maxPayload < payload.length then
    .error (.payloadTooLarge payload.length n.maxPayload)
  else if lastPosition < n.next + payload.length then .error .outOfPositions
  else .ok (n.segment ackno .ack payload, { n with next := n.next + payload.length })

/-- The stream's FIN. -/
def finish (n : Numbering) (ackno : UInt32) : Except Error (Segment × Numbering) :=
  if n.fin.isSome then .error .secondFin
  else if lastPosition < n.next + 1 then .error .outOfPositions
  else .ok (n.segment ackno (.ack ||| .fin) [], { n with next := n.next + 1, fin := some n.next })

/-- A pure acknowledgment. -/
def ack (n : Numbering) (ackno : UInt32) : Segment := n.segment ackno .ack []

theorem next_of_data {n m : Numbering} {payload : Bytes} {ackno : UInt32} {s : Segment}
    (h : n.data payload ackno = .ok (s, m)) :
    m.next = n.next + payload.length ∧ m.next ≤ lastPosition := by
  unfold data at h
  grind

end Numbering

end ReliableStream
