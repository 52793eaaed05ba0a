import ReliableStream.Queue
import ReliableStream.Segment.Numbering
import ReliableStream.Sending.Inflight

/-!
# Packets that wait to be sent

Data and FIN get their positions when they are queued and leave the queue in that order.
-/

namespace ReliableStream

structure Outbound where
  numbering : Numbering
  queue : Queue Packet := .empty

namespace Outbound

/-- The queue of a stream that has sent nothing. -/
def start (window : UInt16) (maxPayload : Nat) : Outbound :=
  { numbering := .start window maxPayload }

/-- Queues `s`, which `numbering` follows. -/
def push (o : Outbound) (s : Segment) (numbering : Numbering) : Outbound :=
  { numbering, queue := o.queue.push (.ofSegment s) }

/-- Queues a data segment; the result is its position. -/
def queueData (o : Outbound) (payload : Bytes) (ackno : UInt32) : Except Error (Nat × Outbound) :=
  match o.numbering.data payload ackno with
  | .ok (s, numbering) => .ok (s.start, o.push s numbering)
  | .error e => .error e

/-- Queues the FIN; the result is its position. -/
def queueFin (o : Outbound) (ackno : UInt32) : Except Error (Nat × Outbound) :=
  match o.numbering.finish ackno with
  | .ok (s, numbering) => .ok (s.start, o.push s numbering)
  | .error e => .error e

/-- A pure acknowledgment, which does not wait. -/
def ack (o : Outbound) (ackno : UInt32) : Segment := o.numbering.ack ackno

def setWindow (o : Outbound) (window : UInt16) : Outbound :=
  { o with numbering := o.numbering.setWindow window }

/-- The position that the next data or FIN gets. -/
def next (o : Outbound) : Nat := o.numbering.next

/-- The position of the FIN, once it is queued. -/
def fin (o : Outbound) : Option Nat := o.numbering.fin

/-- Takes the oldest packet out of the queue, if it may be sent. -/
def pop? (o : Outbound) (f : Inflight) (sendWindow : Nat) : Option (Packet × Outbound) :=
  (o.queue.popIf? fun p => f.allows p.payloadLen sendWindow).map fun (p, queue) =>
    (p, { o with queue })

/-- Drops the packets that wait. -/
def clear (o : Outbound) : Outbound := { o with queue := .empty }

theorem queue_of_pop? {o r : Outbound} {f : Inflight} {sendWindow : Nat} {p : Packet}
    (h : o.pop? f sendWindow = some (p, r)) : o.queue.toList = p :: r.queue.toList := by
  obtain ⟨⟨q, queue⟩, hq, heq⟩ := Option.map_eq_some_iff.mp h
  obtain ⟨rfl, rfl⟩ : q = p ∧ { o with queue } = r := by simpa using heq
  exact (Queue.popIf?_eq_some hq).2

theorem next_of_queueData {o p : Outbound} {payload : Bytes} {ackno : UInt32} {seqno : Nat}
    (h : o.queueData payload ackno = .ok (seqno, p)) :
    p.next = o.next + payload.length ∧ p.next ≤ lastPosition := by
  unfold queueData at h
  split at h
  next s m hd =>
    obtain ⟨rfl, rfl⟩ : s.start = seqno ∧ o.push s m = p := by simpa using h
    exact Numbering.next_of_data hd
  next => contradiction

end Outbound

end ReliableStream
