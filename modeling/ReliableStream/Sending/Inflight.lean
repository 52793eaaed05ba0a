import ReliableStream.Config
import ReliableStream.Queue
import ReliableStream.Sending.Packet
import ReliableStream.Sequence

/-!
# Packets in flight

The packets that were sent and are not acknowledged, ordered by position, and what the peer said
about its side.

Sending is bounded by the smaller of our send window and the window that the peer advertised. A
packet that only the peer's window has no room for is let through when nothing is in flight: its
acknowledgment is then the peer's next word on its window.

* `acknowledge` and `noteWindow` take in an acknowledgment.
* `resendOverdue` resends what is overdue, or finds a packet that was resent too often.
-/

namespace ReliableStream

structure Inflight where
  entries : Queue SentPacket := .empty
  /-- The payload bytes in flight. -/
  bytes : Nat := 0
  /-- The position that the peer expects next, as far as we know. -/
  acked : Nat := firstPosition
  /-- The position after the last that was sent. -/
  sent : Nat := firstPosition
  /-- The window that the peer advertised last. -/
  peerWindow : Nat := 65535
  deriving DecidableEq

/-- What an acknowledgment was. -/
inductive AckEffect where
  /-- It acknowledged something new: so many packets with so many payload bytes are done. -/
  | advanced (retired freed : Nat)
  /-- It acknowledged nothing new. -/
  | stale
  /-- It acknowledged something that was not sent. -/
  | beyond
  deriving DecidableEq

/-- What the overdue packets came to. -/
inductive Overdue where
  /-- These are resent. -/
  | resend (wires : List Bytes)
  /-- The packet at `seqno` is overdue and was resent as often as is allowed. -/
  | exhausted (seqno resends : Nat)
  deriving DecidableEq

namespace SentPacket

/-- The payload bytes of the packets, added up. -/
def payloadTotal (l : List SentPacket) : Nat := l.foldl (fun n e => n + e.payloadLen) 0

/-- The entries with `e` at its place in the order. -/
def insertInto (e : SentPacket) : List SentPacket → List SentPacket
  | [] => [e]
  | f :: rest => if e.start < f.start then e :: f :: rest else f :: insertInto e rest

/-- The entries with `e` at its place in the order; `none` if its position is taken. Most often its
place is at the end. -/
def place? (e : SentPacket) (entries : Queue SentPacket) : Option (Queue SentPacket) :=
  if entries.last?.all (·.start < e.start) then some (entries.push e)
  else if entries.toList.any (·.start == e.start) then none
  else some (.ofList (e.insertInto entries.toList))

/-- The packet was sent longer ago than its timeout. -/
def isOverdue (e : SentPacket) (now : Int) (config : Config) : Bool :=
  config.timeoutAfter e.resends < Instant.elapsed e.sentAt now

/-- The packet after one more resend. -/
def resent (e : SentPacket) (now : Int) : SentPacket :=
  { e with sentAt := now, resends := e.resends + 1 }

/-- The packet may not be resent again. -/
def isExhausted (e : SentPacket) (config : Config) : Bool := config.maxResends ≤ e.resends

/-- Resends the overdue entries in order, up to the first that must not be resent again. -/
def resendOverdue (now : Int) (config : Config) (entries : List SentPacket) :
    Overdue × List SentPacket :=
  let (ahead, rest) := entries.span fun e => !(e.isOverdue now config && e.isExhausted config)
  let restamped := ahead.map fun e => if e.isOverdue now config then e.resent now else e
  match rest with
  | [] => (.resend ((ahead.filter (·.isOverdue now config)).map (·.wire)), restamped)
  | e :: _ => (.exhausted e.start e.resends, restamped ++ rest)

/-- The packet with its retry count back at the start, if the acknowledgment shows that the peer is
there and that its window holds the packet back: it has a part of the packet, or no room for the
rest of it. -/
def excused (e : SentPacket) (ackno window : Nat) : SentPacket :=
  let unacked := e.segment.wrappedStop - max ackno e.start
  if e.start < ackno ∨ window < unacked then { e with resends := 0 } else e

end SentPacket

namespace Inflight

/-- A packet with `payloadLen` payload bytes may be sent. -/
def allows (f : Inflight) (payloadLen sendWindow : Nat) : Bool :=
  payloadLen == 0 || f.bytes + payloadLen ≤ min sendWindow f.peerWindow ||
    (f.entries.isEmpty && payloadLen ≤ sendWindow)

/-- Records that `p` was sent. False, and nothing is recorded, if its position is in flight. -/
def insert (f : Inflight) (p : Packet) (now : Int) : Bool × Inflight :=
  match SentPacket.place? { p with sentAt := now } f.entries with
  | none => (false, f)
  | some entries => (true, { f with
      entries
      bytes := f.bytes + p.payloadLen
      sent := max f.sent p.segment.wrappedStop })

/-- Retires the packets that end at `ackno` or before. -/
def acknowledge (f : Inflight) (ackno : Nat) : AckEffect × Inflight :=
  if f.sent < ackno then (.beyond, f)
  else if ackno ≤ f.acked then (.stale, f)
  else
    let retired := f.entries.takeWhile (·.stop ≤ ackno)
    let freed := SentPacket.payloadTotal retired
    (.advanced retired.length freed, { f with
      entries := f.entries.dropWhile (·.stop ≤ ackno)
      bytes := f.bytes - freed
      acked := ackno })

/-- Takes note of the window that came with the acknowledgment `ackno`, unless that is outdated or
acknowledges what was not sent, and excuses the oldest packet if that window holds it back. True if
the window grew. To be called after `acknowledge`. -/
def noteWindow (f : Inflight) (ackno : Nat) (window : UInt16) : Bool × Inflight :=
  if ackno < f.acked ∨ f.sent < ackno then (false, f)
  else (f.peerWindow < window.toNat, { f with
    peerWindow := window.toNat
    entries := f.entries.modifyHead (·.excused ackno window.toNat) })

/-- Resends what is overdue. -/
def resendOverdue (f : Inflight) (now : Int) (config : Config) : Overdue × Inflight :=
  let (overdue, entries) := SentPacket.resendOverdue now config f.entries.toList
  (overdue, { f with entries := .ofList entries })

/-- The packet in flight at the position `seqno`. -/
def get? (f : Inflight) (seqno : Nat) : Option SentPacket :=
  f.entries.toList.find? (·.start == seqno)

/-- The payload bytes of the packets in flight, added up. -/
def payloadTotal (f : Inflight) : Nat := SentPacket.payloadTotal f.entries.toList

/-- Drops the packets in flight. -/
def clear (f : Inflight) : Inflight := { f with entries := .empty, bytes := 0 }

end Inflight

end ReliableStream
