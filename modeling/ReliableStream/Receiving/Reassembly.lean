import ReliableStream.Receiving.Delivery
import ReliableStream.Segment.Basic
import ReliableStream.Sequence

/-!
# Reassembly

The receiving end of a stream. Segments arrive in any order, overlap and repeat. A byte that
continues what was received is acknowledged at once and waits for the application to take it. What
comes ahead of a gap waits until the gap is filled.

The receive window covers `capacity` bytes from the next one to deliver, so an application that
takes nothing closes it. A segment is stored as far as it lies in the window and before the FIN. A
FIN that takes no room is accepted at the very end of the window.
-/

namespace ReliableStream

structure Reassembly where
  /-- Acknowledged fragments that wait for delivery, ordered by position. -/
  acked : Queue Fragment := .empty
  /-- Fragments beyond a gap, ordered by position. -/
  ahead : Queue Fragment := .empty
  /-- The position that the peer is to send next: all before it was received. -/
  expected : Nat := firstPosition
  /-- The position that the application is to get next. -/
  delivered : Nat := firstPosition
  /-- The position of the peer's FIN. -/
  fin : Option Nat := none
  /-- The application was told that the stream ended. -/
  finished : Bool := false
  /-- How many bytes the window covers. -/
  capacity : Nat
  deriving DecidableEq

/-- What an arriving segment was. -/
inductive Arrival where
  /-- It brought bytes or a FIN that were missing. -/
  | fresh
  /-- It brought nothing new. -/
  | duplicate
  /-- It lies beyond the receive window. -/
  | outOfWindow
  deriving DecidableEq

namespace Reassembly

/-- The position after the receive window. -/
def windowEnd (r : Reassembly) : Nat := min (r.delivered + r.capacity) lastPosition

/-- What is left of the receive window after the acknowledged bytes, as the header carries it. -/
def window (r : Reassembly) : UInt16 := UInt16.ofNat (min (r.windowEnd - r.expected) 65535)

/-- All fragments that wait for delivery, ordered by position. -/
def pending (r : Reassembly) : List Fragment := r.acked.toList ++ r.ahead.toList

/-- How many bytes wait for delivery. -/
def buffered (r : Reassembly) : Nat := Fragment.totalBytes r.pending

/-- Drops what waits for delivery. -/
def clear (r : Reassembly) : Reassembly := { r with acked := .empty, ahead := .empty }

/-- The segment lies beyond the window. -/
def isBeyondWindow (r : Reassembly) (s : Segment) : Bool :=
  r.windowEnd < s.start || (s.start == r.windowEnd && !s.payload.isEmpty)

/-- The position of the FIN that `s` brings, if none was known and it is of use. -/
def newFin? (r : Reassembly) (s : Segment) : Option Nat :=
  let fin := s.start + s.payload.length
  if s.hasFin ∧ r.fin.isNone ∧ fin ≤ r.windowEnd ∧ r.expected ≤ fin then some fin else none

/-- The position from which on payload is cut off: the end of the window or the FIN. -/
def limit (r : Reassembly) : Nat :=
  match r.fin with
  | some fin => min r.windowEnd fin
  | none => r.windowEnd

/-- The payload of `s` from the first unacknowledged byte up to the limit. -/
def usable? (r : Reassembly) (s : Segment) : Option Fragment :=
  let stop := min (s.start + s.payload.length) r.limit
  if r.expected < stop ∧ s.start < stop then
    let start := max s.start r.expected
    some ⟨start, (s.payload.take (stop - s.start)).drop (start - s.start)⟩
  else none

/-- Stores a fragment; `none` if there is one at the same position that is at least as long. There
is none at a position up to the expected one. -/
def store? (r : Reassembly) (f : Fragment) : Option Reassembly :=
  if f.start ≤ r.expected then some { r with ahead := r.ahead.pushFront f }
  else (f.put? r.ahead).map fun ahead => { r with ahead }

/-- Acknowledges every byte that continues the acknowledged ones. -/
def closeGap (r : Reassembly) : Reassembly :=
  match _h : r.ahead.popIf? (·.start ≤ r.expected) with
  | none => r
  | some (f, ahead) =>
    closeGap { r with acked := r.acked.push f, ahead, expected := max r.expected f.stop }
termination_by r.ahead.toList.length
decreasing_by
  rw [(Queue.popIf?_eq_some _h).2]
  simp

/-- Acknowledges every byte that continues the acknowledged ones, and the FIN after the last. -/
def advance (r : Reassembly) : Reassembly :=
  let r := r.closeGap
  { r with expected := if r.fin = some r.expected then nextPosition r.expected else r.expected }

/-- Takes in the payload and the FIN of a segment. -/
def insert (r : Reassembly) (s : Segment) : Arrival × Reassembly :=
  if r.isBeyondWindow s then (.outOfWindow, r)
  else
    let newFin := r.newFin? s
    let withFin := { r with fin := newFin.or r.fin }
    match (withFin.usable? s).bind withFin.store? with
    | some stored => (.fresh, stored.advance)
    | none => if newFin.isSome then (.fresh, withFin.advance) else (.duplicate, r)

/-- Offers the application the fragments that it can get next, those ahead of a gap after all the
acknowledged ones. True if it left some bytes. -/
def offer {σ : Type} (r : Reassembly) (take : σ → Bytes → Nat × σ) (s : σ) :
    Bool × Reassembly × σ :=
  let d := drain take r.acked r.delivered s
  let r := { r with acked := d.pending, delivered := d.position }
  if d.blocked || !d.pending.isEmpty then (d.blocked, r, d.sink)
  else
    let d := drain take r.ahead r.delivered d.sink
    (d.blocked, { r with ahead := d.pending, delivered := d.position }, d.sink)

/-- Offers the application what it can get next. When that was the last byte before the FIN, it
also learns, once, that the stream has ended. -/
def deliver {σ : Type} (r : Reassembly) (take : σ → Bytes → Nat × σ) (s : σ) :
    Delivery × Reassembly × σ :=
  let (blocked, after, s) := r.offer take s
  let bytes := after.delivered - r.delivered
  if blocked then ({ bytes, blocked := true }, after, s)
  else if !after.finished && after.fin == some after.delivered then
    ({ bytes, eof := true },
      { after with delivered := nextPosition after.delivered, finished := true }, s)
  else ({ bytes }, after, s)

end Reassembly

end ReliableStream
