import ReliableStream.Receiving.Fragment

/-!
# Handing fragments to a sink

A sink takes some of the bytes that it is offered. `drain` offers it the fragments that continue
what it has, each less the bytes that it has already, until one of them is missing or is not taken
whole. What is left of a fragment that was not taken whole waits under its new position.
-/

namespace ReliableStream

/-- What a delivery came to. -/
structure Delivery where
  /-- How many bytes the sink took. -/
  bytes : Nat := 0
  /-- The end of the stream was reached. -/
  eof : Bool := false
  /-- The sink left some bytes that it was offered. -/
  blocked : Bool := false
  deriving DecidableEq

/-- The sink took bytes, or learned that there are no more. -/
def Delivery.progressed (d : Delivery) : Bool := 0 < d.bytes || d.eof

/-- Where `drain` stopped. -/
structure Drained (σ : Type) where
  pending : Queue Fragment
  /-- The position of the next byte that the sink needs. -/
  position : Nat
  blocked : Bool
  sink : σ

/-- Offers the fragments from `position` on to a sink in state `s`. The sink answers how many bytes
it takes; an answer above what was offered counts as all. -/
def drain {σ : Type} (take : σ → Bytes → Nat × σ) (pending : Queue Fragment) (position : Nat)
    (s : σ) : Drained σ :=
  match _h : pending.popIf? (·.start ≤ position) with
  | none => ⟨pending, position, false, s⟩
  | some (f, rest) =>
    let offered := f.bytes.drop (position - f.start)
    if offered.isEmpty then drain take rest position s
    else
      let (answer, s) := take s offered
      let taken := min answer offered.length
      if taken < offered.length then
        let left : Fragment := ⟨position + taken, offered.drop taken⟩
        ⟨left.putIfAbsent rest, position + taken, true, s⟩
      else drain take rest (position + taken) s
termination_by pending.toList.length
decreasing_by
  all_goals
    rw [(Queue.popIf?_eq_some _h).2]
    simp

end ReliableStream
