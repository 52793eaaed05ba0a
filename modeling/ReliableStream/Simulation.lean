import ReliableStream.Endpoint.InMemory
import ReliableStream.Endpoint.Scripted
import ReliableStream.Link
import ReliableStream.Session

/-!
# Simulations

A simulation is a session whose connections have endpoints in memory, with the links over which
the datagrams of one are brought to another.
-/

namespace ReliableStream

abbrev SimEndpoint := Scripted InMemory

/-- A link with the fate of all datagrams that it carries. -/
structure Lane where
  fate : Fate := {}
  link : Link := {}

structure Simulation where
  session : Session SimEndpoint := {}
  /-- The links that were used, by the ids of the connections at both ends. -/
  lanes : List ((Nat × Nat) × Lane) := []

namespace Simulation

/-- Creates a connection with a fresh endpoint. -/
def create (m : Simulation) (config : Config) : Except Error (Nat × Simulation) :=
  (m.session.create { inner := {} } config).map fun (id, session) => (id, { m with session })

/-- Changes the endpoint of the connection `id`. -/
def adjust (m : Simulation) (id : Nat) (f : SimEndpoint → SimEndpoint) : Option Simulation :=
  (m.session.updateEndpoint id fun e => ((), f e)).map fun ((), session) => { m with session }

/-- Changes the in-memory part of the endpoint of the connection `id`. -/
def adjustMemory (m : Simulation) (id : Nat) (f : InMemory → InMemory) : Option Simulation :=
  m.adjust id fun e => { e with inner := f e.inner }

/-- Takes all datagrams that the connection `id` has sent. -/
def takeSent (m : Simulation) (id : Nat) : Option (List Bytes × Simulation) :=
  let take (e : SimEndpoint) :=
    let (wire, inner) := e.inner.takeSent
    (wire, { e with inner })
  (m.session.updateEndpoint id take).map fun (wire, session) => (wire, { m with session })

/-- Brings the datagrams to the connection `id`, in order; one that is missing leaves a gap in the
results. -/
def receiveAll (m : Simulation) (id : Nat) (datagrams : List (Option Bytes)) :
    Option (List (Option (Except Error Unit)) × Simulation) :=
  let step (state : Queue (Option (Except Error Unit)) × Simulation) (datagram : Option Bytes) :=
    match datagram with
    | none => some (state.1.push none, state.2)
    | some datagram => (state.2.session.receive id datagram).map fun (result, session) =>
      (state.1.push (some result), { state.2 with session })
  (datagrams.foldlM step (.empty, m)).map fun (results, m) => (results.toList, m)

/-- Brings the datagrams that the connection `source` has sent to the connection `target`, in the
given order. Those that the order leaves out are lost. -/
def shuffle (m : Simulation) (source target : Nat) (order : List Nat) :
    Option (List (Option (Except Error Unit)) × Simulation) := do
  let (wire, m) ← m.takeSent source
  let datagrams := wire.toArray
  m.receiveAll target (order.map (datagrams[·]?))

/-- The link from `source` to `target`; at first it is a reliable one. -/
def lane (m : Simulation) (source target : Nat) : Lane :=
  (m.lanes.lookup (source, target)).getD {}

def setLane (m : Simulation) (source target : Nat) (lane : Lane) : Simulation :=
  { m with lanes := ((source, target), lane) :: m.lanes.filter (·.1 ≠ (source, target)) }

/-- Brings the datagrams that the connection `source` has sent to the connection `target` over the
link between them, or over a new one if a fate is given. The result is how many arrived. -/
def pump (m : Simulation) (source target : Nat) (fate : Option Fate) :
    Option (Nat × Simulation) := do
  let lane : Lane := match fate with
    | some fate => { fate }
    | none => m.lane source target
  let (wire, m) ← m.takeSent source
  let (arrived, link) := lane.link.carryAll lane.fate wire
  let m := m.setLane source target { lane with link }
  let (_, m) ← m.receiveAll target (arrived.map some)
  return (arrived.length, m)

end Simulation

end ReliableStream
