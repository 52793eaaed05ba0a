import ReliableStream.Endpoint.Basic
import ReliableStream.Receiving.Reassembly
import ReliableStream.Sending.Outbound
import ReliableStream.Teardown

/-!
# Connections

A connection carries one stream to a peer and one from it, over an endpoint whose state is part of
the connection's. Its operations are in the modules beside this one: `Sender`, `Receiver`, `Timer`.

The acknowledgment and the window that outgoing segments carry are the connection's fields `ackno`
and `window`. They follow the receiving end each time it changes (`readvertise`).
-/

namespace ReliableStream

/-- The task that sends what is queued. -/
inductive SenderTask where
  /-- There is none. -/
  | stopped
  /-- It is to run as soon as tasks do. -/
  | ready
  /-- It waits for room in the window. -/
  | waiting
  deriving DecidableEq

structure Connection (σ : Type) where
  id : Nat
  config : Config
  valid : config.Valid
  endpoint : σ
  outbound : Outbound := .start config.advertisedWindow config.maxPayload
  inflight : Inflight := {}
  received : Reassembly := { capacity := config.receiveWindow }
  phase : Phase := .established
  /-- When both directions were closed. -/
  closedAt : Option Int := none
  /-- The acknowledgment that the next segment carries. -/
  ackno : Nat := firstPosition
  /-- The window that the next segment advertises. -/
  window : UInt16 := config.advertisedWindow
  sender : SenderTask := .stopped
  /-- The window opened while no sender waited for it. -/
  permit : Bool := false
  destroyed : Bool := false

namespace Connection

variable {σ : Type}

/-- A task is there to send what is queued. -/
def senderRunning (c : Connection σ) : Bool := c.sender != .stopped

/-- Lets a waiting sender run, or keeps the notice for the next one that waits. -/
def notifySender (c : Connection σ) : Connection σ :=
  match c.sender with
  | .waiting => { c with sender := .ready }
  | _ => { c with permit := true }

/-- Outgoing segments carry the acknowledgment and the window of the receiving end from now on. -/
def readvertise (c : Connection σ) : Connection σ :=
  { c with ackno := c.received.expected, window := c.received.window }

/-- Stops the sender, drops all that waits and lets go of the endpoint. Once is enough. -/
def destroy [Endpoint σ] (c : Connection σ) : Connection σ :=
  if c.destroyed then c
  else { c with
    destroyed := true
    sender := .stopped
    outbound := c.outbound.clear
    inflight := c.inflight.clear
    received := c.received.clear
    phase := .closed
    endpoint := Endpoint.release c.endpoint }

/-- Gives the connection up and says why. -/
def abort [Endpoint σ] (c : Connection σ) (cause : Error) : Connection σ :=
  if c.destroyed then c else { c with endpoint := Endpoint.reset c.endpoint cause }.destroy

/-- Goes on to the phase that follows `event`. An acknowledgment of our FIN counts only once. A
closed connection that does not linger is destroyed. -/
def advance [Endpoint σ] (c : Connection σ) (event : TeardownEvent) (now : Int) :
    Except Error Unit × Connection σ :=
  if event = .finAcked ∧ !c.phase.awaitsFinAck then (.ok (), c)
  else
    match c.phase.on event with
    | .error e => (.error e, c)
    | .ok .closed =>
      let c := { c with phase := .closed, closedAt := some now }
      (.ok (), if c.config.linger = 0 then c.destroy else c)
    | .ok phase => (.ok (), { c with phase })

/-- What somebody who looks at a connection sees. -/
structure Stats where
  phase : Phase
  next : Nat
  expected : Nat
  acked : Nat
  window : UInt16
  peerWindow : Nat
  bytesInflight : Nat
  inflightPayload : Nat
  inflightPackets : Nat
  outboundPackets : Nat
  buffered : Nat
  deriving DecidableEq

def stats (c : Connection σ) : Stats where
  phase := c.phase
  next := c.outbound.next
  expected := c.received.expected
  acked := c.inflight.acked
  window := c.received.window
  peerWindow := c.inflight.peerWindow
  bytesInflight := c.inflight.bytes
  inflightPayload := c.inflight.payloadTotal
  inflightPackets := c.inflight.entries.size
  outboundPackets := c.outbound.queue.size
  buffered := c.received.buffered

def describe (c : Connection σ) : String :=
  "Connection \x7b id: " ++ toString c.id ++ ", state: " ++ c.phase.describe ++ ", destroyed: " ++
    (if c.destroyed then "true" else "false") ++ " \x7d"

end Connection

end ReliableStream
