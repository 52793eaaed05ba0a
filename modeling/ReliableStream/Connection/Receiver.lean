import ReliableStream.Connection.Basic

/-!
# The receiving end of a connection

* `receive` takes in a datagram. A valid segment with payload or FIN is always answered by a pure
  acknowledgment, a pure acknowledgment or an invalid segment never.
* `output` offers the application again what it left before, and tells the peer if that made room.
-/

namespace ReliableStream.Connection

variable {σ : Type} [Endpoint σ]

/-- Takes in an acknowledgment and the window that came with it. -/
def handleAck (c : Connection σ) (ackno : Nat) (window : UInt16) (now : Int) :
    Except Error Unit × Connection σ :=
  let (outcome, inflight) := c.inflight.acknowledge ackno
  let (opened, inflight) := inflight.noteWindow ackno window
  let c := { c with inflight }
  let c := if opened then c.notifySender else c
  match outcome with
  | .stale | .beyond => (.ok (), c)
  | .advanced .. =>
    let c := c.notifySender
    if c.outbound.fin.any (· < c.inflight.acked) then c.advance .finAcked now else (.ok (), c)

/-- Offers the application what it can get next. -/
def deliver (c : Connection σ) : Delivery × Connection σ :=
  if c.destroyed then ({}, c)
  else
    let (delivery, received, endpoint) := c.received.deliver Endpoint.deliver c.endpoint
    let endpoint := if delivery.eof then Endpoint.finish endpoint else endpoint
    (delivery, { c with received, endpoint }.readvertise)

/-- Sends a pure acknowledgment. Nothing is done about a network that does not take it. -/
def sendBareAck (c : Connection σ) : Connection σ :=
  if c.destroyed then c
  else
    let outbound := c.outbound.setWindow c.window
    let ack := outbound.ack (UInt32.ofNat c.ackno)
    { c with outbound, endpoint := (Endpoint.send c.endpoint ack.encode).2 }

/-- Delivers, acknowledges if something was delivered or if `always` says so, and goes on to the
next phase if the peer's stream has ended. -/
def passOn (c : Connection σ) (always : Bool) (now : Int) : Except Error Unit × Connection σ :=
  let (delivery, c) := c.deliver
  let c := if always || delivery.progressed then c.sendBareAck else c
  if delivery.eof then c.advance .peerFin now else (.ok (), c)

/-- Takes in the payload and the FIN of a segment. -/
def handleData (c : Connection σ) (s : Segment) (now : Int) :
    Except Error Unit × Connection σ :=
  { c with received := (c.received.insert s).2 }.readvertise.passOn true now

/-- Takes in a datagram from the network. -/
def receive (c : Connection σ) (datagram : Bytes) (now : Int) :
    Except Error Unit × Connection σ :=
  if c.destroyed then (.error (.closed c.id), c)
  else
    match Segment.decode datagram with
    | .error e => (.error e, c)
    | .ok s =>
      let (result, c) :=
        if s.flags.contains .ack then c.handleAck s.ackno.toNat s.window now else (.ok (), c)
      match result with
      | .error e => (.error e, c)
      | .ok () => if s.isBareAck || c.destroyed then (.ok (), c) else c.handleData s now

/-- Offers the application again what waits for it. -/
def output (c : Connection σ) (now : Int) : Except Error Unit × Connection σ :=
  if c.destroyed then (.error (.closed c.id), c) else c.passOn false now

end ReliableStream.Connection
