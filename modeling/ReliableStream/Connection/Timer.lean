import ReliableStream.Connection.Basic

/-!
# The timer of a connection

Each pass of the timer resends what is overdue, gives up a connection whose peer does not answer,
and destroys a closed one that has lingered long enough. `timerPass` is the whole pass. It consists
of `timerAction`, which decides, and `sendAll`, which puts the resends on the network.
-/

namespace ReliableStream

/-- What a pass of the timer did to a connection. -/
inductive TimerOutcome where
  /-- There was nothing to do. -/
  | idle
  /-- The packets in flight were in use. -/
  | skipped
  /-- So many packets were resent. -/
  | retransmitted (count : Nat)
  /-- A packet was resent too often, and the connection was given up. -/
  | dead (seqno resends : Nat)
  /-- The connection has lingered long enough and was destroyed. -/
  | lingerExpired
  deriving DecidableEq

/-- What a pass of the timer decides. -/
inductive TimerAction where
  | done (outcome : TimerOutcome)
  /-- These are still to be sent. -/
  | resend (wires : List Bytes)

namespace Connection

variable {σ : Type} [Endpoint σ]

/-- The connection has been closed for as long as it lingers. -/
def hasLingered (c : Connection σ) (now : Int) : Bool :=
  c.closedAt.any fun closedAt => c.config.linger ≤ Instant.elapsed closedAt now

/-- Decides what is to be done at `now`. The packets in flight are left alone if they are in use. -/
def timerAction (c : Connection σ) (now : Int) (busy : Bool) : TimerAction × Connection σ :=
  if c.destroyed then (.done .idle, c)
  else if c.hasLingered now then (.done .lingerExpired, c.destroy)
  else if busy then (.done .skipped, c)
  else
    match c.inflight.resendOverdue now c.config with
    | (.resend [], inflight) => (.done .idle, { c with inflight })
    | (.resend wires, inflight) => (.resend wires, { c with inflight })
    | (.exhausted seqno resends, inflight) =>
      (.done (.dead seqno resends),
        { c with inflight }.abort (.peerUnresponsive c.id seqno resends))

/-- Puts the datagrams on the network, in order. -/
def sendAll (c : Connection σ) (wires : List Bytes) : Connection σ :=
  { c with endpoint := wires.foldl (fun e wire => (Endpoint.send e wire).2) c.endpoint }

/-- A pass of the timer. -/
def timerPass (c : Connection σ) (now : Int) (busy : Bool) : TimerOutcome × Connection σ :=
  match c.timerAction now busy with
  | (.done outcome, c) => (outcome, c)
  | (.resend wires, c) => (.retransmitted wires.length, c.sendAll wires)

end Connection

end ReliableStream
