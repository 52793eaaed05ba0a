import ReliableStream.Error

/-!
# Teardown

A connection starts `established` and is `closed` once both sides have sent a FIN and had it
acknowledged:

* we finish first: `established`, `finSent`, `finAcked`, `closed`;
* the peer finishes first: `established`, `closeWait`, `lastAck`, `closed`;
* both at once: `established`, `finSent`, `closing`, `closed`.
-/

namespace ReliableStream

inductive Phase where
  /-- Both directions are open. -/
  | established
  /-- Our FIN is queued; the peer may still send. -/
  | finSent
  /-- Our FIN is acknowledged; the peer may still send. -/
  | finAcked
  /-- The peer has finished; we may still send. -/
  | closeWait
  /-- The peer finished, then we queued our FIN. -/
  | lastAck
  /-- The peer finished while our FIN was under way. -/
  | closing
  | closed
  deriving DecidableEq

/-- What moves a connection from one phase to another. -/
inductive TeardownEvent where
  /-- Our input ended and our FIN is queued. -/
  | localFin
  /-- The peer's FIN is delivered. -/
  | peerFin
  /-- The peer acknowledged our FIN. -/
  | finAcked
  deriving DecidableEq

def TeardownEvent.describe : TeardownEvent → String
  | localFin => "local FIN"
  | peerFin => "peer FIN"
  | finAcked => "FIN acked"

namespace Phase

def describe : Phase → String
  | established => "Established"
  | finSent => "FinSent"
  | finAcked => "FinAcked"
  | closeWait => "CloseWait"
  | lastAck => "LastAck"
  | closing => "Closing"
  | closed => "Closed"

/-- The phase that follows `event`, where the event can happen. -/
def on? : Phase → TeardownEvent → Option Phase
  | established, .localFin => some finSent
  | established, .peerFin => some closeWait
  | finSent, .finAcked => some finAcked
  | finSent, .peerFin => some closing
  | finAcked, .peerFin => some closed
  | closeWait, .localFin => some lastAck
  | lastAck, .finAcked => some closed
  | closing, .finAcked => some closed
  | _, _ => none

/-- As `on?`, with the error that an impossible event is. -/
def on (p : Phase) (event : TeardownEvent) : Except Error Phase :=
  match p.on? event with
  | some next => .ok next
  | none => .error (.impossibleEvent p.describe event.describe)

/-- Our FIN is queued, or was. -/
def isFinSent : Phase → Bool
  | established | closeWait => false
  | _ => true

/-- Our FIN is queued and not acknowledged. -/
def awaitsFinAck : Phase → Bool
  | finSent | lastAck | closing => true
  | _ => false

end Phase

end ReliableStream
