/-!
# Errors

The causes for which an operation is refused, and their texts.
-/

namespace ReliableStream

inductive Error where
  | truncated (expected actual : Nat)
  | lengthBelowHeader (len : UInt16)
  | checksumMismatch (carried computed : UInt16)
  | closed (id : Nat)
  | notFound (id : Nat)
  | secondFin
  | outOfPositions
  | peerUnresponsive (id seqno resends : Nat)
  | impossibleEvent (state event : String)
  | invalidConfig (reason : String)
  | payloadTooLarge (size max : Nat)
  | noRuntime
  | io (reason : String)
  deriving DecidableEq, Inhabited

/-- Four lower-case hexadecimal digits. -/
def hex4 (w : UInt16) : String :=
  String.ofList ([4096, 256, 16, 1].map fun place => Nat.digitChar (w.toNat / place % 16))

namespace Error

def message : Error → String
  | truncated expected actual =>
    s!"segment too short: expected at least {expected} bytes, got {actual}"
  | lengthBelowHeader len => s!"segment length field {len} is smaller than the header"
  | checksumMismatch carried computed =>
    s!"checksum mismatch: segment carries 0x{hex4 carried}, computed 0x{hex4 computed}"
  | closed id => s!"connection {id} is closed"
  | notFound id => s!"connection {id} not found"
  | secondFin => "FIN already created for this connection"
  | outOfPositions => "sequence space exhausted"
  | peerUnresponsive id seqno resends =>
    s!"maximum retransmissions ({resends}) exceeded for segment {seqno} on connection {id}"
  | impossibleEvent state event => s!"invalid state transition from {state} to {event}"
  | invalidConfig reason => s!"invalid configuration: {reason}"
  | payloadTooLarge size max => s!"payload too large: {size} bytes exceeds maximum {max}"
  | noRuntime => "no tokio runtime available to run the sender task"
  | io reason => s!"io error: {reason}"

/-- The error is a datagram that is no valid segment. -/
def isBadDatagram : Error → Bool
  | truncated .. | lengthBelowHeader .. | checksumMismatch .. => true
  | _ => false

end Error

end ReliableStream
