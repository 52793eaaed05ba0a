import ReliableStream.Error
import ReliableStream.Segment.Basic
import ReliableStream.Time

/-!
# Configuration of a connection

* `Config.check` names the first option that is out of bounds; `check_eq_ok_iff` says that it finds
  none exactly for the configurations that are `Valid`.
* `Config.timeoutAfter` is the age at which a segment is resent, given how often it was resent
  before.
-/

namespace ReliableStream

/-- How the retransmission timeout grows with the resends of a segment. -/
inductive Backoff where
  /-- It does not grow. -/
  | fixed
  /-- It doubles with each resend, up to `cap`. -/
  | exponential (cap : Nat)
  deriving DecidableEq

structure Config where
  /-- Bytes the receiver holds for its application, counted from the next one to deliver. -/
  receiveWindow : Nat := 1440
  /-- Most payload bytes in flight. -/
  sendWindow : Nat := 1440
  /-- The age at which an unacknowledged segment is resent for the first time. -/
  timeout : Nat := Duration.ofMillis 200
  /-- How often one segment is resent before the connection is given up. -/
  maxResends : Nat := 5
  /-- Longest payload of one segment. -/
  maxPayload : Nat := 1440
  /-- The time between two sweeps. -/
  sweepInterval : Nat := Duration.ofMillis 40
  /-- How long a closed connection stays before it is destroyed. -/
  linger : Nat := Duration.ofMillis 400
  backoff : Backoff := .fixed
  deriving DecidableEq

/-- An option that is out of bounds. -/
inductive ConfigFault where
  | receiveWindow (size : Nat)
  | maxPayload (size : Nat)
  | sendWindow (size least : Nat)
  | zeroTimeout
  | zeroInterval
  | capBelowTimeout
  deriving DecidableEq

def ConfigFault.message : ConfigFault → String
  | receiveWindow size => s!"recv_window must be in 1..=65535, got {size}"
  | maxPayload size =>
    s!"max_segment_payload must be in 1..={Segment.maxPayload}, got {size}"
  | sendWindow size least =>
    s!"send_window ({size}) is smaller than max_segment_payload ({least})"
  | zeroTimeout => "retransmission_timeout must be non-zero"
  | zeroInterval => "timer_interval must be non-zero"
  | capBelowTimeout => "backoff cap is below retransmission_timeout"

namespace Config

def withWindows (receiveWindow sendWindow : Nat) : Config := { receiveWindow, sendWindow }

/-- The backoff cap, if there is one, is at least the timeout. -/
def CapOk (c : Config) : Prop :=
  match c.backoff with
  | .fixed => True
  | .exponential cap => c.timeout ≤ cap

instance (c : Config) : Decidable c.CapOk :=
  match h : c.backoff with
  | .fixed => .isTrue (by simp [CapOk, h])
  | .exponential cap =>
    decidable_of_iff (c.timeout ≤ cap) (by simp [CapOk, h])

/-- The receive window fits the header field, a full segment fits in the header's length field and
in the send window, and time passes between resends and between sweeps. -/
structure Valid (c : Config) : Prop where
  receiveWindow_pos : 0 < c.receiveWindow
  receiveWindow_le : c.receiveWindow ≤ 65535
  maxPayload_pos : 0 < c.maxPayload
  maxPayload_le : c.maxPayload ≤ Segment.maxPayload
  maxPayload_le_sendWindow : c.maxPayload ≤ c.sendWindow
  timeout_pos : 0 < c.timeout
  interval_pos : 0 < c.sweepInterval
  capOk : c.CapOk

def check (c : Config) : Except ConfigFault Unit :=
  if c.receiveWindow = 0 ∨ 65535 < c.receiveWindow then .error (.receiveWindow c.receiveWindow)
  else if c.maxPayload = 0 ∨ Segment.maxPayload < c.maxPayload then
    .error (.maxPayload c.maxPayload)
  else if c.sendWindow < c.maxPayload then .error (.sendWindow c.sendWindow c.maxPayload)
  else if c.timeout = 0 then .error .zeroTimeout
  else if c.sweepInterval = 0 then .error .zeroInterval
  else if c.CapOk then .ok ()
  else .error .capBelowTimeout

theorem check_eq_ok_iff {c : Config} : c.check = .ok () ↔ c.Valid := by
  unfold check
  constructor
  · intro h
    constructor <;> grind
  · rintro ⟨_, _, _, _, _, _, _, _⟩
    grind

/-- The age at which a segment that was resent `resends` times is due again. The factor by which
it grows stops short of 2^32. -/
def timeoutAfter (c : Config) (resends : Nat) : Nat :=
  match c.backoff with
  | .fixed => c.timeout
  | .exponential cap =>
    let factor := if resends < 32 then 1 <<< resends else 0xFFFFFFFF
    match Duration.times? c.timeout factor with
    | some timeout => min timeout cap
    | none => cap

/-- The receive window as the 16-bit header field carries it. -/
def advertisedWindow (c : Config) : UInt16 := UInt16.ofNat (min c.receiveWindow 65535)

end Config

end ReliableStream
