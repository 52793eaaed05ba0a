import ReliableStream.Endpoint.Basic

/-!
# A scripted endpoint

Plays a script of readings before it passes on to another endpoint, and may claim to take more
output than that one does.
-/

namespace ReliableStream

/-- A scripted reading. -/
inductive Act where
  | pending
  | eof
  | fail
  /-- As much of the buffer as `claimed` says is filled with `fill`. -/
  | claim (claimed : Nat) (fill : UInt8)

/-- What the act gives for a buffer of `room` bytes. -/
def Act.reading (room : Nat) : Act → Reading
  | pending => .pending
  | eof => .eof
  | fail => .failed (.io "scripted failure")
  | claim claimed fill => .data (List.replicate (min claimed room) fill) claimed

structure Scripted (σ : Type) where
  /-- The readings to come before those of `inner`. -/
  script : List Act := []
  /-- Added to what `inner` says it takes. -/
  overclaim : Nat := 0
  inner : σ

instance {σ : Type} [Endpoint σ] : Endpoint (Scripted σ) where
  read e buffer :=
    match e.script with
    | act :: script => (act.reading buffer.length, { e with script })
    | [] =>
      let (reading, inner) := Endpoint.read e.inner buffer
      (reading, { e with inner })
  send e datagram :=
    let (result, inner) := Endpoint.send e.inner datagram
    (result, { e with inner })
  deliver e offered :=
    let (taken, inner) := Endpoint.deliver e.inner offered
    (taken + e.overclaim, { e with inner })
  finish e := { e with inner := Endpoint.finish e.inner }
  reset e cause := { e with inner := Endpoint.reset e.inner cause }
  release e := { e with inner := Endpoint.release e.inner }

end ReliableStream
