import ReliableStream.Proofs.Connection.Step
import ReliableStream.Proofs.Sending.Source

/-!
# Endpoints with a record

A `Recorded` endpoint does what the endpoint inside of it does, whatever that is, and keeps a
record: the input that was read, the datagrams that were sent, the output that was taken and how
often it was ended. So a property of a connection can speak of all that it ever did.
-/

namespace ReliableStream

structure Recorded (σ : Type) where
  inner : σ
  /-- The input, in the pieces in which it was read. -/
  pieces : List Bytes := []
  /-- There was no more input, or it could not be read. -/
  inputEnded : Bool := false
  /-- The datagrams that were sent, whether or not the network took them. -/
  sent : List Bytes := []
  /-- The output that was taken. -/
  output : Bytes := []
  /-- How often the output was ended. -/
  finishes : Nat := 0

namespace Recorded

variable {σ : Type}

/-- All the input that was read. -/
def input (e : Recorded σ) : Bytes := e.pieces.flatten

/-- The endpoint once `reading` into `buffer` is recorded. -/
def record (e : Recorded σ) (buffer : Bytes) (reading : Reading) : Recorded σ :=
  { e with
    pieces := if reading.chunk buffer = [] then e.pieces else e.pieces ++ [reading.chunk buffer]
    inputEnded := e.inputEnded || reading.isEnd }

instance [Endpoint σ] : Endpoint (Recorded σ) where
  read e buffer :=
    let (reading, inner) := Endpoint.read e.inner buffer
    (reading, { e with inner }.record buffer reading)
  send e datagram :=
    let (result, inner) := Endpoint.send e.inner datagram
    (result, { e with inner, sent := e.sent ++ [datagram] })
  deliver e offered :=
    let (taken, inner) := Endpoint.deliver e.inner offered
    (taken, { e with inner, output := e.output ++ offered.take taken })
  finish e := { e with inner := Endpoint.finish e.inner, finishes := e.finishes + 1 }
  reset e cause := { e with inner := Endpoint.reset e.inner cause }
  release e := { e with inner := Endpoint.release e.inner }

/-- The records are the same, whatever happened inside. -/
def SameRecord (e f : Recorded σ) : Prop := ∃ inner, f = { e with inner }

variable [Endpoint σ] {e f : Recorded σ} {buffer : Bytes} {reading : Reading}

theorem read_eq (h : Endpoint.read e buffer = (reading, f)) :
    ∃ inner, f = { e with inner }.record buffer reading := by
  obtain ⟨hr, hf⟩ := Prod.mk.inj h
  refine ⟨(Endpoint.read e.inner buffer).2, ?_⟩
  rw [← hf, ← hr]
  rfl

/-- Sending adds the datagram to the record, and nothing else. -/
theorem mem_sent_send {datagram x : Bytes} (h : x ∈ (Endpoint.send e datagram).2.sent) :
    x ∈ e.sent ∨ x = datagram := by
  rcases List.mem_append.mp h with h | h
  · exact .inl h
  · exact .inr (List.mem_singleton.mp h)

end Recorded

end ReliableStream
