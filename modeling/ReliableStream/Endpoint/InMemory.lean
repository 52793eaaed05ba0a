import ReliableStream.Endpoint.Basic
import ReliableStream.Queue

/-!
# An endpoint in memory

Input, output and network of an `InMemory` endpoint are byte strings: input is written to it ahead
of time, output and datagrams are kept until somebody looks at them.
-/

namespace ReliableStream

structure InMemory where
  /-- Input that was not read yet. -/
  input : Bytes := []
  /-- The input ends after what is there. -/
  inputClosed : Bool := false
  /-- Reading fails after what is there. -/
  inputFailing : Bool := false
  /-- Datagrams that were sent and not taken. -/
  wire : Queue Bytes := .empty
  /-- Sending fails. -/
  networkDown : Bool := false
  /-- All output, in the pieces that were taken. -/
  pieces : Queue Bytes := .empty
  /-- How many more bytes of output there is room for. -/
  capacity : Option Nat := none
  finishes : Nat := 0
  /-- The texts of the causes of all resets. -/
  resets : List String := []
  releases : Nat := 0
  deriving DecidableEq

namespace InMemory

def write (e : InMemory) (data : Bytes) : InMemory := { e with input := e.input ++ data }

/-- All output. -/
def output (e : InMemory) : Bytes := e.pieces.toList.flatten

/-- The datagrams that were sent, which are no longer there then. -/
def takeSent (e : InMemory) : List Bytes × InMemory := (e.wire.toList, { e with wire := .empty })

/-- Input that is there comes first, then a failure, then the end. -/
def read (e : InMemory) (buffer : Bytes) : Reading × InMemory :=
  if !e.input.isEmpty then
    let data := e.input.take buffer.length
    (.data data data.length, { e with input := e.input.drop buffer.length })
  else if e.inputFailing then (.failed (.io "input failed"), e)
  else if e.inputClosed then (.eof, e)
  else (.pending, e)

def send (e : InMemory) (datagram : Bytes) : Except Error Unit × InMemory :=
  if e.networkDown then (.error (.io "network unavailable"), e)
  else (.ok (), { e with wire := e.wire.push datagram })

def deliver (e : InMemory) (offered : Bytes) : Nat × InMemory :=
  let taken := match e.capacity with
    | some room => min room offered.length
    | none => offered.length
  (taken, { e with
    capacity := e.capacity.map (· - taken)
    pieces := e.pieces.push (offered.take taken) })

end InMemory

instance : Endpoint InMemory where
  read := InMemory.read
  send := InMemory.send
  deliver := InMemory.deliver
  finish e := { e with finishes := e.finishes + 1 }
  reset e cause := { e with resets := e.resets ++ [cause.message] }
  release e := { e with releases := e.releases + 1 }

end ReliableStream
