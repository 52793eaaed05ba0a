import ReliableStream.Bytes
import ReliableStream.Error

/-!
# Endpoints

An endpoint is what a connection has to do with: the application that it reads from and delivers
to, and the network that it sends on. A connection knows only these six operations, so everything
that is said about connections over an arbitrary `Endpoint` holds for any application and any
network.
-/

namespace ReliableStream

/-- What a read of the application's input gave. -/
inductive Reading where
  /-- `written` went to the beginning of the buffer, and the application claims that `claimed`
  bytes of the buffer are input. An honest one claims what it wrote. -/
  | data (written : Bytes) (claimed : Nat)
  /-- There is nothing to read now. -/
  | pending
  /-- There will be nothing more to read. -/
  | eof
  | failed (cause : Error)

class Endpoint (σ : Type) where
  /-- Reads input into a buffer. -/
  read : σ → (buffer : Bytes) → Reading × σ
  /-- Puts a datagram on the network. -/
  send : σ → (datagram : Bytes) → Except Error Unit × σ
  /-- Offers output; the answer is how many bytes are taken. -/
  deliver : σ → (offered : Bytes) → Nat × σ
  /-- The output has ended. -/
  finish : σ → σ
  /-- The connection is given up. -/
  reset : σ → (cause : Error) → σ
  /-- The connection has no more use for the endpoint. -/
  release : σ → σ

end ReliableStream
