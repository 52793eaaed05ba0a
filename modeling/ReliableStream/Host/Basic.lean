import ReliableStream.Connection.Receiver
import ReliableStream.Connection.Sender
import ReliableStream.Connection.Timer

/-!
# Hosts

A host keeps connections under the ids that it gives out. A connection is registered from when it
is created until it is destroyed. A destroyed connection can still be looked at, and its operations
answer that it is closed.
-/

namespace ReliableStream

structure Host (σ : Type) where
  /-- All connections that were ever created, the oldest first. -/
  connections : List (Connection σ) := []
  /-- The ids of the registered connections, in order. -/
  registered : List Nat := []
  /-- The id that the next connection gets. -/
  nextId : Nat := 1

namespace Host

variable {σ : Type}

/-- Creates a connection over `endpoint`; the result is its id. A configuration that is refused
uses up no id. -/
def create (h : Host σ) (endpoint : σ) (config : Config) : Except Error (Nat × Host σ) :=
  match hc : config.check with
  | .error fault => .error (.invalidConfig fault.message)
  | .ok () =>
    let c : Connection σ :=
      { id := h.nextId, config, valid := Config.check_eq_ok_iff.mp hc, endpoint }
    .ok (c.id, {
      connections := h.connections ++ [c]
      registered := h.registered ++ [c.id]
      nextId := h.nextId + 1 })

/-- The connection that was created as `id`. -/
def find? (h : Host σ) (id : Nat) : Option (Connection σ) := h.connections.find? (·.id == id)

/-- Puts `c` in the place of the connection with its id. It is no longer registered if it is
destroyed. -/
def put (h : Host σ) (c : Connection σ) : Host σ :=
  { h with
    connections := h.connections.map fun d => if d.id = c.id then c else d
    registered := if c.destroyed then h.registered.erase c.id else h.registered }

/-- Lets `op` work on the connection `id`. -/
def update {α : Type} (h : Host σ) (id : Nat) (op : Connection σ → α × Connection σ) :
    Option (α × Host σ) :=
  (h.find? id).map fun c =>
    let (result, c) := op c
    (result, h.put c)

def isRegistered (h : Host σ) (id : Nat) : Bool := h.registered.contains id

/-- The id itself, if it is that of a registered connection. -/
def get (h : Host σ) (id : Nat) : Except Error Nat :=
  if h.isRegistered id then .ok id else .error (.notFound id)

/-- The host after the connection `id` is destroyed. -/
def destroyConnection [Endpoint σ] (h : Host σ) (id : Nat) : Host σ :=
  match h.find? id with
  | some c => h.put c.destroy
  | none => h

/-- Destroys a registered connection. -/
def destroy [Endpoint σ] (h : Host σ) (id : Nat) : Except Error (Host σ) :=
  (h.get id).map h.destroyConnection

/-- Destroys every registered connection. -/
def shutdown [Endpoint σ] (h : Host σ) : Host σ := h.registered.foldl destroyConnection h

end Host

end ReliableStream
