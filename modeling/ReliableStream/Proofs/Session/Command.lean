import ReliableStream.Session
import ReliableStream.Proofs.Connection.Deed

/-!
# Runs of a session

A `Command` is what the caller of a session can have done, among which is to let the tasks run.
`Session.Reached` are the sessions that commands lead to. Many commands are a deed of one connection
(`Session.deed?`), and all those do the same with the session (`act_of_deed?`).
-/

namespace ReliableStream

/-- What can be done with a session. -/
inductive Command (σ : Type) where
  | create (endpoint : σ) (config : Config)
  | read (id : Nat)
  | ensureSender (id : Nat)
  | receive (id : Nat) (datagram : Bytes)
  | output (id : Nat)
  | timerPass (id : Nat) (moment : Int)
  | abort (id : Nat) (cause : Error)
  | destroy (id : Nat)
  /-- Something happens to an endpoint from outside. -/
  | adjust (id : Nat) (change : σ → σ)
  | destroyRegistered (id : Nat)
  | shutdown
  | sweep
  | sweepAround (busy : Nat)
  | startTicker (interval : Nat)
  | stopTicker
  | settle
  | advance (d : Nat)

namespace Session

variable {σ : Type}

/-- The session after an operation on a connection that may not exist. -/
def after {α : Type} (s : Session σ) (r : Option (α × Session σ)) : Session σ :=
  (r.map (·.2)).getD s

/-- What a command makes of the session. One that is refused changes nothing. -/
def act [Endpoint σ] (s : Session σ) : Command σ → Session σ
  | .create endpoint config => (s.create endpoint config).toOption.elim s (·.2)
  | .read id => s.after (s.read id)
  | .ensureSender id => s.after (s.ensureSender id)
  | .receive id datagram => s.after (s.receive id datagram)
  | .output id => s.after (s.output id)
  | .timerPass id moment => s.after (s.timerPass id moment)
  | .abort id cause => s.after (s.abort id cause)
  | .destroy id => s.after (s.destroy id)
  | .adjust id change => s.after (s.updateEndpoint id fun e => ((), change e))
  | .destroyRegistered id => (s.destroyRegistered id).toOption.getD s
  | .shutdown => s.shutdown
  | .sweep => s.sweep.2
  | .sweepAround busy => (s.sweepAround busy).2.2
  | .startTicker interval => s.startTicker interval
  | .stopTicker => s.stopTicker
  | .settle => s.settle
  | .advance d => s.advance d

/-- The sessions that commands lead to which `fit` the session that they are given to. There is a
runtime in all of them or in none. -/
inductive Reached [Endpoint σ] (runtime : Bool) (fit : Session σ → Command σ → Prop) :
    Session σ → Prop
  | start (now : Int) : Reached runtime fit { now, runtime }
  | act {s : Session σ} (x : Command σ) (h : Reached runtime fit s) (hx : fit s x) :
    Reached runtime fit (s.act x)

/-- The deed that the command is, and the connection that is to do it. -/
def deed? (s : Session σ) : Command σ → Option (Nat × Connection.Deed σ)
  | .read id => some (id, .read s.now s.runtime)
  | .ensureSender id => some (id, .ensureSender s.runtime)
  | .receive id datagram => some (id, .receive datagram s.now)
  | .output id => some (id, .output s.now)
  | .timerPass id moment => some (id, .timerPass moment false)
  | .abort id cause => some (id, .abort cause)
  | .destroy id => some (id, .destroy)
  | .adjust id change => some (id, .adjust change)
  | _ => none

/-- The session after the connection `id` has done `x`. -/
def perform [Endpoint σ] (s : Session σ) (id : Nat) (x : Connection.Deed σ) : Session σ :=
  s.after (s.update id fun c => ((), c.perform x))

variable {s : Session σ} {c : Connection σ} {id : Nat}

/-- What an operation answers makes no difference to the session. -/
theorem after_update_congr {α β : Type} {op : Connection σ → α × Connection σ}
    {op' : Connection σ → β × Connection σ} (h : ∀ c, (op c).2 = (op' c).2) :
    s.after (s.update id op) = s.after (s.update id op') := by
  unfold after update
  cases s.host.find? id with
  | none => rfl
  | some c => simp [h c]

theorem act_of_deed? [Endpoint σ] {x : Command σ} {deed : Connection.Deed σ}
    (h : s.deed? x = some (id, deed)) : s.act x = s.perform id deed := by
  cases x with
  | read | ensureSender | receive | output | timerPass | abort | destroy | adjust =>
    cases h
    exact after_update_congr fun c => rfl
  | _ => cases h

theorem perform_of_none [Endpoint σ] (hf : s.host.find? id = none) (x : Connection.Deed σ) :
    s.perform id x = s := by
  simp [perform, after, update, hf]

theorem perform_of_some [Endpoint σ] (hf : s.host.find? id = some c) (x : Connection.Deed σ) :
    s.perform id x = { s with
      host := s.host.put (c.perform x)
      ready := if c.sender ≠ .ready ∧ (c.perform x).sender = .ready then s.ready ++ [.sender id]
        else s.ready } := by
  simp [perform, after, update, hf]

/-- A sender's turn is a deed too. -/
theorem runTask_sender [Endpoint σ] (s : Session σ) (id : Nat) :
    s.runTask (.sender id) = s.perform id (.senderTurn s.now) := by
  show s.runTask (.sender id) = s.after (s.update id fun c => ((), c.senderTurn s.now))
  unfold runTask after
  simp only
  cases s.update id fun c => ((), c.senderTurn s.now) with
  | none => rfl
  | some r => rfl

end Session

end ReliableStream
