import ReliableStream.Proofs.Connection.Step

/-!
# What a connection can be made to do

A `Deed` is one of the operations of a connection, or something that happens to its endpoint from
outside. `perform_steps`: a deed consists of steps, within what its `grant` allows. So what those
steps keep, and is no matter of the endpoint, every deed keeps (`perform_keeps`).
-/

namespace ReliableStream

namespace Connection

variable {σ : Type} [Endpoint σ]

/-- A connection as it is created. -/
def created (id : Nat) (config : Config) (valid : config.Valid) (endpoint : σ) : Connection σ :=
  { id, config, valid, endpoint }

/-- The defaults are a configuration that a connection can be created with. -/
theorem valid_default : Config.Valid {} := Config.check_eq_ok_iff.mp (by decide)

/-- What a connection can be made to do. -/
inductive Deed (σ : Type) where
  | read (now : Int) (runtime : Bool)
  | ensureSender (runtime : Bool)
  | senderTurn (now : Int)
  | receive (datagram : Bytes) (now : Int)
  | output (now : Int)
  | timerPass (now : Int) (busy : Bool)
  | abort (cause : Error)
  | destroy
  /-- Something happens to the endpoint from outside. -/
  | adjust (change : σ → σ)

def perform (c : Connection σ) : Deed σ → Connection σ
  | .read now runtime => (c.read now runtime).2
  | .ensureSender runtime => (c.ensureSender runtime).2
  | .senderTurn now => c.senderTurn now
  | .receive datagram now => (c.receive datagram now).2
  | .output now => (c.output now).2
  | .timerPass now busy => (c.timerPass now busy).2
  | .abort cause => c.abort cause
  | .destroy => c.destroy
  | .adjust change => { c with endpoint := change c.endpoint }

namespace Deed

def isPass : Deed σ → Bool
  | .timerPass .. => true
  | _ => false

def isTurn : Deed σ → Bool
  | .senderTurn _ => true
  | _ => false

/-- The segment is in the datagram that is received. -/
def Brings (s : Segment) : Deed σ → Prop
  | .receive datagram _ => Segment.decode datagram = .ok s
  | _ => False

/-- What has to be granted to a connection that does this. -/
def grant (x : Deed σ) : Grant where
  hears s := x.Brings s
  sends := x.isTurn = true
  times := x.isPass = true
  answers := x.isTurn = false ∧ x.isPass = false

end Deed

/-- What is done to a connection, apart from what happens outside, is done in steps. -/
theorem perform_steps (c : Connection σ) (x : Deed σ) :
    Steps x.grant c (c.perform x) ∨ ∃ change, x = .adjust change := by
  cases x with
  | adjust change => exact .inr ⟨change, rfl⟩
  | receive datagram now =>
    exact .inl (receive_steps (And.intro rfl rfl) trivial c datagram now fun s hs => hs)
  | read now runtime => exact .inl (read_steps trivial trivial c now runtime)
  | ensureSender runtime => exact .inl (ensureSender_steps trivial c runtime)
  | senderTurn now => exact .inl (senderTurn_steps rfl trivial c now)
  | output now => exact .inl (output_steps (And.intro rfl rfl) c now)
  | timerPass now busy => exact .inl (timerPass_steps rfl trivial c now busy)
  | abort cause => exact .inl (abort_steps trivial c cause)
  | destroy => exact .inl (destroy_steps c)

theorem perform_keeps {I : Connection σ → Prop} {c : Connection σ} {x : Deed σ}
    (step : ∀ {c d}, Step x.grant c d → I c → I d)
    (adjust : ∀ {c : Connection σ} (endpoint : σ), I c → I { c with endpoint }) (hc : I c) :
    I (c.perform x) := by
  rcases perform_steps c x with hsteps | ⟨change, rfl⟩
  · exact hsteps.keeps step hc
  · exact adjust _ hc

theorem live_of_perform {c : Connection σ} {x : Deed σ} (live : (c.perform x).destroyed = false) :
    c.destroyed = false :=
  perform_keeps (I := fun e => e.destroyed = false → c.destroyed = false)
    (fun hstep hc he => hc (hstep.live he)) (fun _ hc => hc) (fun hc => hc) live

end Connection

end ReliableStream
