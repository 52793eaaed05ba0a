import ReliableStream.Proofs.Receiving.Reassembly
import ReliableStream.Endpoint.Basic

/-!
# Monitored endpoints

A `Monitored` endpoint does what the endpoint inside of it does, whatever that is, and notes each
callback that reaches it. So a property of a connection can speak of which callbacks it made, how
often, and in which order.
-/

namespace ReliableStream

/-- What a connection asks of its endpoint. -/
inductive Callback where
  | read
  | send
  | deliver
  | finish
  | reset
  | release
  deriving DecidableEq

/-- The callback says nothing about how far the connection has come, so there may be any number of
it. -/
def Callback.isOrdinary : Callback → Bool
  | .read | .send | .deliver => true
  | _ => false

structure Monitored (σ : Type) where
  inner : σ
  /-- The callbacks that were made, in order. -/
  calls : List Callback := []

namespace Monitored

variable {σ : Type}

instance [Endpoint σ] : Endpoint (Monitored σ) where
  read e buffer :=
    let (reading, inner) := Endpoint.read e.inner buffer
    (reading, { inner, calls := e.calls ++ [.read] })
  send e datagram :=
    let (result, inner) := Endpoint.send e.inner datagram
    (result, { inner, calls := e.calls ++ [.send] })
  deliver e offered :=
    let (taken, inner) := Endpoint.deliver e.inner offered
    (taken, { inner, calls := e.calls ++ [.deliver] })
  finish e := { inner := Endpoint.finish e.inner, calls := e.calls ++ [.finish] }
  reset e cause := { inner := Endpoint.reset e.inner cause, calls := e.calls ++ [.reset] }
  release e := { inner := Endpoint.release e.inner, calls := e.calls ++ [.release] }

/-- Since it was `e`, the endpoint `f` had ordinary callbacks only. -/
def OrdinaryUntil (e f : Monitored σ) : Prop :=
  ∃ new, f.calls = e.calls ++ new ∧ ∀ call ∈ new, call.isOrdinary = true

theorem OrdinaryUntil.of_eq {e f : Monitored σ} (h : f.calls = e.calls) : e.OrdinaryUntil f :=
  ⟨[], by rw [h, List.append_nil], by simp⟩

theorem OrdinaryUntil.one {e f : Monitored σ} {call : Callback} (h : f.calls = e.calls ++ [call])
    (ordinary : call.isOrdinary = true) : e.OrdinaryUntil f :=
  ⟨[call], h, by simpa using ordinary⟩

theorem OrdinaryUntil.trans {e f k : Monitored σ} (hfirst : e.OrdinaryUntil f)
    (hnext : f.OrdinaryUntil k) : e.OrdinaryUntil k := by
  obtain ⟨x, hx, hordinary⟩ := hfirst
  obtain ⟨y, hy, hordinary'⟩ := hnext
  refine ⟨x ++ y, by rw [hy, hx, List.append_assoc], fun call hcall => ?_⟩
  rcases List.mem_append.mp hcall with hcall | hcall
  · exact hordinary call hcall
  · exact hordinary' call hcall

/-- The others are as many as before. -/
theorem OrdinaryUntil.count_eq {e f : Monitored σ} (h : e.OrdinaryUntil f) {call : Callback}
    (hcall : call.isOrdinary = false) : f.calls.count call = e.calls.count call := by
  obtain ⟨new, heq, hordinary⟩ := h
  have hnew : new.count call = 0 := by
    rw [List.count_eq_zero]
    intro hmem
    simp [hordinary call hmem] at hcall
  rw [heq, List.count_append, hnew, Nat.add_zero]

variable [Endpoint σ] {e f : Monitored σ}

theorem ordinary_read {buffer : Bytes} {reading : Reading}
    (h : Endpoint.read e buffer = (reading, f)) : e.OrdinaryUntil f := by
  obtain ⟨-, rfl⟩ := Prod.mk.inj h
  exact .one rfl rfl

theorem ordinary_send (e : Monitored σ) (datagram : Bytes) :
    e.OrdinaryUntil (Endpoint.send e datagram).2 :=
  .one rfl rfl

/-- However often a delivery offers output, those are all its callbacks. -/
theorem ordinary_deliver (e : Monitored σ) (r : Reassembly) :
    e.OrdinaryUntil (r.deliver Endpoint.deliver e).2.2 :=
  r.deliver_keeps Endpoint.deliver e
    (fun _ _ h => h.trans (.one rfl rfl)) (.of_eq rfl)

end Monitored

end ReliableStream
