import ReliableStream.Proofs.Connection.Attendance
import ReliableStream.Proofs.Connection.Traffic
import ReliableStream.Proofs.Endpoint.Monitored

/-!
# The callbacks of a connection

A connection tells its endpoint at most once that the output has ended, at most once that it was
given up, and lets go of it exactly once, as the last thing of all, when it is destroyed
(`Disciplined`). Nothing is left in it from then on, and its operations are refused (`Spent`).

A single step does not keep this when the connection is given up: between the reset and the
destruction that follows at once, another reset would be a second one. So what a connection does
is divided into `Go`s here, of which that is one.
-/

namespace ReliableStream

namespace Connection

variable {σ : Type} [Endpoint σ]

/-! ## Destroyed connections -/

/-- Nothing waits in the connection or is in flight, and whatever is asked of it is refused and
changes nothing. -/
structure Spent (c : Connection σ) : Prop where
  queue : c.outbound.queue.toList = []
  inflight : c.inflight.entries.toList = []
  pending : c.received.pending = []
  read : ∀ now runtime, c.read now runtime = (.error (.closed c.id), c)
  receive : ∀ datagram now, c.receive datagram now = (.error (.closed c.id), c)
  output : ∀ now, c.output now = (.error (.closed c.id), c)

theorem spent_of_destroyed {c : Connection σ} (hd : c.destroyed = true)
    (hqueue : c.outbound.queue.toList = []) (hinflight : c.inflight.entries.toList = [])
    (hpending : c.received.pending = []) : c.Spent :=
  ⟨hqueue, hinflight, hpending, fun _ _ => if_pos hd, fun _ _ => if_pos hd, fun _ => if_pos hd⟩

theorem spent_destroy {c : Connection σ} (hd : c.destroyed = false) :
    c.destroy.Spent := by
  refine spent_of_destroyed (destroyed_destroy c) ?_ ?_ ?_
  all_goals rw [destroy, if_neg (by simp [hd])]; rfl

/-! ## What a connection goes through -/

/-- Everything but to be given up. -/
def Grant.lasting : Grant := { hears := fun _ => True, resets := False }

/-- What happens outside makes no callbacks. -/
def Move.SparesCalls : Move (Monitored σ) → Prop
  | .deed (.adjust change) => ∀ e, (change e).calls = e.calls
  | _ => True

/-- The connection takes a step or is given up, or something happens inside of its endpoint. -/
inductive Go (c : Connection (Monitored σ)) : Connection (Monitored σ) → Prop
  | step {d : Connection (Monitored σ)} (h : Step .lasting c d) : Go c d
  | abort (cause : Error) : Go c (c.abort cause)
  | adjust {endpoint : Monitored σ} (h : endpoint.calls = c.endpoint.calls) :
      Go c { c with endpoint }

abbrev Goes : Connection (Monitored σ) → Connection (Monitored σ) → Prop :=
  Relation.ReflTransGen Go

variable {c d : Connection (Monitored σ)}

theorem Steps.goes (h : Steps .lasting c d) : Goes c d :=
  h.keeps (I := Goes c) (fun hstep hgoes => hgoes.tail (.step hstep)) .refl

theorem goes_timerPass (c : Connection (Monitored σ)) (now : Int) (busy : Bool) :
    Goes c (c.timerPass now busy).2 := by
  rcases timerPass_steps_or_abort (g := .lasting) trivial c now busy with
    hsteps | ⟨d, cause, hsteps, heq⟩
  · exact hsteps.goes
  · rw [heq]
    exact hsteps.goes.tail (.abort cause)

theorem goes_destroy (c : Connection (Monitored σ)) : Goes c c.destroy := (destroy_steps c).goes

theorem goes_move (c : Connection (Monitored σ)) {m : Move (Monitored σ)} (hm : m.SparesCalls) :
    Goes c (c.move m) := by
  cases m with
  | sendNext now => exact (sendNext_steps trivial c now).goes
  | deed x =>
    cases x with
    | read now runtime => exact (read_steps trivial trivial c now runtime).goes
    | ensureSender runtime => exact (ensureSender_steps trivial c runtime).goes
    | senderTurn now => exact (senderTurn_steps trivial trivial c now).goes
    | receive datagram now =>
      exact (receive_steps trivial trivial c datagram now fun _ _ => trivial).goes
    | output now => exact (output_steps trivial c now).goes
    | timerPass now busy => exact goes_timerPass c now busy
    | abort cause => exact .single (.abort cause)
    | destroy => exact goes_destroy c
    | adjust change => exact .single (.adjust (hm c.endpoint))

/-! ## What was done with an endpoint -/

/-- What the callbacks say of a connection, and what they leave of it. -/
structure Disciplined (c : Connection (Monitored σ)) : Prop where
  orderly : c.Orderly
  finish : c.endpoint.calls.count .finish = c.received.finished.toNat
  reset : c.endpoint.calls.count .reset ≤ c.destroyed.toNat
  release : c.endpoint.calls.count .release = c.destroyed.toNat
  last : c.destroyed = true → c.endpoint.calls.getLast? = some .release
  spent : c.destroyed = true → c.Spent

theorem disciplined_created (id : Nat) {config : Config} (valid : config.Valid) (inner : σ) :
    (created id config valid ({ inner } : Monitored σ)).Disciplined :=
  ⟨orderly_created id valid _, rfl, Nat.le_refl 0, rfl, by simp [created], by simp [created]⟩

namespace Disciplined

/-- A live connection may make any ordinary callbacks. -/
theorem ordinary (hc : c.Disciplined) (live : c.destroyed = false) (live' : d.destroyed = false)
    (orderly : d.Orderly) (calls : c.endpoint.OrdinaryUntil d.endpoint)
    (finished : d.received.finished = c.received.finished) : d.Disciplined where
  orderly := orderly
  finish := by rw [calls.count_eq rfl, hc.finish, finished]
  reset := by
    rw [calls.count_eq rfl, live', ← live]
    exact hc.reset
  release := by rw [calls.count_eq rfl, hc.release, live, live']
  last hd := by simp [live'] at hd
  spent hd := by simp [live'] at hd

theorem deliver (hc : c.Disciplined) (live : c.destroyed = false) : c.deliver.2.Disciplined := by
  have horderly : c.deliver.2.Orderly := (deliver_steps (g := .lasting) c).orderly hc.orderly
  have hcalls := Monitored.ordinary_deliver c.endpoint c.received
  have hfinished := c.received.finished_deliver Endpoint.deliver c.endpoint
  unfold Connection.deliver at horderly ⊢
  rw [if_neg (by simp [live])] at horderly ⊢
  generalize c.received.deliver Endpoint.deliver c.endpoint = r at horderly hcalls hfinished ⊢
  obtain ⟨delivery, received, endpoint⟩ := r
  simp only at horderly hcalls hfinished ⊢
  cases heof : delivery.eof with
  | false =>
    rw [heof] at horderly
    exact hc.ordinary live live horderly hcalls (by simp [readvertise, hfinished.1, heof])
  | true =>
    rw [heof] at horderly
    -- the end was not told before, and is told now
    have hfirst : c.received.finished = false := hfinished.2 heof
    have htold : received.finished = true := by simp [hfinished.1, heof]
    have hall : ∀ call, (Endpoint.finish endpoint).calls.count call =
        endpoint.calls.count call + [Callback.finish].count call :=
      fun call => List.count_append
    refine ⟨horderly, ?_, ?_, ?_, fun hd => ?_, fun hd => ?_⟩
    · show (Endpoint.finish endpoint).calls.count .finish = received.finished.toNat
      rw [hall, hcalls.count_eq rfl, hc.finish, hfirst, htold]
      rfl
    · show (Endpoint.finish endpoint).calls.count .reset ≤ c.destroyed.toNat
      rw [hall, hcalls.count_eq rfl]
      exact hc.reset
    · show (Endpoint.finish endpoint).calls.count .release = c.destroyed.toNat
      rw [hall, hcalls.count_eq rfl]
      exact hc.release
    · exact absurd (live.symm.trans hd) (by simp)
    · exact absurd (live.symm.trans hd) (by simp)

/-- A connection is destroyed once. It may be told first that it was given up. -/
theorem destroyed (hc : c.Disciplined) (live : c.destroyed = false) {endpoint : Monitored σ}
    {new : List Callback} (calls : endpoint.calls = c.endpoint.calls ++ new)
    (hnew : new = [] ∨ new = [.reset]) :
    { c with endpoint : Connection (Monitored σ) }.destroy.Disciplined := by
  have hspent : { c with endpoint : Connection (Monitored σ) }.destroy.Spent := spent_destroy live
  have horderly : { c with endpoint : Connection (Monitored σ) }.destroy.Orderly :=
    (destroy_steps (g := .lasting) _).orderly
      ((Undisturbed.of_endpoint c endpoint).orderly hc.orderly)
  have hfinish := hc.finish
  have hreset := hc.reset
  have hrelease := hc.release
  have hcalls : (Endpoint.release endpoint).calls = c.endpoint.calls ++ (new ++ [.release]) := by
    rw [← List.append_assoc, ← calls]
    rfl
  rw [live] at hreset hrelease
  rw [Connection.destroy, if_neg (by simp [live])] at hspent horderly ⊢
  refine ⟨horderly, ?_, ?_, ?_, fun _ => ?_, fun _ => hspent⟩
  all_goals simp only [hcalls, List.count_append]
  · rcases hnew with rfl | rfl
    · exact hfinish
    · exact hfinish
  · rcases hnew with rfl | rfl
    · exact Nat.le_succ_of_le hreset
    · exact Nat.succ_le_succ hreset
  · rcases hnew with rfl | rfl
    · exact congrArg (· + 1) hrelease
    · exact congrArg (· + 1) hrelease
  · rw [← List.append_assoc]
    exact List.getLast?_concat

end Disciplined

theorem Step.disciplined (h : Step .lasting c d) (hc : c.Disciplined) : d.Disciplined := by
  have horderly := h.orderly hc.orderly
  cases h with
  | notice =>
    refine ⟨horderly, hc.finish, hc.reset, hc.release, hc.last, fun hd => ?_⟩
    have hspent := hc.spent hd
    exact spent_of_destroyed hd hspent.queue hspent.inflight hspent.pending
  | pause live hread | queue live hread | refuse live _ hread | finish live hread =>
    exact hc.ordinary live live horderly (Monitored.ordinary_read hread) rfl
  | send live | resend live | answer live =>
    exact hc.ordinary live live horderly (Monitored.ordinary_send c.endpoint _) rfl
  | setWindow live | restamp live | acknowledge live | finAcked live | peerFin live =>
    exact hc.ordinary live live horderly (.of_eq rfl) rfl
  | @insert s live =>
    exact hc.ordinary live live horderly (.of_eq rfl) (c.received.finished_insert s)
  | deliver live => exact hc.deliver live
  | reset live hg => exact hg.elim
  | destroy live => exact hc.destroyed live (List.append_nil _).symm (.inl rfl)

theorem Go.disciplined (h : Go c d) (hc : c.Disciplined) : d.Disciplined := by
  cases h with
  | step hstep => exact hstep.disciplined hc
  | abort cause =>
    unfold Connection.abort
    split
    next => exact hc
    next live => exact hc.destroyed (by simpa using live) rfl (.inr rfl)
  | @adjust endpoint heq =>
    have horderly : { c with endpoint : Connection (Monitored σ) }.Orderly :=
      (Undisturbed.of_endpoint c endpoint).orderly hc.orderly
    refine ⟨horderly, ?_, ?_, ?_, fun hd => ?_, fun hd => ?_⟩
    · rw [heq]
      exact hc.finish
    · rw [heq]
      exact hc.reset
    · rw [heq]
      exact hc.release
    · rw [heq]
      exact hc.last hd
    · have hspent := hc.spent hd
      exact spent_of_destroyed hd hspent.queue hspent.inflight hspent.pending

theorem Goes.disciplined (h : Goes c d) (hc : c.Disciplined) : d.Disciplined := by
  induction h with
  | refl => exact hc
  | tail _ hgo ih => exact hgo.disciplined ih

/-! ## What does not change -/

/-- The connection keeps its id, and once it is destroyed it stays so and makes no callbacks. -/
structure Outlasts (c d : Connection (Monitored σ)) : Prop where
  id_eq : d.id = c.id
  destroyed : c.destroyed = true → d.destroyed = true ∧ d.endpoint.calls = c.endpoint.calls

theorem Step.outlasts {g : Grant} (h : Step g c d) : c.Outlasts d := by
  refine ⟨h.id_eq, fun hd => ?_⟩
  cases h with
  | notice => exact ⟨hd, rfl⟩
  | _ => exact absurd (show c.destroyed = false by assumption) (by simp [hd])

theorem Go.outlasts (h : Go c d) : c.Outlasts d := by
  cases h with
  | step hstep => exact hstep.outlasts
  | abort cause =>
    refine ⟨id_perform c (.abort cause), fun hd => ?_⟩
    rw [Connection.abort, if_pos hd]
    exact ⟨hd, rfl⟩
  | adjust heq => exact ⟨rfl, fun hd => ⟨hd, heq⟩⟩

theorem Goes.outlasts (h : Goes c d) : c.Outlasts d := by
  induction h with
  | refl => exact ⟨rfl, fun hd => ⟨hd, rfl⟩⟩
  | tail _ hgo ih =>
    have hnext := hgo.outlasts
    refine ⟨hnext.id_eq.trans ih.id_eq, fun hd => ?_⟩
    obtain ⟨hd', hcalls⟩ := ih.destroyed hd
    obtain ⟨hd'', hcalls'⟩ := hnext.destroyed hd'
    exact ⟨hd'', hcalls'.trans hcalls⟩

end Connection

end ReliableStream
