import ReliableStream.Proofs.Connection.Attendance
import ReliableStream.Proofs.Connection.Timer
import ReliableStream.Proofs.Sending.Resends

/-!
# Waiting to be sent

When the sender of a tended connection has had its turn, either nothing waits to be sent or
something is in flight (`Tended.attended`). What is in flight does not stay so: as soon as some of
it is acknowledged the sender is to run (`receive_ready`), and as long as none of it is the timer
comes to resend it or to give up (`Orderly.exists_due`).
-/

namespace ReliableStream

namespace Connection

variable {σ : Type} [Endpoint σ] {c : Connection σ} {s : Segment} {now : Int}

/-! ## Acknowledgments -/

/-- An acknowledgment of something new makes the sender run, if it does not end the connection. -/
theorem handleAck_ready (live : c.destroyed = false) (hs : c.sender ≠ .stopped)
    (hnew : c.inflight.acked < s.ackno.toNat) (hsent : s.ackno.toNat ≤ c.inflight.sent)
    (now : Int) (hd : (c.handleAck s.ackno.toNat s.window now).2.destroyed = false) :
    (c.handleAck s.ackno.toNat s.window now).2.sender = .ready := by
  obtain ⟨sender, permit, hafter, htold⟩ := c.handleAck_cases s now
  have hready : sender = .ready := by
    rcases htold with ⟨hsame, -⟩ | ⟨hbusy, hstopped⟩
    · have hacked := c.inflight.acked_acknowledge hnew hsent
      rw [hsame] at hacked
      omega
    · cases sender with
      | ready => rfl
      | stopped => exact absurd (hstopped rfl) hs
      | waiting => exact absurd rfl hbusy
  rcases hafter with ⟨heq, -⟩ | ⟨fin, hf, hacked, heq⟩
  · rw [heq]
    exact hready
  · rw [heq] at hd ⊢
    have hsteps : Steps .aside { c.acknowledged s with sender, permit } _ :=
      advance_finAcked_steps (c := { c.acknowledged s with sender, permit }) live hf hacked now
    obtain ⟨-, hsame, -⟩ := hsteps.undisturbed.live hd
    exact hsame.trans hready

/-- And so does a datagram with such an acknowledgment. -/
theorem receive_ready {datagram : Bytes} (hs : c.sender ≠ .stopped)
    (hdecode : Segment.decode datagram = .ok s) (hack : s.flags.contains .ack = true)
    (hnew : c.inflight.acked < s.ackno.toNat) (hsent : s.ackno.toNat ≤ c.inflight.sent)
    (hd : (c.receive datagram now).2.destroyed = false) :
    (c.receive datagram now).2.sender = .ready := by
  have live : c.destroyed = false := by
    let g : Grant := { hears := fun _ => True }
    have hsteps : Steps g c (c.receive datagram now).2 :=
      receive_steps trivial trivial c datagram now fun _ _ => trivial
    exact hsteps.live hd
  have hready := handleAck_ready live hs hnew hsent now
  have hcases := receive_cases live hdecode now
  rw [if_pos hack] at hcases
  rcases hcases with heq | ⟨hdata, hlive, heq⟩
  · rw [heq] at hd ⊢
    exact hready hd
  · rw [heq] at hd ⊢
    have hsteps : Steps .aside _ _ :=
      handleData_steps (g := .aside) (s := s) trivial hlive trivial hdata now
    obtain ⟨-, hsame, -⟩ := hsteps.undisturbed.live hd
    exact hsame.trans (hready hlive)

/-! ## The timer -/

/-- If nothing is acknowledged, the timer comes to resend something, or to give up. -/
theorem Orderly.exists_due (h : c.Orderly) (live : c.destroyed = false)
    (hne : c.inflight.entries.toList ≠ []) : ∃ due, ∀ now, due ≤ now →
      (c.timerPass now false).1.hasResent = true ∨ (c.timerPass now false).1.isDead = true := by
  obtain ⟨due, hdue⟩ := SentPacket.exists_overdue c.config c.inflight.entries.toList
  refine ⟨due, fun now hnow => ?_⟩
  have hlinger : c.hasLingered now = false := h.hasLingered_eq_false live hne now
  rcases timerPass_cases live hlinger with ⟨-, endpoint, -, hresent, -⟩ | ⟨x, -, -, hdead, -⟩
  · left
    obtain ⟨e, he⟩ := List.exists_mem_of_ne_nil _ hne
    rw [hresent]
    exact List.any_eq_true.mpr ⟨e, he, SentPacket.isOverdue_mono (hdue e he) hnow⟩
  · right
    rw [hdead]
    rfl

/-! ## When the sender has had its turn -/

/-- What is in flight does not stay so. -/
structure Moves (c : Connection σ) : Prop where
  /-- There is something to be acknowledged. -/
  unacked : c.inflight.acked < c.inflight.sent
  /-- An acknowledgment of some of it makes the sender run, if it does not end the connection. -/
  acknowledged : ∀ datagram s now, Segment.decode datagram = .ok s →
    s.flags.contains .ack = true →
    c.inflight.acked < s.ackno.toNat → s.ackno.toNat ≤ c.inflight.sent →
    (c.receive datagram now).2.destroyed = false → (c.receive datagram now).2.sender = .ready
  /-- From some time on, a pass of the timer resends some of it, or gives the connection up. -/
  timed : ∃ due, ∀ now, due ≤ now →
    (c.timerPass now false).1.hasResent = true ∨ (c.timerPass now false).1.isDead = true

theorem Orderly.moves (h : c.Orderly) (live : c.destroyed = false) (hs : c.sender ≠ .stopped)
    (hne : c.inflight.entries.toList ≠ []) : c.Moves := by
  obtain ⟨t, hnumbered⟩ := h.numbered
  have hconveys := hnumbered.conveys live
  obtain ⟨e, he⟩ := List.exists_mem_of_ne_nil _ hne
  exact ⟨Nat.lt_of_lt_of_le (hconveys.unacked e he) (hconveys.stop_le_sent he),
    fun _ _ _ => receive_ready hs, h.exists_due live hne⟩

/-- Either nothing waits to be sent and there is no sender, or there is one, the packet that it
waits with may not be sent, and something is in flight that an acknowledgment or the timer moves. -/
def Attended (c : Connection σ) : Prop :=
  c.outbound.queue.toList = [] ∧ c.senderRunning = false ∨
    ∃ p rest, c.outbound.queue.toList = p :: rest ∧ c.senderRunning = true ∧
      c.inflight.allows p.payloadLen c.config.sendWindow = false ∧
      c.inflight.entries.toList ≠ [] ∧ c.Moves

/-- A tended connection is attended when its sender has had its turn. -/
theorem Tended.attended (h : c.Tended) (live : c.destroyed = false) (hidle : c.sender ≠ .ready) :
    c.Attended := by
  cases hs : c.sender with
  | ready => exact absurd hs hidle
  | stopped => exact .inl ⟨h.stopped live hs, by simp [senderRunning, hs]⟩
  | waiting =>
    obtain ⟨p, rest, hq, hfull⟩ := h.waiting live hs
    -- with nothing in flight, a packet that fits in the send window would be let through
    have hne : c.inflight.entries.toList ≠ [] := by
      intro hnil
      have hsized : p.payloadLen ≤ c.config.maxPayload := h.sized live p (by simp [hq])
      have hfits := Nat.le_trans hsized c.valid.maxPayload_le_sendWindow
      rw [Inflight.allows_iff.mpr (.inr (.inr ⟨hnil, hfits⟩))] at hfull
      cases hfull
    exact .inr ⟨p, rest, hq, by simp [senderRunning, hs], hfull, hne,
      h.orderly.moves live (by simp [hs]) hne⟩

end Connection

end ReliableStream
