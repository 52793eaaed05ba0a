import ReliableStream.Proofs.Connection.Numbered
import ReliableStream.Proofs.Connection.Phase

/-!
# What holds of every connection

A connection is `Orderly` if it is numbered by some source and its phase agrees with that. It is so
when it is created, and whatever is done to it keeps it so (`Orderly.perform`). It keeps its
configuration too (`config_perform`), and has no more packets in flight than before unless its
sender takes its turn (`length_perform_le`).
-/

namespace ReliableStream

namespace Connection

variable {σ : Type} [Endpoint σ] {g : Grant} {c d : Connection σ}

/-- Who the connection is, and how it is set up, is settled when it is created. -/
theorem Step.fixed (h : Step g c d) : d.id = c.id ∧ d.config = c.config := by
  cases h with
  | deliver =>
    obtain ⟨received, endpoint, ackno, window, heq⟩ := c.deliver_eq
    rw [heq]
    exact ⟨rfl, rfl⟩
  | destroy =>
    unfold Connection.destroy
    split <;> exact ⟨rfl, rfl⟩
  | _ => exact ⟨rfl, rfl⟩

theorem Step.id_eq (h : Step g c d) : d.id = c.id := h.fixed.1

theorem Step.config_eq (h : Step g c d) : d.config = c.config := h.fixed.2

theorem Steps.config_eq (h : Steps g c d) : d.config = c.config :=
  h.keeps (I := fun e => e.config = c.config) (fun hstep heq => hstep.config_eq.trans heq) rfl

/-- Only what is sent for the first time adds to what is in flight. -/
theorem Step.length_le (h : Step g c d) (hg : ¬ g.sends) :
    d.inflight.entries.toList.length ≤ c.inflight.entries.toList.length := by
  cases h with
  | send _ hsends => exact absurd hsends hg
  | restamp _ _ now =>
    have hmap := congrArg List.length
      (SentPacket.map_content_resendOverdue now c.config c.inflight.entries.toList)
    rw [List.length_map, List.length_map] at hmap
    exact Nat.le_of_eq hmap
  | @acknowledge s =>
    have hmap := congrArg List.length (Inflight.map_content_noteWindow
      (c.inflight.acknowledge s.ackno.toNat).2 s.ackno.toNat s.window)
    rw [List.length_map, List.length_map] at hmap
    simp only
    rw [hmap]
    rcases c.inflight.acknowledge_cases s.ackno.toNat with heq | ⟨-, -, bytes, heq⟩
    · rw [heq]
    · rw [heq, Queue.toList_dropWhile]
      exact (List.dropWhile_sublist _).length_le
  | deliver =>
    obtain ⟨received, endpoint, ackno, window, heq⟩ := c.deliver_eq
    rw [heq]
  | destroy =>
    unfold Connection.destroy
    split
    · exact Nat.le_refl _
    · exact Nat.zero_le _
  | _ => exact Nat.le_refl _

/-- What holds of a connection whatever was done to it. -/
structure Orderly (c : Connection σ) : Prop where
  numbered : ∃ t, c.Numbered t
  phase : c.PhaseAgrees

omit [Endpoint σ] in
theorem orderly_created (id : Nat) {config : Config} (valid : config.Valid) (endpoint : σ) :
    (created id config valid endpoint).Orderly :=
  ⟨⟨_, numbered_created id valid endpoint⟩, phaseAgrees_created id valid endpoint⟩

omit [Endpoint σ] in
theorem Orderly.maxPayload_eq (h : c.Orderly) :
    c.outbound.numbering.maxPayload = c.config.maxPayload := by
  obtain ⟨t, hnumbered⟩ := h.numbered
  exact hnumbered.maxPayload

theorem Step.orderly (h : Step g c d) (hc : c.Orderly) : d.Orderly := by
  obtain ⟨⟨t, hnumbered⟩, hphase⟩ := hc
  exact ⟨h.numbered hnumbered, h.phaseAgrees hphase⟩

theorem Steps.orderly (h : Steps g c d) (hc : c.Orderly) : d.Orderly := h.keeps Step.orderly hc

theorem Orderly.perform (h : c.Orderly) (x : Deed σ) : (c.perform x).Orderly := by
  refine perform_keeps Step.orderly ?_ h
  rintro d endpoint ⟨⟨t, hnumbered⟩, hphase⟩
  exact ⟨⟨t, hnumbered.congr rfl rfl rfl rfl⟩, hphase.finSent, hphase.finAcked, hphase.closed⟩

theorem config_perform (c : Connection σ) (x : Deed σ) : (c.perform x).config = c.config :=
  perform_keeps (I := fun e => e.config = c.config)
    (fun hstep heq => hstep.config_eq.trans heq) (fun _ heq => heq) rfl

theorem length_perform_le (c : Connection σ) {x : Deed σ} (hx : x.isTurn = false) :
    (c.perform x).inflight.entries.toList.length ≤ c.inflight.entries.toList.length := by
  have hsends : ¬ x.grant.sends := by
    show ¬ x.isTurn = true
    simp [hx]
  exact perform_keeps
    (I := fun e => e.inflight.entries.toList.length ≤ c.inflight.entries.toList.length)
    (fun hstep hle => Nat.le_trans (hstep.length_le hsends) hle) (fun _ hle => hle) (Nat.le_refl _)

omit [Endpoint σ] in
/-- Our FIN is the last of all, so when it is acknowledged nothing waits and nothing is in
flight. -/
theorem Orderly.nothing_left {fin : Nat} (h : c.Orderly) (live : c.destroyed = false)
    (hfin : c.outbound.fin = some fin) (hlt : fin < c.inflight.acked) :
    c.outbound.queue.toList = [] ∧ c.inflight.entries.toList = [] := by
  obtain ⟨t, hnumbered⟩ := h.numbered
  have hcounts := hnumbered.counts
  have hconveys := hnumbered.conveys live
  have hacked := hcounts.acked_le
  have hsent := hcounts.sent_le
  have hnext : c.outbound.next = fin + 1 := by
    have hended := hcounts.ended_eq
    rw [hfin] at hended
    rw [hcounts.next_eq, hcounts.fin_eq fin hfin, Stream.next,
      show t.stream.ended = true from hended.symm]
    rfl
  constructor
  · refine hconveys.waiting.eq_nil (fun p hp => ?_) (by omega)
    have := (hconveys.speaks.waiting p hp).2.2.bounds
    unfold Packet.start Packet.stop
    omega
  · refine List.eq_nil_iff_forall_not_mem.mpr fun x hx => ?_
    have hunacked := hconveys.unacked x hx
    have hle : x.stop ≤ c.inflight.sent := hconveys.stop_le_sent hx
    omega

omit [Endpoint σ] in
/-- A connection with packets in flight is not closed: its FIN is not acknowledged. -/
theorem Orderly.closedAt_eq_none (h : c.Orderly) (live : c.destroyed = false)
    (hne : c.inflight.entries.toList ≠ []) : c.closedAt = none := by
  by_contra hsome
  have hclosed := h.phase.closed live (Option.isSome_iff_ne_none.mpr hsome)
  obtain ⟨fin, hfin, hlt⟩ := h.phase.finAcked live (by rw [hclosed]; rfl) (by rw [hclosed]; rfl)
  exact hne (h.nothing_left live hfin hlt).2

omit [Endpoint σ] in
theorem Orderly.hasLingered_eq_false (h : c.Orderly) (live : c.destroyed = false)
    (hne : c.inflight.entries.toList ≠ []) (now : Int) : c.hasLingered now = false := by
  rw [hasLingered, h.closedAt_eq_none live hne]
  rfl

end Connection

end ReliableStream
