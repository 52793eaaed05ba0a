import ReliableStream.Proofs.Connection.Deed

/-!
# What the phase of a connection means

An event that can happen leads to the phase that it is to lead to (`exists_localFin`,
`exists_finAcked`, `exists_peerFin`).

As long as a connection is not destroyed, its phase says whether its FIN is queued and whether it is
acknowledged, and only a closed connection has a time at which it was closed (`PhaseAgrees`).
-/

namespace ReliableStream

namespace Phase

variable {p q : Phase}

/-- The peer has finished. -/
def isPeerFin : Phase → Bool
  | closeWait | lastAck | closing | closed => true
  | _ => false

theorem isPeerFin_iff : p.isPeerFin = true ↔ p ∈ [closeWait, lastAck, closing, closed] := by
  cases p <;> simp [isPeerFin]

theorem exists_localFin (h : p.isFinSent = false) : ∃ q, p.on? .localFin = some q ∧
    q.isFinSent = true ∧ q.awaitsFinAck = true ∧ q.isPeerFin = p.isPeerFin := by
  cases p with
  | established => exact ⟨finSent, rfl, rfl, rfl, rfl⟩
  | closeWait => exact ⟨lastAck, rfl, rfl, rfl, rfl⟩
  | _ => cases h

theorem exists_finAcked (h : p.awaitsFinAck = true) : ∃ q, p.on? .finAcked = some q ∧
    q.isFinSent = true ∧ q.awaitsFinAck = false ∧ q.isPeerFin = p.isPeerFin := by
  cases p with
  | finSent => exact ⟨finAcked, rfl, rfl, rfl, rfl⟩
  | lastAck => exact ⟨closed, rfl, rfl, rfl, rfl⟩
  | closing => exact ⟨closed, rfl, rfl, rfl, rfl⟩
  | _ => cases h

/-- The peer's FIN says nothing about ours. -/
theorem exists_peerFin (h : p.isPeerFin = false) : ∃ q, p.on? .peerFin = some q ∧
    q.isFinSent = p.isFinSent ∧ q.awaitsFinAck = p.awaitsFinAck ∧ q.isPeerFin = true := by
  cases p with
  | established => exact ⟨closeWait, rfl, rfl, rfl, rfl⟩
  | finSent => exact ⟨closing, rfl, rfl, rfl, rfl⟩
  | finAcked => exact ⟨closed, rfl, rfl, rfl, rfl⟩
  | _ => cases h

/-- Only a FIN that is waited for is acknowledged. -/
theorem awaitsFinAck_of_on? (h : p.on? .finAcked = some q) : p.awaitsFinAck = true := by
  cases p with
  | finSent | lastAck | closing => rfl
  | _ => cases h

/-- The peer finishes only once. -/
theorem isPeerFin_of_on? (h : p.on? .peerFin = some q) : p.isPeerFin = false := by
  cases p with
  | established | finSent | finAcked => rfl
  | _ => cases h

/-- Nothing happens to a closed connection. -/
theorem ne_closed_of_on? {event : TeardownEvent} (h : p.on? event = some q) : p ≠ closed := by
  rintro rfl
  cases h

/-- A FIN that is waited for was sent. -/
theorem isFinSent_of_awaitsFinAck (h : p.awaitsFinAck = true) : p.isFinSent = true := by
  cases p with
  | finSent | lastAck | closing => rfl
  | _ => cases h

end Phase

namespace Inflight

@[simp] theorem acked_insert (f : Inflight) (p : Packet) (now : Int) :
    (f.insert p now).2.acked = f.acked := by
  unfold insert
  split <;> rfl

theorem acked_le_acknowledge (f : Inflight) (ackno : Nat) :
    f.acked ≤ (f.acknowledge ackno).2.acked := by
  rcases f.acknowledge_cases ackno with heq | ⟨hlt, -, bytes, heq⟩
  · rw [heq]
  · rw [heq]
    exact Nat.le_of_lt hlt

end Inflight

namespace Connection

variable {σ : Type} [Endpoint σ] {g : Grant} {c d : Connection σ}

structure PhaseAgrees (c : Connection σ) : Prop where
  finSent : c.destroyed = false → c.phase.isFinSent = c.outbound.fin.isSome
  finAcked : c.destroyed = false → c.phase.isFinSent = true → c.phase.awaitsFinAck = false →
    ∃ fin, c.outbound.fin = some fin ∧ fin < c.inflight.acked
  closed : c.destroyed = false → c.closedAt.isSome = true → c.phase = .closed

omit [Endpoint σ] in
theorem phaseAgrees_created (id : Nat) {config : Config} (valid : config.Valid) (endpoint : σ) :
    (created id config valid endpoint).PhaseAgrees :=
  ⟨fun _ => rfl, fun _ hf => (by cases hf), fun _ hc => (by cases hc)⟩

theorem Step.phaseAgrees (h : Step g c d) (hc : c.PhaseAgrees) : d.PhaseAgrees := by
  obtain ⟨hfin, hacked, hclosed⟩ := hc
  cases h with
  | queue live hread hne hq =>
    obtain ⟨hnone, -, -, rfl⟩ := Outbound.queueData_eq_ok hq
    exact ⟨hfin, hacked, hclosed⟩
  | finish live hread hend hq =>
    obtain ⟨hnone, -, rfl⟩ := Outbound.queueFin_eq_ok hq
    have hunsent := hfin live
    rw [hnone] at hunsent
    obtain ⟨q, hon, hsent, hawaits, -⟩ := Phase.exists_localFin hunsent
    refine ⟨fun _ => ?_, fun _ _ hna => ?_, fun _ hat => ?_⟩
    · simp only [hon, Option.getD_some]
      exact hsent
    · simp only [hon, Option.getD_some] at hna
      rw [hawaits] at hna
      cases hna
    · have hshut := hclosed live hat
      rw [hshut] at hunsent
      cases hunsent
  | send live _ now hpop =>
    have hnumbering := Outbound.numbering_of_pop? hpop
    refine ⟨fun hd => ?_, fun hd hsent hna => ?_, hclosed⟩
    · simp only [Outbound.fin, hnumbering]
      exact hfin hd
    · simp only [Outbound.fin, hnumbering, Inflight.acked_insert]
      exact hacked hd hsent hna
  | acknowledge live hs hack =>
    refine ⟨hfin, fun hd hsent hna => ?_, hclosed⟩
    obtain ⟨fin, hf, hlt⟩ := hacked hd hsent hna
    rw [Inflight.acked_noteWindow]
    exact ⟨fin, hf, Nat.lt_of_lt_of_le hlt (Inflight.acked_le_acknowledge _ _)⟩
  | finAcked live hf hlt hon hat =>
    have hawaits := Phase.awaitsFinAck_of_on? hon
    obtain ⟨q, hq, hafter, -⟩ := Phase.exists_finAcked hawaits
    obtain rfl := Option.some.inj (hon.symm.trans hq)
    refine ⟨fun hd => ?_, fun _ _ _ => ⟨_, hf, hlt⟩, fun hd hsome => ?_⟩
    · rw [hafter, ← Phase.isFinSent_of_awaitsFinAck hawaits]
      exact hfin hd
    · rcases hat with hat | hat
      · rw [hat] at hsome
        exact absurd (hclosed hd hsome) (Phase.ne_closed_of_on? hon)
      · exact hat
  | peerFin live hon hat =>
    obtain ⟨q, hq, hsame, hawaits, -⟩ := Phase.exists_peerFin (Phase.isPeerFin_of_on? hon)
    obtain rfl := Option.some.inj (hon.symm.trans hq)
    refine ⟨fun hd => ?_, fun hd hsent hna => ?_, fun hd hsome => ?_⟩
    · rw [hsame]
      exact hfin hd
    · rw [hsame] at hsent
      rw [hawaits] at hna
      exact hacked hd hsent hna
    · rcases hat with hat | hat
      · rw [hat] at hsome
        exact absurd (hclosed hd hsome) (Phase.ne_closed_of_on? hon)
      · exact hat
  | deliver live =>
    obtain ⟨received, endpoint, ackno, window, heq⟩ := c.deliver_eq
    rw [heq]
    exact ⟨hfin, hacked, hclosed⟩
  | destroy live =>
    have habsurd : c.destroy.destroyed ≠ false := by simp [destroyed_destroy]
    exact ⟨fun hd => absurd hd habsurd, fun hd => absurd hd habsurd, fun hd => absurd hd habsurd⟩
  | _ => exact ⟨hfin, hacked, hclosed⟩

end Connection

end ReliableStream
