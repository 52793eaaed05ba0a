import ReliableStream.Proofs.Connection.Deed
import ReliableStream.Proofs.Sending.Accounting

/-!
# What a connection has numbered

A connection is `Numbered` by a source if its numbering, its queue and its packets in flight agree
with that source. Each kind of step that concerns them has one lemma, and every step leaves the
connection numbered by some source (`Step.numbered`). If the number of bytes in flight is right, it
stays so too (`Step.metered`).
-/

namespace ReliableStream

namespace Connection

variable {σ : Type} {t : Source} {c d : Connection σ}

structure Numbered (t : Source) (c : Connection σ) : Prop where
  maxPayload : c.outbound.numbering.maxPayload = c.config.maxPayload
  counts : Counts t c.outbound c.inflight
  conveys : c.destroyed = false → Conveys t c.outbound c.inflight
  cleared : c.destroyed = true → c.inflight.entries.toList = []

theorem numbered_created (id : Nat) {config : Config} (valid : config.Valid) (endpoint : σ) :
    (created id config valid endpoint).Numbered {} where
  maxPayload := Nat.min_eq_left valid.maxPayload_le
  counts := ⟨rfl, rfl, fun n hn => (by cases hn), show firstPosition ≤ lastPosition by decide,
    Nat.le_refl _, Nat.le_refl _, Nat.le_refl _⟩
  conveys _ := ⟨⟨fun p hp => (by cases hp), fun e he => (by cases he)⟩, rfl,
    ⟨firstPosition, Nat.le_refl _, rfl⟩, fun e he => by cases he⟩
  cleared h := by cases h

namespace Numbered

/-- Only the sending end matters. -/
theorem congr (h : c.Numbered t) (hout : d.outbound = c.outbound) (hinf : d.inflight = c.inflight)
    (hconfig : d.config = c.config) (hlive : d.destroyed = c.destroyed) : d.Numbered t := by
  obtain ⟨hmax, hcounts, hconveys, hcleared⟩ := h
  rw [← hout, ← hconfig] at hmax
  rw [← hout, ← hinf] at hcounts
  rw [← hout, ← hinf, ← hlive] at hconveys
  rw [← hinf, ← hlive] at hcleared
  exact ⟨hmax, hcounts, hconveys, hcleared⟩

theorem setWindow (h : c.Numbered t) (live : c.destroyed = false) (window : UInt16) :
    Numbered t { c with outbound := c.outbound.setWindow window } where
  maxPayload := h.maxPayload
  counts := h.counts.congr rfl rfl rfl rfl
  conveys _ := (h.conveys live).setWindow window
  cleared := h.cleared

theorem queueData {payload : Bytes} {ackno : UInt32} {seqno : Nat} {endpoint : σ}
    {outbound : Outbound} (h : c.Numbered t) (live : c.destroyed = false)
    (hq : c.outbound.queueData payload ackno = .ok (seqno, outbound)) (hne : payload ≠ []) :
    Numbered (t.add payload) { c with endpoint, outbound } where
  maxPayload := by
    obtain ⟨-, -, -, rfl⟩ := Outbound.queueData_eq_ok hq
    exact h.maxPayload
  counts := h.counts.queueData hq
  conveys _ := by
    have hmax : c.outbound.numbering.maxPayload ≤ Segment.maxPayload := by
      rw [h.maxPayload]
      exact c.valid.maxPayload_le
    exact (h.conveys live).queueData h.counts hq hne hmax
  cleared := h.cleared

theorem queueFin {ackno : UInt32} {seqno : Nat} {endpoint : σ} {outbound : Outbound}
    {phase : Phase} (h : c.Numbered t) (live : c.destroyed = false)
    (hq : c.outbound.queueFin ackno = .ok (seqno, outbound)) :
    Numbered t.finish { c with endpoint, outbound, phase } where
  maxPayload := by
    obtain ⟨-, -, rfl⟩ := Outbound.queueFin_eq_ok hq
    exact h.maxPayload
  counts := h.counts.queueFin hq
  conveys _ := (h.conveys live).queueFin h.counts hq
  cleared := h.cleared

theorem send {p : Packet} {outbound : Outbound} {endpoint : σ} (h : c.Numbered t)
    (live : c.destroyed = false) (now : Int)
    (hp : c.outbound.pop? c.inflight c.config.sendWindow = some (p, outbound)) :
    Numbered t { c with outbound, inflight := (c.inflight.insert p now).2, endpoint } := by
  obtain ⟨hconveys, hcounts, -⟩ := (h.conveys live).pop h.counts hp now
  refine ⟨?_, hcounts, fun _ => hconveys, fun hd => ?_⟩
  · rw [show outbound.numbering = c.outbound.numbering from Outbound.numbering_of_pop? hp]
    exact h.maxPayload
  · rw [show c.destroyed = true from hd] at live
    cases live

theorem restamp (h : c.Numbered t) (live : c.destroyed = false) (now : Int) :
    Numbered t { c with inflight := (c.inflight.resendOverdue now c.config).2 } where
  maxPayload := h.maxPayload
  counts := h.counts.congr rfl rfl rfl rfl
  conveys _ := (h.conveys live).of_content
    (SentPacket.map_content_resendOverdue now c.config c.inflight.entries.toList) rfl rfl
  cleared hd := by
    rw [show c.destroyed = true from hd] at live
    cases live

theorem acknowledge (h : c.Numbered t) (live : c.destroyed = false) (ackno : Nat)
    (window : UInt16) : Numbered t { c with inflight :=
      ((c.inflight.acknowledge ackno).2.noteWindow ackno window).2 } where
  maxPayload := h.maxPayload
  counts := (h.counts.acknowledge _).congr rfl rfl (Inflight.acked_noteWindow ..)
    (Inflight.sent_noteWindow ..)
  conveys _ := ((h.conveys live).acknowledge _).of_content (Inflight.map_content_noteWindow ..)
    (Inflight.acked_noteWindow ..) (Inflight.sent_noteWindow ..)
  cleared hd := by
    rw [show c.destroyed = true from hd] at live
    cases live

theorem destroy [Endpoint σ] (h : c.Numbered t) : c.destroy.Numbered t := by
  unfold Connection.destroy
  split
  · exact h
  · exact ⟨h.maxPayload, h.counts.congr rfl rfl rfl rfl, fun hd => (by cases hd), fun _ => rfl⟩

end Numbered

variable [Endpoint σ] {g : Grant}

/-- A connection that is numbered stays so, as its source goes on. -/
theorem Step.numbered (h : Step g c d) (hc : c.Numbered t) : ∃ u, d.Numbered u := by
  cases h with
  | setWindow live window => exact ⟨t, hc.setWindow live window⟩
  | queue live hread hne hq => exact ⟨_, hc.queueData live hq hne⟩
  | finish live hread hend hq => exact ⟨_, hc.queueFin live hq⟩
  | send live hg now hpop => exact ⟨t, hc.send live now hpop⟩
  | restamp live hg now => exact ⟨t, hc.restamp live now⟩
  | @acknowledge s live hs hack => exact ⟨t, hc.acknowledge live s.ackno.toNat s.window⟩
  | deliver live =>
    obtain ⟨received, endpoint, ackno, window, heq⟩ := c.deliver_eq
    rw [heq]
    exact ⟨t, hc.congr rfl rfl rfl rfl⟩
  | destroy live => exact ⟨t, hc.destroy⟩
  | _ => exact ⟨t, hc.congr rfl rfl rfl rfl⟩

theorem Step.metered (h : Step g c d) (hc : c.Numbered t)
    (hm : Metered c.inflight c.config.sendWindow) : Metered d.inflight d.config.sendWindow := by
  cases h with
  | send live hg now hp => exact hm.pop (hc.conveys live) hc.counts hp now
  | restamp live hg now => exact hm.resendOverdue now c.config
  | acknowledge live hs hack => exact (hm.acknowledge _).noteWindow _ _
  | deliver live =>
    obtain ⟨received, endpoint, ackno, window, heq⟩ := c.deliver_eq
    rw [heq]
    exact hm
  | destroy live =>
    rw [Connection.destroy, if_neg (by simp [live])]
    exact .clear _ _
  | _ => exact hm

end Connection

end ReliableStream
