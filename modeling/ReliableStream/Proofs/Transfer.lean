import ReliableStream.Endpoint.InMemory
import ReliableStream.Proofs.Connection.Phase
import ReliableStream.Proofs.Connection.Receiving
import ReliableStream.Proofs.Exchange

/-!
# What one side reads arrives at the other

`Transfer t a b` is what links the sending end of `a`, which is numbered by the source `t`, to the
receiving end of `b`. Whatever one of them does keeps it (`Transfer.left`, `Transfer.right`), so it
holds of all linked connections. As long as the input of `a` fits the numbering, it is the source
(`Linked.transfer`).

* `output_prefix_input`: the application at `b` gets what was read at `a`, all of it in the end.
* `retired_only_when_held`: what `b` has not delivered yet is kept on one side or the other.
-/

namespace ReliableStream

namespace Connection

variable {σ τ : Type} [Endpoint σ] [Endpoint τ]

/-- The sending end of `a` and the receiving end of `b` agree about the source `t`. -/
structure Transfer (t : Source) (a : Connection (Recorded σ)) (b : Connection (Recorded τ)) :
    Prop where
  sending : a.Sending t
  phase : a.PhaseAgrees
  receiving : b.Receiving t a.inflight.sent
  acking : b.Acking
  acked_le : a.inflight.acked ≤ b.received.expected

variable {a a' : Connection (Recorded σ)} {b b' : Connection (Recorded τ)} {t : Source}

omit [Endpoint σ] [Endpoint τ] in
theorem transfer_created (id id' : Nat) {config config' : Config} (valid : config.Valid)
    (valid' : config'.Valid) (inner : σ) (inner' : τ) :
    Transfer {} (created id config valid { inner })
      (created id' config' valid' { inner := inner' }) where
  sending := sending_created id valid inner
  phase := phaseAgrees_created id valid _
  receiving := {
    capacity_eq := rfl
    follows := Reassembly.follows_start _ _
    aligned := fun _ => Reassembly.aligned_start _ _
    output := rfl
    finishes := rfl }
  acking := {
    maxPayload := (numbered_created id' valid' _).maxPayload
    ackno_eq := rfl
    window_eq := by
      have hle := valid'.receiveWindow_le
      have hend : ({ capacity := config'.receiveWindow } : Reassembly).windowEnd - firstPosition =
          config'.receiveWindow := by
        unfold Reassembly.windowEnd firstPosition lastPosition
        simp only
        omega
      show config'.advertisedWindow = ({ capacity := config'.receiveWindow } : Reassembly).window
      unfold Reassembly.window Config.advertisedWindow
      rw [hend]
    speaks := ⟨fun p hp => (by cases hp), fun e he => (by cases he)⟩
    sent := fun x hx => by cases hx }
  acked_le := Nat.le_refl _

variable {g : Grant}

omit [Endpoint τ] in
theorem Transfer.left (h : Transfer t a b) (hg : ∀ s, g.hears s → SentAs b.endpoint.sent s)
    (hs : Step g a a') : ∃ u, Transfer u a' b := by
  obtain ⟨u, hsends⟩ := hs.sending h.sending
  refine ⟨u, hsends.sending, hs.phaseAgrees h.phase,
    h.receiving.mono hsends.grows hsends.sent_le, h.acking, ?_⟩
  rcases hsends.acked with heq | ⟨s, hears, heq⟩
  · rw [heq]
    exact h.acked_le
  · obtain ⟨datagram, hmem, hdecode⟩ := hg s hears
    rw [heq]
    exact ((h.acking.sent datagram hmem).of_decode hdecode).1

omit [Endpoint σ] in
theorem Transfer.right (h : Transfer t a b) (hg : ∀ s, g.hears s → SentAs a.endpoint.sent s)
    (hs : Step g b b') : Transfer t a b' ∧ b.received.Advances b'.received := by
  have hcounts := h.sending.counts
  have hheard : HeardFrom t a.inflight.sent g := by
    intro s hears
    obtain ⟨datagram, hmem, hdecode⟩ := hg s hears
    exact (h.sending.sent datagram hmem).of_decode hdecode
  have hnext : t.stream.next ≤ lastPosition := by
    rw [← hcounts.next_eq]
    exact hcounts.next_le
  obtain ⟨hreceiving, hadvances⟩ := hs.receiving hheard hnext
    (Nat.le_trans hcounts.first_le hcounts.acked_le)
    (Nat.le_trans hcounts.sent_le hcounts.next_le) h.receiving
  have hle := hadvances.expected_le
  exact ⟨⟨h.sending, h.phase, hreceiving,
    hs.acking hle hadvances.edge_le h.acking, Nat.le_trans h.acked_le hle⟩,
    hadvances⟩

omit [Endpoint σ] [Endpoint τ] in
theorem Transfer.adjust_left (h : Transfer t a b) (inner : σ) :
    Transfer t { a with endpoint := { a.endpoint with inner } } b := by
  obtain ⟨hsending, hphase, hreceiving, hacking, hacked⟩ := h
  exact ⟨hsending.adjust inner, ⟨hphase.finSent, hphase.finAcked, hphase.closed⟩, hreceiving,
    hacking, hacked⟩

omit [Endpoint σ] [Endpoint τ] in
theorem Transfer.adjust_right (h : Transfer t a b) (inner : τ) :
    Transfer t a { b with endpoint := { b.endpoint with inner } } := by
  obtain ⟨hsending, hphase, hreceiving, hacking, hacked⟩ := h
  exact ⟨hsending, hphase, ⟨hreceiving.capacity_eq, hreceiving.follows, hreceiving.aligned,
    hreceiving.output, hreceiving.finishes⟩, ⟨hacking.maxPayload, hacking.ackno_eq,
    hacking.window_eq, hacking.speaks, hacking.sent⟩, hacked⟩

theorem Linked.exists_transfer (h : Linked a b) : ∃ t, Transfer t a b := by
  obtain ⟨id, id', valid, valid', inner, inner', hexchange⟩ := h
  exact hexchange.rule (I := fun a b => ∃ t, Transfer t a b)
    (fun hg hs ⟨_, h⟩ => h.left hg hs) (fun hg hs ⟨t, h⟩ => ⟨t, (h.right hg hs).1⟩)
    (fun inner ⟨t, h⟩ => ⟨t, h.adjust_left inner⟩) (fun inner ⟨t, h⟩ => ⟨t, h.adjust_right inner⟩)
    ⟨{}, transfer_created id id' valid valid' inner inner'⟩

/-- Whatever is done on one side or on the other, the two agree about what was read. -/
theorem Linked.transfer (h : Linked a b) (hf : a.Fits) : Transfer a.source a b := by
  obtain ⟨t, htransfer⟩ := h.exists_transfer
  obtain rfl := htransfer.sending.source_eq hf
  exact htransfer

/-- The output that was taken at `b` is the beginning of the input that was read at `a`. It was
ended at most once, and only when the input had ended and all of it was taken. -/
theorem output_prefix_input (h : Linked a b) (hf : a.Fits) :
    b.endpoint.output <+: a.endpoint.input ∧ b.endpoint.finishes ≤ 1 ∧
      (0 < b.endpoint.finishes →
        a.endpoint.inputEnded = true ∧ b.endpoint.output = a.endpoint.input) := by
  have htransfer := h.transfer hf
  have hreceiving := htransfer.receiving
  have hfollows := hreceiving.follows_stream
  refine ⟨?_, ?_, fun hpos => ?_⟩
  · rw [hreceiving.output]
    exact List.take_prefix _ _
  · rw [hreceiving.finishes]
    exact b.received.finished.toNat_le
  · have hfinished : b.received.finished = true := by
      rw [hreceiving.finishes] at hpos
      cases hb : b.received.finished with
      | true => rfl
      | false =>
        rw [hb] at hpos
        cases hpos
    have hstop := hfollows.finished_iff.mp hfinished
    have hdel := hfollows.delivered_le
    refine ⟨htransfer.sending.ended ?_, ?_⟩
    · rcases hfollows.expected_le with hle | ⟨hfin, -⟩
      · omega
      · exact (hfollows.fin_eq _ hfin).1
    · rw [hreceiving.output, Stream.before_stop (Nat.le_of_lt hstop)]
      rfl

/-! ### Two letters

One side reads two letters and the end of its input, and sends them. The other side gets the FIN
first. -/

def talker : Connection (Recorded InMemory) :=
  ((created 1 {} valid_default { inner := { input := [97, 98], inputClosed := true } }).move
    (.deed (.read 0 true))).move (.deed (.senderTurn 0))

/-- The datagram that the connection sent as number `n`. -/
def said (c : Connection (Recorded InMemory)) (n : Nat) : Bytes := c.endpoint.sent[n]?.getD []

def listener : Connection (Recorded InMemory) :=
  ((created 2 {} valid_default { inner := {} }).move (.deed (.receive (talker.said 1) 0))).move
    (.deed (.receive (talker.said 0) 0))

theorem linked_talker_listener : Linked talker listener := by
  refine .right (.right (.left (.left (.created 1 2 valid_default valid_default _ _) ?_) ?_) ?_) ?_
  · trivial
  · trivial
  · exact .inl (by decide +kernel)
  · exact .inl (by decide +kernel)

theorem letters_arrive : Linked talker listener ∧ talker.Fits ∧ 0 < listener.endpoint.finishes ∧
    talker.endpoint.inputEnded = true ∧ listener.endpoint.output = [97, 98] := by
  have hfits : talker.Fits := by
    unfold Fits
    decide +kernel
  have hfinishes : 0 < listener.endpoint.finishes := by decide +kernel
  obtain ⟨hended, hout⟩ := (output_prefix_input linked_talker_listener hfits).2.2 hfinishes
  refine ⟨linked_talker_listener, hfits, hfinishes, hended, ?_⟩
  rw [hout]
  decide +kernel

/-- The peer has what is at position `p`, or it is in a packet in flight or in one that waits. -/
def Held (a : Connection (Recorded σ)) (b : Connection (Recorded τ)) (p : Nat) (i : Item) : Prop :=
  b.received.Holds p i ∨ (∃ e ∈ a.inflight.entries.toList, e.segment.item? p = some i) ∨
    ∃ q ∈ a.outbound.queue.toList, q.segment.item? p = some i

omit [Endpoint σ] [Endpoint τ] in
theorem Transfer.expected_le_sent (h : Transfer t a b) :
    b.received.expected ≤ a.inflight.sent := by
  have hcounts := h.sending.counts
  exact Nat.le_trans h.receiving.follows.expected_le_next
    (t.next_upTo_le (Nat.le_trans hcounts.first_le hcounts.acked_le))

omit [Endpoint σ] [Endpoint τ] in
/-- Every position that the peer has not delivered is held somewhere. -/
theorem Transfer.held (h : Transfer t a b) (ha : a.destroyed = false) (hb : b.destroyed = false)
    {p : Nat} (hd : b.received.delivered ≤ p) (hp : p < a.outbound.next) :
    ∃ i, t.stream.item? p = some i ∧ Held a b p i := by
  have hcounts := h.sending.counts
  have hconveys := h.sending.conveys ha
  have hfollows := h.receiving.follows_stream
  have hkeeps := (h.receiving.aligned hb).keeps hfollows
  rw [hcounts.next_eq] at hp
  obtain ⟨i, hi⟩ := Stream.item?_eq_some (Nat.le_trans hfollows.first_le hd) hp
  refine ⟨i, hi, ?_⟩
  by_cases hexp : p < b.received.expected
  · exact .inl (hfollows.holds hkeeps hi hd hexp)
  · right
    by_cases hsent : p < a.inflight.sent
    · left
      obtain ⟨lo, hlo, hflying⟩ := hconveys.flying
      have := h.acked_le
      obtain ⟨e, he, hstart, hstop⟩ := hflying.exists_mem (x := p) (by omega) hsent
      have hcarried := (hconveys.speaks.flying e he).2.2
      exact ⟨e, he, (hcarried.item?_eq hstart hstop).trans hi⟩
    · right
      have hwaiting := hconveys.waiting
      rw [hcounts.next_eq] at hwaiting
      obtain ⟨q, hq, hstart, hstop⟩ := hwaiting.exists_mem (x := p) (by omega) hp
      have hcarried := (hconveys.speaks.waiting q hq).2.2
      exact ⟨q, hq, (hcarried.item?_eq hstart hstop).trans hi⟩

omit [Endpoint σ] [Endpoint τ] in
/-- When our FIN is acknowledged the peer has received everything. -/
theorem Transfer.all_received (h : Transfer t a b) {fin : Nat} (hf : a.outbound.fin = some fin)
    (hlt : fin < a.inflight.acked) :
    b.received.expected = fin + 1 ∧ b.received.fin = some fin := by
  have hcounts := h.sending.counts
  have hfollows := h.receiving.follows_stream
  have hstop := hcounts.fin_eq fin hf
  have hacked := h.acked_le
  rcases hfollows.expected_le with hle | ⟨hfin, heq⟩
  · omega
  · rw [hstop]
    exact ⟨heq, hfin⟩

/-- No position is given up before the peer holds what is there. What is acknowledged was received,
what was received was sent, and what was sent was numbered. Everything between the next position
that `b` delivers and the next that `a` numbers is held on one side. Once the FIN of `a` is
acknowledged, `b` has delivered or holds all of it. -/
theorem retired_only_when_held (h : Linked a b) (hf : a.Fits) (ha : a.destroyed = false)
    (hb : b.destroyed = false) :
    (a.inflight.acked ≤ b.received.expected ∧ b.ackno = b.received.expected ∧
      b.received.expected ≤ a.inflight.sent ∧ a.inflight.sent ≤ a.outbound.next) ∧
    (∀ p, b.received.delivered ≤ p → p < a.outbound.next →
      ∃ i, a.source.stream.item? p = some i ∧ Held a b p i) ∧
    (a.phase = .finAcked ∨ a.phase = .closed → ∃ fin, a.outbound.fin = some fin ∧
      b.received.expected = fin + 1 ∧ b.received.fin = some fin ∧
      b.endpoint.output = a.endpoint.input.take (b.received.delivered - firstPosition) ∧
      ∀ p, b.received.delivered ≤ p → p < fin →
        ∃ v, a.source.stream.byte? p = some v ∧ b.received.Has p v) := by
  have htransfer := h.transfer hf
  have hcounts := htransfer.sending.counts
  have hfollows := htransfer.receiving.follows_stream
  refine ⟨⟨htransfer.acked_le, htransfer.acking.ackno_eq, htransfer.expected_le_sent,
    hcounts.sent_le⟩, fun p hd hp => htransfer.held ha hb hd hp, fun hphase => ?_⟩
  have hsent : a.phase.isFinSent = true ∧ a.phase.awaitsFinAck = false := by
    rcases hphase with heq | heq
    · rw [heq]
      exact ⟨rfl, rfl⟩
    · rw [heq]
      exact ⟨rfl, rfl⟩
  obtain ⟨fin, hfin, hlt⟩ := htransfer.phase.finAcked ha hsent.1 hsent.2
  obtain ⟨hexp, hrecorded⟩ := htransfer.all_received hfin hlt
  refine ⟨fin, hfin, hexp, hrecorded, htransfer.receiving.output, fun p hd hp => ?_⟩
  have hstop := hcounts.fin_eq fin hfin
  obtain ⟨v, hv⟩ := Stream.byte?_eq_some (Nat.le_trans hfollows.first_le hd)
    (show p < a.source.stream.stop by omega)
  exact ⟨v, hv, (htransfer.receiving.aligned hb).keeps hfollows p v hd (by omega) hv⟩

/-- The FIN is acknowledged, and the peer has all that comes before it. -/
theorem letters_held : Linked (talker.perform (.receive (listener.said 1) 0)) listener ∧
    listener.received.expected = 4 ∧ listener.received.fin = some 3 := by
  have hlinked : Linked (talker.perform (.receive (listener.said 1) 0)) listener :=
    linked_talker_listener.left (m := .deed (.receive (listener.said 1) 0))
      (.inl (by decide +kernel))
  have hfits : (talker.perform (.receive (listener.said 1) 0)).Fits := by
    unfold Fits
    decide +kernel
  have hphase : (talker.perform (.receive (listener.said 1) 0)).phase = .finAcked := by
    decide +kernel
  obtain ⟨fin, hfin, hexp, hrecorded, -⟩ := (retired_only_when_held hlinked hfits
    (by decide +kernel) (by decide +kernel)).2.2 (.inl hphase)
  have hthree : (talker.perform (.receive (listener.said 1) 0)).outbound.fin = some 3 := by
    decide +kernel
  obtain rfl : 3 = fin := Option.some.inj (hthree.symm.trans hfin)
  exact ⟨hlinked, hexp, hrecorded⟩

end Connection

end ReliableStream
