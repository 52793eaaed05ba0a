import ReliableStream.Proofs.Connection.Sending
import ReliableStream.Proofs.Receiving.Alignment
import ReliableStream.Proofs.Receiving.Window

/-!
# What a connection receives

* `Receiving t n`: the buffer agrees with what the peer, whose source is `t`, has sent before
  position `n`; the output that was taken is what the peer's stream has before the next position to
  deliver, and it was ended if the peer's FIN was delivered.
* `Acking`: no datagram that the connection ever sent promises more than the buffer stands for: it
  acknowledges no more than was received, and the window that it advertises ends no later than the
  buffer's does now.

Every step keeps both (`Step.receiving`, `Step.acking`), if the segments heard are what the peer has
sent.
-/

namespace ReliableStream

/-! ## Output -/

section

variable {σ : Type} [Endpoint σ] {t : Stream} {r : Reassembly} {e : Recorded σ}

/-- The sink gets the bytes that come next. -/
theorem Recorded.output_drain (h : r.Follows t) (ho : e.output = t.before r.delivered) :
    (drain Endpoint.deliver r.acked r.delivered e).sink.output =
        t.before (drain Endpoint.deliver r.acked r.delivered e).position ∧
      (drain Endpoint.deliver r.acked r.delivered e).sink.finishes = e.finishes := by
  let P : Nat → Recorded σ → Prop := fun p f =>
    f.output = t.before p ∧ f.finishes = e.finishes
  refine drain_rule (P := P) (t := t) ?_ (fun f hf => (h.acked f hf).2.1) ⟨ho, rfl⟩
  rintro p offered f - hat ⟨hout, hfin⟩
  refine ⟨?_, hfin⟩
  show f.output ++ offered.take (Endpoint.deliver f offered).1 = _
  rw [hout]
  generalize (Endpoint.deliver f offered).1 = answer
  rw [← List.length_take]
  by_cases hnil : offered.take answer = []
  · rw [hnil, List.append_nil]
    rfl
  · exact Stream.before_append (hat.take answer) hnil

/-- So it does when the end is delivered after the last of them. -/
theorem Recorded.output_deliver (h : r.Follows t) (ht : t.next ≤ lastPosition)
    (ho : e.output = t.before r.delivered) :
    (r.deliver Endpoint.deliver e).2.2.output =
        t.before (r.deliver Endpoint.deliver e).2.1.delivered ∧
      (r.deliver Endpoint.deliver e).2.2.finishes = e.finishes ∧
      (r.deliver Endpoint.deliver e).2.1.finished.toNat =
        r.finished.toNat + (r.deliver Endpoint.deliver e).1.eof.toNat := by
  obtain ⟨hout, hfin⟩ := Recorded.output_drain h ho
  obtain ⟨hsink, hcases⟩ := h.deliver_cases Endpoint.deliver e ht
  simp only at hsink hcases
  rw [hsink]
  rcases hcases with ⟨heof, heq, -⟩ | ⟨heof, -, hun, -, hstop, -, heq⟩
  · rw [heq, heof]
    exact ⟨hout, hfin, rfl⟩
  · rw [heq, heof, hun]
    refine ⟨?_, hfin, rfl⟩
    rw [hout, hstop, Stream.before_stop (Nat.le_refl _), Stream.before_stop (Nat.le_succ _)]

end

namespace Connection

variable {σ : Type} [Endpoint σ] {g : Grant} {c d : Connection (Recorded σ)}
  {t u : Source} {n m : Nat}

structure Receiving (t : Source) (n : Nat) (c : Connection (Recorded σ)) : Prop where
  capacity_eq : c.received.capacity = c.config.receiveWindow
  follows : c.received.Follows (t.upTo n)
  aligned : c.destroyed = false → c.received.Aligned t
  output : c.endpoint.output = t.stream.before c.received.delivered
  finishes : c.endpoint.finishes = c.received.finished.toNat

omit [Endpoint σ] in
theorem Receiving.follows_stream (h : c.Receiving t n) : c.received.Follows t.stream :=
  h.follows.mono (t.upTo_growsTo_stream n)

omit [Endpoint σ] in
/-- The peer reads more and sends more. -/
theorem Receiving.mono (h : c.Receiving t n) (hg : t.GrowsTo u) (hn : n ≤ m) :
    c.Receiving u m := by
  have hr := h.follows_stream
  refine ⟨h.capacity_eq, h.follows.mono (Source.upTo_growsTo hg hn),
    fun hd => (h.aligned hd).mono hr hg, ?_, h.finishes⟩
  rw [h.output]
  rcases hr.expected_le with hle | ⟨hfin, -⟩
  · exact (Stream.before_mono hg.stream (Nat.le_trans hr.delivered_le hle)).symm
  · rw [hg.ended (hr.fin_eq _ hfin).1]

/-- What was heard may have been sent by a peer with the source `t` that has sent all before
position `n`. -/
def HeardFrom (t : Source) (n : Nat) (g : Grant) : Prop :=
  ∀ s, g.hears s → s.isBareAck = true ∨ t.Carries s ∧ s.start + s.span ≤ n

omit [Endpoint σ] in
/-- A segment from the peer is taken in. -/
theorem Receiving.insert {s : Segment} (hc : c.Receiving t n) (live : c.destroyed = false)
    (hcarried : t.Carries s) (hstop : s.start + s.span ≤ n) (ht : t.stream.next ≤ lastPosition)
    (hfirst : firstPosition ≤ n) (hn : n ≤ lastPosition) :
    Receiving t n { c with received := (c.received.insert s).2 }.readvertise ∧
      c.received.Advances (c.received.insert s).2 := by
  have hslice := hcarried.sliceOf_upTo hstop
  have hnext : (t.upTo n).next ≤ lastPosition := Nat.le_trans (t.next_upTo_le hfirst) hn
  obtain ⟨gone, -, hdelivered, -⟩ := hc.follows.insert_acked hnext hslice
  have hfinished : (c.received.insert s).2.finished = c.received.finished :=
    Reassembly.finished_insert _ _
  refine ⟨⟨?_, hc.follows.insert hnext hslice, fun _ => ?_, ?_, ?_⟩,
    hc.follows.advances_insert hnext hslice⟩
  · exact (Reassembly.capacity_insert _ _).trans hc.capacity_eq
  · exact (hc.aligned live).insert hc.follows_stream ht hcarried
      (hslice.mono (t.upTo_growsTo_stream n))
  · show c.endpoint.output = t.stream.before (c.received.insert s).2.delivered
    rw [hdelivered]
    exact hc.output
  · show c.endpoint.finishes = (c.received.insert s).2.finished.toNat
    rw [hfinished]
    exact hc.finishes

/-- The application gets what it can get next. -/
theorem Receiving.deliver (hc : c.Receiving t n) (live : c.destroyed = false)
    (ht : t.stream.next ≤ lastPosition) (hfirst : firstPosition ≤ n) (hn : n ≤ lastPosition) :
    c.deliver.2.Receiving t n ∧ c.received.Advances c.deliver.2.received := by
  have hnext : (t.upTo n).next ≤ lastPosition := Nat.le_trans (t.next_upTo_le hfirst) hn
  obtain ⟨hout, hfin, hfinished⟩ := Recorded.output_deliver hc.follows_stream ht hc.output
  have hadvances := hc.follows.advances_deliver Endpoint.deliver c.endpoint hnext
  rw [deliver_of_live live]
  refine ⟨⟨hadvances.capacity_eq.trans hc.capacity_eq, hc.follows.deliver _ _ hnext,
    fun _ => (hc.aligned live).deliver hc.follows_stream ht, ?_, ?_⟩, hadvances⟩
  · show (if _ then _ else _ : Recorded σ).output = _
    split
    · exact hout
    · exact hout
  · show (if _ then _ else _ : Recorded σ).finishes =
      (c.received.deliver Endpoint.deliver c.endpoint).2.1.finished.toNat
    rw [hfinished, ← hc.finishes]
    split
    next heof =>
      rw [heof]
      show _ + 1 = _
      rw [hfin]
      rfl
    next heof =>
      rw [Bool.not_eq_true] at heof
      rw [heof]
      exact hfin

/-- Every step keeps the receiving end in agreement with what the peer has sent. -/
theorem Step.receiving (h : Step g c d) (hheard : HeardFrom t n g)
    (ht : t.stream.next ≤ lastPosition) (hfirst : firstPosition ≤ n) (hn : n ≤ lastPosition)
    (hc : c.Receiving t n) :
    d.Receiving t n ∧ c.received.Advances d.received := by
  have hread : ∀ {buffer : Bytes} {reading : Reading} {e : Recorded σ},
      Endpoint.read c.endpoint buffer = (reading, e) →
      e.output = c.endpoint.output ∧ e.finishes = c.endpoint.finishes := by
    intro buffer reading e hread
    obtain ⟨inner, rfl⟩ := Recorded.read_eq hread
    exact ⟨rfl, rfl⟩
  cases h with
  | pause _ hr | queue _ hr | refuse _ _ hr | finish _ hr =>
    exact ⟨⟨hc.capacity_eq, hc.follows, hc.aligned, (hread hr).1.trans hc.output,
      (hread hr).2.trans hc.finishes⟩, .refl _⟩
  | insert live hs hdata =>
    rcases hheard _ hs with hbare | ⟨hcarried, hstop⟩
    · rw [hdata] at hbare
      cases hbare
    · exact hc.insert live hcarried hstop ht hfirst hn
  | deliver live => exact hc.deliver live ht hfirst hn
  | destroy live =>
    rw [Connection.destroy, if_neg (by simp [live])]
    exact ⟨⟨hc.capacity_eq, hc.follows.clear, fun hd => (by cases hd), hc.output, hc.finishes⟩,
      ⟨Nat.le_refl _, Nat.le_refl _, rfl⟩⟩
  | _ => exact ⟨⟨hc.capacity_eq, hc.follows, hc.aligned, hc.output, hc.finishes⟩, .refl _⟩

/-! ## Acknowledgments -/

/-- The segment acknowledges no more than what comes before position `n`, and the window that it
advertises ends by position `m`. -/
def Promises (n m : Nat) (s : Segment) : Prop :=
  s.ackno.toNat ≤ n ∧ s.ackno.toNat + s.window.toNat ≤ m

/-- The segment promises no more than the buffer stands for. -/
abbrev KeptBy (r : Reassembly) : Segment → Prop := Promises r.expected r.edge

structure Acking (c : Connection (Recorded σ)) : Prop where
  maxPayload : c.outbound.numbering.maxPayload = c.config.maxPayload
  ackno_eq : c.ackno = c.received.expected
  window_eq : c.window = c.received.window
  speaks : Speaks (KeptBy c.received) c.outbound c.inflight
  sent : ∀ datagram ∈ c.endpoint.sent, Spoken (KeptBy c.received) datagram

omit [Endpoint σ] in
/-- What the buffer stands for now may be promised. -/
theorem Acking.promises (h : c.Acking) (hw : c.outbound.numbering.window = c.window)
    (flags : Flags) (payload : Bytes) : KeptBy c.received
      (c.outbound.numbering.segment (UInt32.ofNat c.ackno) flags payload) := by
  have hackno : (UInt32.ofNat c.ackno).toNat ≤ c.received.expected := by
    rw [UInt32.toNat_ofNat', ← h.ackno_eq]
    exact Nat.mod_le _ _
  refine ⟨hackno, Nat.add_le_add hackno ?_⟩
  show c.outbound.numbering.window.toNat ≤ c.received.window.toNat
  rw [hw, h.window_eq]

omit [Endpoint σ] in
/-- The packets and the record may change, and more may be received. -/
theorem Acking.step (hc : c.Acking)
    (hmax : d.outbound.numbering.maxPayload = d.config.maxPayload)
    (hackno : d.ackno = d.received.expected) (hwindow : d.window = d.received.window)
    (hle : c.received.expected ≤ d.received.expected) (hedge : c.received.edge ≤ d.received.edge)
    (hspeaks : Speaks (KeptBy c.received) d.outbound d.inflight)
    (hnew : ∀ x ∈ d.endpoint.sent, x ∈ c.endpoint.sent ∨ Spoken (KeptBy c.received) x) :
    d.Acking := by
  have hmono : ∀ s, KeptBy c.received s → KeptBy d.received s :=
    fun s hs => ⟨Nat.le_trans hs.1 hle, Nat.le_trans hs.2 hedge⟩
  refine ⟨hmax, hackno, hwindow, hspeaks.mono hmono, fun x hx => ?_⟩
  rcases hnew x hx with hx | hx
  · exact (hc.sent x hx).mono hmono
  · exact hx.mono hmono

/-- Every step keeps the promises, if no byte that was received is forgotten and the window does not
move back. -/
theorem Step.acking (h : Step g c d) (hle : c.received.expected ≤ d.received.expected)
    (hedge : c.received.edge ≤ d.received.edge) (hc : c.Acking) : d.Acking := by
  have hmax : c.outbound.numbering.maxPayload ≤ Segment.maxPayload := by
    rw [hc.maxPayload]
    exact c.valid.maxPayload_le
  cases h with
  | setWindow live window =>
    exact hc.step hc.maxPayload hc.ackno_eq hc.window_eq hle hedge (hc.speaks.setWindow window)
      fun x hx => .inl hx
  | queue live hread hne hq hw =>
    obtain ⟨inner, rfl⟩ := Recorded.read_eq hread
    obtain ⟨-, hlen, -, rfl⟩ := Outbound.queueData_eq_ok hq
    exact hc.step hc.maxPayload hc.ackno_eq hc.window_eq hle hedge
      (hc.speaks.push (Segment.sound_sealed (Nat.le_trans hlen hmax)) (hc.promises hw _ _))
      fun x hx => .inl hx
  | finish live hread hend hq hw =>
    obtain ⟨inner, rfl⟩ := Recorded.read_eq hread
    obtain ⟨-, -, rfl⟩ := Outbound.queueFin_eq_ok hq
    exact hc.step hc.maxPayload hc.ackno_eq hc.window_eq hle hedge
      (hc.speaks.push (Segment.sound_sealed (Nat.zero_le _)) (hc.promises hw _ _))
      fun x hx => .inl hx
  | pause _ hread | refuse _ _ hread =>
    obtain ⟨inner, rfl⟩ := Recorded.read_eq hread
    exact hc.step hc.maxPayload hc.ackno_eq hc.window_eq hle hedge hc.speaks fun x hx => .inl hx
  | send live _ now hpop =>
    obtain ⟨hspeaks, hwire, hsound, hkept⟩ := hc.speaks.pop hpop now
    refine hc.step ?_ hc.ackno_eq hc.window_eq hle hedge hspeaks fun x hx => ?_
    · rw [Outbound.numbering_of_pop? hpop]
      exact hc.maxPayload
    · exact (Recorded.mem_sent_send hx).imp_right fun heq => ⟨_, hsound, hkept, heq.trans hwire⟩
  | resend live _ hflying =>
    obtain ⟨hwire, hsound, hkept⟩ := hc.speaks.flying _ hflying
    refine hc.step hc.maxPayload hc.ackno_eq hc.window_eq hle hedge hc.speaks fun x hx => ?_
    exact (Recorded.mem_sent_send hx).imp_right fun heq => ⟨_, hsound, hkept, heq.trans hwire⟩
  | restamp live _ now =>
    exact hc.step hc.maxPayload hc.ackno_eq hc.window_eq hle hedge
      (hc.speaks.of_content
        (SentPacket.map_content_resendOverdue now c.config c.inflight.entries.toList))
      fun x hx => .inl hx
  | acknowledge live hs hack =>
    exact hc.step hc.maxPayload hc.ackno_eq hc.window_eq hle hedge
      ((hc.speaks.acknowledge _).of_content (Inflight.map_content_noteWindow ..))
      fun x hx => .inl hx
  | insert live hs hdata =>
    exact hc.step hc.maxPayload rfl rfl hle hedge hc.speaks fun x hx => .inl hx
  | deliver live =>
    have hsent := (sameInput_deliver c).sent
    rw [deliver_of_live live] at hle hedge hsent ⊢
    refine hc.step hc.maxPayload rfl rfl hle hedge hc.speaks fun x hx => ?_
    rw [hsent] at hx
    exact .inl hx
  | answer live hg hw =>
    refine hc.step hc.maxPayload hc.ackno_eq hc.window_eq hle hedge hc.speaks fun x hx => ?_
    exact (Recorded.mem_sent_send hx).imp_right fun heq =>
      ⟨_, Segment.sound_sealed (Nat.zero_le _), hc.promises hw _ _, heq⟩
  | destroy live =>
    have hsent := (sameInput_destroy c).sent
    rw [Connection.destroy, if_neg (by simp [live])] at hle hedge hsent ⊢
    refine hc.step hc.maxPayload hc.ackno_eq hc.window_eq hle hedge ⟨?_, ?_⟩ fun x hx => ?_
    · simp [Outbound.clear]
    · simp [Inflight.clear]
    · rw [hsent] at hx
      exact .inl hx
  | _ => exact ⟨hc.maxPayload, hc.ackno_eq, hc.window_eq, hc.speaks, hc.sent⟩

end Connection

end ReliableStream
