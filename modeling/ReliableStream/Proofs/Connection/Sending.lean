import ReliableStream.Proofs.Connection.Numbered
import ReliableStream.Proofs.Endpoint.Recorded
import ReliableStream.Proofs.Receiving.Reassembly

/-!
# What a connection sends

* `Sending t`: a connection is numbered by the source `t`, and every datagram that it ever sent is a
  pure acknowledgment or carries what that source has there. As long as its input `Fits`, that is,
  does not need more positions than there are, its readings make up the source.
* `Step.sending`: every step keeps this, as the source goes on.
-/

namespace ReliableStream

/-- The datagram is a sound segment that satisfies `P`. -/
def Spoken (P : Segment → Prop) (datagram : Bytes) : Prop :=
  ∃ s : Segment, s.Sound ∧ P s ∧ datagram = s.encode

theorem Spoken.mono {P Q : Segment → Prop} {datagram : Bytes} (h : Spoken P datagram)
    (hPQ : ∀ s, P s → Q s) : Spoken Q datagram := by
  obtain ⟨s, hs, hP, rfl⟩ := h
  exact ⟨s, hs, hPQ s hP, rfl⟩

/-- What is read from such a datagram satisfies `P`. -/
theorem Spoken.of_decode {P : Segment → Prop} {datagram : Bytes} {s : Segment}
    (h : Spoken P datagram) (hd : Segment.decode datagram = .ok s) : P s := by
  obtain ⟨s', hs, hP, rfl⟩ := h
  rw [Segment.decode_encode hs] at hd
  obtain rfl := Except.ok.inj hd
  exact hP

namespace Connection

variable {σ : Type} [Endpoint σ] {g : Grant} {c d : Connection (Recorded σ)} {t u : Source}

/-- What the connection has read. -/
def source (c : Connection (Recorded σ)) : Source where
  pieces := c.endpoint.pieces
  ended := c.outbound.fin.isSome

/-- There are positions enough for all the input that was read. -/
def Fits (c : Connection (Recorded σ)) : Prop :=
  firstPosition + c.endpoint.input.length ≤ lastPosition

/-- What the connection may have sent: pure acknowledgments, and what the source `t` has up to the
position that it has sent. -/
def MaySend (t : Source) (c : Connection (Recorded σ)) (s : Segment) : Prop :=
  s.isBareAck = true ∨ t.Carries s ∧ s.start + s.span ≤ c.inflight.sent

structure Sending (t : Source) (c : Connection (Recorded σ)) : Prop extends Numbered t c where
  sent : ∀ datagram ∈ c.endpoint.sent, Spoken (c.MaySend t) datagram
  ended : c.outbound.fin.isSome = true → c.endpoint.inputEnded = true
  /-- Input that does not fit is not numbered. -/
  source_eq : c.Fits → t = c.source

omit [Endpoint σ] in
theorem sending_created (id : Nat) {config : Config} (valid : config.Valid) (inner : σ) :
    (created id config valid ({ inner } : Recorded σ)).Sending {} where
  toNumbered := numbered_created id valid _
  sent x hx := by cases hx
  ended hf := by cases hf
  source_eq _ := rfl

omit [Endpoint σ] in
theorem Sending.adjust (h : c.Sending t) (inner : σ) :
    Sending t { c with endpoint := { c.endpoint with inner } } :=
  ⟨h.toNumbered.congr rfl rfl rfl rfl, h.sent, h.ended, h.source_eq⟩

/-! ## The record -/

/-- The endpoint of `d` has the same input and the same datagrams as that of `c`. -/
structure SameInput (c d : Connection (Recorded σ)) : Prop where
  pieces : d.endpoint.pieces = c.endpoint.pieces
  inputEnded : d.endpoint.inputEnded = c.endpoint.inputEnded
  sent : d.endpoint.sent = c.endpoint.sent

theorem sameInput_deliver (c : Connection (Recorded σ)) : SameInput c c.deliver.2 := by
  let P : Recorded σ → Prop := fun e => e.pieces = c.endpoint.pieces ∧
    e.inputEnded = c.endpoint.inputEnded ∧ e.sent = c.endpoint.sent
  unfold deliver
  split
  · exact ⟨rfl, rfl, rfl⟩
  · have hP := Reassembly.deliver_keeps (r := c.received) Endpoint.deliver c.endpoint (P := P)
      (fun s b hs => hs) ⟨rfl, rfl, rfl⟩
    generalize c.received.deliver Endpoint.deliver c.endpoint = r at hP
    obtain ⟨delivery, received, endpoint⟩ := r
    obtain ⟨hpieces, hended, hsent⟩ := hP
    simp only
    split
    · exact ⟨hpieces, hended, hsent⟩
    · exact ⟨hpieces, hended, hsent⟩

theorem sameInput_destroy (c : Connection (Recorded σ)) : SameInput c c.destroy := by
  unfold destroy
  split
  · exact ⟨rfl, rfl, rfl⟩
  · exact ⟨rfl, rfl, rfl⟩

/-- The record of the input only grows. -/
theorem Step.pieces_prefix (h : Step g c d) : c.endpoint.pieces <+: d.endpoint.pieces := by
  have hrecord : ∀ {buffer : Bytes} {reading : Reading} {e : Recorded σ},
      Endpoint.read c.endpoint buffer = (reading, e) → c.endpoint.pieces <+: e.pieces := by
    intro buffer reading e hread
    obtain ⟨inner, rfl⟩ := Recorded.read_eq hread
    unfold Recorded.record
    simp only
    split
    · exact List.prefix_rfl
    · exact List.prefix_append _ _
  cases h with
  | pause _ hread => exact hrecord hread
  | queue _ hread => exact hrecord hread
  | refuse _ _ hread => exact hrecord hread
  | finish _ hread => exact hrecord hread
  | deliver => rw [(sameInput_deliver c).pieces]
  | destroy => rw [(sameInput_destroy c).pieces]
  | _ => exact List.prefix_rfl

theorem Step.fits (h : Step g c d) (hd : d.Fits) : c.Fits := by
  obtain ⟨more, hmore⟩ := h.pieces_prefix
  unfold Fits Recorded.input at *
  rw [← hmore, List.flatten_append, List.length_append] at hd
  omega

/-! ## Steps -/

omit [Endpoint σ] in
theorem MaySend.mono {s : Segment} (h : c.MaySend t s) (hg : t.GrowsTo u)
    (hsent : c.inflight.sent ≤ d.inflight.sent) : d.MaySend u s :=
  h.imp_right fun ⟨hcarried, hle⟩ => ⟨hcarried.mono hg, Nat.le_trans hle hsent⟩

/-- What a step does to the sending end. -/
structure Sends (g : Grant) (t : Source) (c : Connection (Recorded σ)) (u : Source)
    (d : Connection (Recorded σ)) : Prop where
  sending : d.Sending u
  grows : t.GrowsTo u
  sent_le : c.inflight.sent ≤ d.inflight.sent
  acked : d.inflight.acked = c.inflight.acked ∨ ∃ s, g.hears s ∧ d.inflight.acked = s.ackno.toNat

omit [Endpoint σ] in
/-- A step in which nothing is read: the source stays as it is. -/
theorem Sending.sends (h : c.Sending t) (hnumbered : d.Numbered t)
    (hpieces : d.endpoint.pieces = c.endpoint.pieces)
    (hended : c.endpoint.inputEnded = true → d.endpoint.inputEnded = true)
    (hfin : d.outbound.fin = c.outbound.fin)
    (hnew : ∀ x ∈ d.endpoint.sent, x ∈ c.endpoint.sent ∨ Spoken (d.MaySend t) x)
    (hsent : c.inflight.sent ≤ d.inflight.sent)
    (hacked : d.inflight.acked = c.inflight.acked ∨
      ∃ s, g.hears s ∧ d.inflight.acked = s.ackno.toNat) : Sends g t c t d := by
  refine ⟨⟨hnumbered, fun x hx => ?_, fun hf => ?_, fun hfits => ?_⟩, .refl t, hsent, hacked⟩
  · rcases hnew x hx with hx | hx
    · exact (h.sent x hx).mono fun s hs => hs.mono (.refl t) hsent
    · exact hx
  · rw [hfin] at hf
    exact hended (h.ended hf)
  · unfold Fits Recorded.input at hfits
    rw [hpieces] at hfits
    rw [h.source_eq hfits, source, source, hpieces, hfin]

omit [Endpoint σ] in
theorem Sending.unchanged (h : c.Sending t) (hinput : SameInput c d)
    (hout : d.outbound = c.outbound) (hinf : d.inflight = c.inflight)
    (hconfig : d.config = c.config) (hlive : d.destroyed = c.destroyed) : Sends g t c t d := by
  refine h.sends (h.toNumbered.congr hout hinf hconfig hlive) hinput.pieces (fun he => ?_)
    (by rw [hout]) (fun x hx => ?_) (by rw [hinf]) (.inl (by rw [hinf]))
  · rw [hinput.inputEnded]
    exact he
  · rw [hinput.sent] at hx
    exact .inl hx

omit [Endpoint σ] in
theorem spoken_ack (c : Connection (Recorded σ)) (ackno : UInt32) :
    Spoken (fun s => s.isBareAck = true) (c.outbound.ack ackno).encode := by
  refine ⟨_, Segment.sound_sealed (Nat.zero_le _), ?_, rfl⟩
  have hf := (c.outbound.numbering.span_data ackno []).1
  show ([] : Bytes).isEmpty && !(c.outbound.numbering.segment ackno .ack []).hasFin
  rw [hf]
  rfl

/-! ### Reading -/

theorem Sending.queue {buffer : Bytes} {reading : Reading} {endpoint : Recorded σ}
    {outbound : Outbound} {seqno : Nat} (hc : c.Sending t) (live : c.destroyed = false)
    (hread : Endpoint.read c.endpoint buffer = (reading, endpoint))
    (hne : reading.chunk buffer ≠ [])
    (hq : c.outbound.queueData (reading.chunk buffer) (UInt32.ofNat c.ackno) =
      .ok (seqno, outbound)) (hfits : Fits { c with endpoint } → c.Fits) :
    Sends g t c (t.add (reading.chunk buffer)) { c with endpoint, outbound } := by
  obtain ⟨inner, rfl⟩ := Recorded.read_eq hread
  obtain ⟨hf, -, -, hout⟩ := Outbound.queueData_eq_ok hq
  have hgrow := Source.growsTo_add (hc.counts.next_eq_stop hf).1 (reading.chunk buffer)
  have hfin : outbound.fin = none := by
    rw [hout]
    exact hf
  refine ⟨⟨hc.toNumbered.queueData live hq hne, fun x hx => ?_, fun h => ?_, fun h => ?_⟩, hgrow,
    Nat.le_refl _, .inl rfl⟩
  · exact (hc.sent x hx).mono fun s hs => hs.mono hgrow (Nat.le_refl _)
  · rw [show _ = none from hfin] at h
    cases h
  · rw [hc.source_eq (hfits h)]
    simp only [source, Recorded.record, if_neg hne, Source.add, hfin, hf]

/-- What fits is not refused. -/
theorem Sending.not_refused {buffer : Bytes} {reading : Reading} {endpoint : Recorded σ} {e : Error}
    (hc : c.Sending c.source) (hf : c.outbound.fin = none)
    (hread : Endpoint.read c.endpoint buffer = (reading, endpoint))
    (hlen : (reading.chunk buffer).length ≤ c.config.maxPayload)
    (hq : c.outbound.queueData (reading.chunk buffer) (UInt32.ofNat c.ackno) = .error e) :
    ¬ Fits { c with endpoint } := by
  intro hfits
  obtain ⟨inner, rfl⟩ := Recorded.read_eq hread
  obtain ⟨-, hlast⟩ := Outbound.queueData_eq_error hq hf (by rw [hc.maxPayload]; exact hlen)
  obtain ⟨-, hstop⟩ := hc.counts.next_eq_stop hf
  have hpieces : (c.endpoint.pieces ++ [reading.chunk buffer]).flatten.length =
      ({ c.endpoint with inner }.record buffer reading).pieces.flatten.length := by
    unfold Recorded.record
    simp only
    split
    next hnil => simp [hnil]
    next => rfl
  have hstop' : c.source.stream.stop = firstPosition + c.endpoint.pieces.flatten.length := rfl
  unfold Fits Recorded.input at hfits
  rw [← hpieces, List.flatten_append, List.length_append, List.flatten_cons, List.flatten_nil,
    List.append_nil] at hfits
  omega

/-- What is refused is not numbered. -/
theorem Sending.refuse {buffer : Bytes} {reading : Reading} {endpoint : Recorded σ} {e : Error}
    (hc : c.Sending t) (hf : c.outbound.fin = none)
    (hread : Endpoint.read c.endpoint buffer = (reading, endpoint))
    (hlen : (reading.chunk buffer).length ≤ c.config.maxPayload)
    (hq : c.outbound.queueData (reading.chunk buffer) (UInt32.ofNat c.ackno) = .error e)
    (hfits : Fits { c with endpoint } → c.Fits) : Sends g t c t { c with endpoint } := by
  refine ⟨⟨hc.toNumbered.congr rfl rfl rfl rfl, fun x hx => ?_, fun h => ?_, fun h => ?_⟩, .refl t,
    Nat.le_refl _, .inl rfl⟩
  · obtain ⟨inner, rfl⟩ := Recorded.read_eq hread
    exact hc.sent x hx
  · rw [show _ = none from hf] at h
    cases h
  · obtain rfl := hc.source_eq (hfits h)
    exact absurd h (hc.not_refused hf hread hlen hq)

theorem Sending.finish {buffer : Bytes} {reading : Reading} {endpoint : Recorded σ}
    {outbound : Outbound} {seqno : Nat} {phase : Phase} (hc : c.Sending t)
    (live : c.destroyed = false)
    (hread : Endpoint.read c.endpoint buffer = (reading, endpoint)) (hend : reading.isEnd = true)
    (hq : c.outbound.queueFin (UInt32.ofNat c.ackno) = .ok (seqno, outbound))
    (hfits : Fits { c with endpoint } → c.Fits) :
    Sends g t c t.finish { c with endpoint, outbound, phase } := by
  obtain ⟨inner, rfl⟩ := Recorded.read_eq hread
  obtain ⟨hf, -, hout⟩ := Outbound.queueFin_eq_ok hq
  have hgrow := Source.growsTo_finish (hc.counts.next_eq_stop hf).1
  refine ⟨⟨hc.toNumbered.queueFin live hq, fun x hx => ?_, fun _ => ?_, fun h => ?_⟩, hgrow,
    Nat.le_refl _, .inl rfl⟩
  · exact (hc.sent x hx).mono fun s hs => hs.mono hgrow (Nat.le_refl _)
  · simp [Recorded.record, hend]
  · rw [hc.source_eq (hfits h)]
    simp only [source, Recorded.record, if_pos (Reading.chunk_of_isEnd hend), Source.finish, hout]
    rfl

/-! ### Packets -/

theorem Sending.send {p : Packet} {outbound : Outbound} (hc : c.Sending t)
    (live : c.destroyed = false) (now : Int)
    (hpop : c.outbound.pop? c.inflight c.config.sendWindow = some (p, outbound)) :
    Sends g t c t { c with
      outbound
      inflight := (c.inflight.insert p now).2
      endpoint := (Endpoint.send c.endpoint p.wire).2 } := by
  obtain ⟨-, -, hsent, hacked, hstop⟩ := (hc.conveys live).pop hc.counts hpop now
  obtain ⟨-, hwire, hsound, hcarried⟩ := (hc.conveys live).speaks.pop hpop now
  have hnumbering : outbound.numbering = c.outbound.numbering := Outbound.numbering_of_pop? hpop
  refine hc.sends (hc.toNumbered.send live now hpop) rfl (fun h => h)
    (congrArg Numbering.fin hnumbering) (fun x hx => ?_) hsent (.inl hacked)
  exact (Recorded.mem_sent_send hx).imp_right fun heq =>
    ⟨p.segment, hsound, .inr ⟨hcarried, hstop⟩, heq.trans hwire⟩

theorem Sending.resend {e : SentPacket} (hc : c.Sending t) (live : c.destroyed = false)
    (hflying : e ∈ c.inflight.entries.toList) :
    Sends g t c t { c with endpoint := (Endpoint.send c.endpoint e.wire).2 } := by
  obtain ⟨hwire, hsound, hcarried⟩ := (hc.conveys live).speaks.flying e hflying
  refine hc.sends (hc.toNumbered.congr rfl rfl rfl rfl) rfl (fun h => h) rfl (fun x hx => ?_)
    (Nat.le_refl _) (.inl rfl)
  exact (Recorded.mem_sent_send hx).imp_right fun heq => ⟨e.segment, hsound,
    .inr ⟨hcarried, (hc.conveys live).stop_le_sent hflying⟩, heq.trans hwire⟩

omit [Endpoint σ] in
theorem sent_acknowledged (c : Connection (Recorded σ)) (s : Segment) :
    (c.acknowledged s).inflight.sent = c.inflight.sent := by
  rw [Inflight.sent_noteWindow]
  rcases c.inflight.acknowledge_cases s.ackno.toNat with heq | ⟨-, -, bytes, heq⟩
  · rw [heq]
  · rw [heq]

omit [Endpoint σ] in
theorem Sending.acknowledge {s : Segment} (hc : c.Sending t) (live : c.destroyed = false)
    (hs : g.hears s) : Sends g t c t (c.acknowledged s) := by
  refine hc.sends (hc.toNumbered.acknowledge live s.ackno.toNat s.window) rfl (fun h => h) rfl
    (fun x hx => .inl hx) ?_ ?_
  · rw [sent_acknowledged]
  · rw [Inflight.acked_noteWindow]
    rcases c.inflight.acknowledge_cases s.ackno.toNat with heq | ⟨-, -, bytes, heq⟩
    · rw [heq]
      exact .inl rfl
    · rw [heq]
      exact .inr ⟨s, hs, rfl⟩

/-- Every step keeps the sending end in agreement with a source, which goes on. -/
theorem Step.sending (h : Step g c d) (hc : c.Sending t) : ∃ u, Sends g t c u d := by
  have hfits := h.fits
  cases h with
  | notice => exact ⟨t, hc.unchanged ⟨rfl, rfl, rfl⟩ rfl rfl rfl rfl⟩
  | setWindow live window =>
    exact ⟨t, hc.sends (hc.toNumbered.setWindow live window) rfl (fun h => h) rfl
      (fun x hx => .inl hx) (Nat.le_refl _) (.inl rfl)⟩
  | pause live hread hempty =>
    obtain ⟨inner, rfl⟩ := Recorded.read_eq hread
    exact ⟨t, hc.sends (hc.toNumbered.congr rfl rfl rfl rfl) (if_pos hempty)
      (fun h => by simp [Recorded.record, h]) rfl (fun x hx => .inl hx) (Nat.le_refl _)
      (.inl rfl)⟩
  | queue live hread hne hq => exact ⟨_, hc.queue live hread hne hq hfits⟩
  | refuse live hf hread hlen hq => exact ⟨t, hc.refuse hf hread hlen hq hfits⟩
  | finish live hread hend hq => exact ⟨_, hc.finish live hread hend hq hfits⟩
  | send live hg now hpop => exact ⟨t, hc.send live now hpop⟩
  | resend live hg hflying => exact ⟨t, hc.resend live hflying⟩
  | restamp live hg now =>
    exact ⟨t, hc.sends (hc.toNumbered.restamp live now) rfl (fun h => h) rfl
      (fun x hx => .inl hx) (Nat.le_refl _) (.inl rfl)⟩
  | acknowledge live hs hack => exact ⟨t, hc.acknowledge live hs⟩
  | finAcked => exact ⟨t, hc.unchanged ⟨rfl, rfl, rfl⟩ rfl rfl rfl rfl⟩
  | insert => exact ⟨t, hc.unchanged ⟨rfl, rfl, rfl⟩ rfl rfl rfl rfl⟩
  | deliver live =>
    have hinput := sameInput_deliver c
    obtain ⟨received, endpoint, ackno, window, heq⟩ := c.deliver_eq
    rw [heq] at hinput ⊢
    exact ⟨t, hc.unchanged hinput rfl rfl rfl rfl⟩
  | answer live hg =>
    refine ⟨t, hc.sends (hc.toNumbered.congr rfl rfl rfl rfl) rfl (fun h => h) rfl
      (fun x hx => ?_) (Nat.le_refl _) (.inl rfl)⟩
    refine (Recorded.mem_sent_send hx).imp_right fun heq => ?_
    rw [heq]
    exact (spoken_ack c _).mono fun s hs => .inl hs
  | peerFin => exact ⟨t, hc.unchanged ⟨rfl, rfl, rfl⟩ rfl rfl rfl rfl⟩
  | reset => exact ⟨t, hc.unchanged ⟨rfl, rfl, rfl⟩ rfl rfl rfl rfl⟩
  | destroy live =>
    have hinput := sameInput_destroy c
    have hnumbered := hc.toNumbered.destroy
    have heq : c.destroy = _ := if_neg (by simp [live])
    rw [heq] at hinput hnumbered ⊢
    refine ⟨t, hc.sends hnumbered hinput.pieces (fun h => ?_) rfl (fun x hx => ?_)
      (Nat.le_refl _) (.inl rfl)⟩
    · rw [hinput.inputEnded]
      exact h
    · rw [hinput.sent] at hx
      exact .inl hx

end Connection

end ReliableStream
