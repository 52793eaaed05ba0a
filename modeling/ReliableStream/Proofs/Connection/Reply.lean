import ReliableStream.Proofs.Connection.Teardown
import ReliableStream.Proofs.Receiving.Bounds

/-!
# What a datagram is answered

A datagram that cannot be read is refused, and nothing else happens. One that brings no payload and
no FIN is not answered. Any other is answered by one acknowledgment, whatever the buffer makes of it
and in every phase, which says what the buffer stands for once all is taken in and handed on
(`Reports`). Only the datagram that takes from a connection the last that it waits for (`ClosedBy`)
is not answered any more.

* `Inflight.lt_acked_acknowledge_iff`: when an acknowledgment is the first that covers a position.
* `heeded_spec`: what a segment's acknowledgment does before its payload is looked at.
* `handleData_spec`: a segment whose payload is looked at, and the answer to it.
* `reply_disciplined`: what this comes to for every connection and every datagram.
-/

namespace ReliableStream

theorem Phase.on?_finAcked_eq_closed_iff {p : Phase} :
    p.on? .finAcked = some .closed ↔ p = .lastAck ∨ p = .closing := by
  cases p <;> simp [on?]

/-- A position is acknowledged now if the acknowledgment covers it and is of something sent. -/
theorem Inflight.lt_acked_acknowledge_iff {f : Inflight} {ackno n : Nat} (h : f.acked ≤ n) :
    n < (f.acknowledge ackno).2.acked ↔ n < ackno ∧ ackno ≤ f.sent := by
  rcases f.acknowledge_cases ackno with heq | ⟨hnew, hsent, bytes, heq⟩
  · rw [heq]
    refine iff_of_false (Nat.not_lt.mpr h) fun ⟨hlt, hsent⟩ => ?_
    have hacked := f.acked_acknowledge (by omega : f.acked < ackno) hsent
    rw [heq] at hacked
    omega
  · rw [heq]
    exact (and_iff_left hsent).symm

namespace Connection

variable {σ : Type} [Endpoint σ] {g : Grant} {s : Segment} {now : Int}

section

variable {c d : Connection σ}

/-! ## The receiving end -/

/-- Whatever is done with a connection, its buffer stays bounded. -/
theorem Step.bounded (h : Step g c d) (hc : ∃ gap, c.received.Bounded gap) :
    ∃ gap, d.received.Bounded gap := by
  obtain ⟨gap, hbounded⟩ := hc
  cases h with
  | @insert s =>
    obtain ⟨gap', hinsert, -⟩ := hbounded.insert s
    exact ⟨gap', hinsert⟩
  | deliver live =>
    rw [deliver_of_live live]
    exact ⟨gap, (hbounded.deliver Endpoint.deliver c.endpoint).1⟩
  | destroy live =>
    rw [Connection.destroy, if_neg (by simp [live])]
    exact ⟨gap, hbounded.clear⟩
  | _ => exact ⟨gap, hbounded⟩

theorem Lived.bounded (h : Lived c) : ∃ gap, c.received.Bounded gap :=
  h.rule (I := fun c => ∃ gap, c.received.Bounded gap)
    (fun _ _ _ _ => ⟨_, Reassembly.bounded_start _⟩) Step.bounded fun _ hc => hc

/-- The buffer once a segment is taken in and the application has got what it can get. -/
def receivedWith (c : Connection σ) (s : Segment) : Reassembly :=
  ((c.received.insert s).2.deliver Endpoint.deliver c.endpoint).2.1

/-! ## Acknowledgments -/

/-- The peer has finished, and the segment acknowledges our FIN. A connection that does not linger
waits for nothing more. -/
structure ClosedBy (c : Connection σ) (s : Segment) : Prop where
  ack : s.flags.contains .ack = true
  last : c.phase = .lastAck ∨ c.phase = .closing
  covers : ∃ fin, c.outbound.fin = some fin ∧ fin < s.ackno.toNat
  sent : s.ackno.toNat ≤ c.inflight.sent
  linger : c.config.linger = 0

/-- What `receive` does with a segment before it looks at the payload. -/
def heeded (c : Connection σ) (s : Segment) (now : Int) : Except Error Unit × Connection σ :=
  if s.flags.contains .ack then c.handleAck s.ackno.toNat s.window now else (.ok (), c)

theorem receive_of_error {datagram : Bytes} {e : Error} (live : c.destroyed = false)
    (h : Segment.decode datagram = .error e) (now : Int) :
    c.receive datagram now = (.error e, c) := by
  unfold receive
  rw [if_neg (by simp [live]), h]

theorem receive_of_heeded {datagram : Bytes} (live : c.destroyed = false)
    (h : Segment.decode datagram = .ok s) (hok : (c.heeded s now).1 = .ok ()) :
    c.receive datagram now =
      if s.isBareAck || (c.heeded s now).2.destroyed then (.ok (), (c.heeded s now).2)
      else (c.heeded s now).2.handleData s now := by
  unfold receive
  rw [if_neg (by simp [live]), h]
  unfold heeded at hok ⊢
  simp only at hok ⊢
  rw [hok]

omit [Endpoint σ] in
/-- A FIN that is waited for is acknowledged now if the segment covers it. -/
theorem InStep.lt_acked_iff (h : c.InStep) {fin : Nat} (hf : c.outbound.fin = some fin)
    (hawaits : c.phase.awaitsFinAck = true) :
    fin < (c.acknowledged s).inflight.acked ↔
      fin < s.ackno.toNat ∧ s.ackno.toNat ≤ c.inflight.sent := by
  rw [Inflight.acked_noteWindow]
  exact Inflight.lt_acked_acknowledge_iff (h.acked_le hf hawaits)

/-- The acknowledgment of our FIN ends a connection that does not linger if the peer has finished,
and no other. -/
theorem advance_finAcked (d : Connection σ) (now : Int) : ∃ phase closedAt,
    d.advance .finAcked now = (.ok (), { d with phase, closedAt }) ∧
        ¬ ((d.phase = .lastAck ∨ d.phase = .closing) ∧ d.config.linger = 0) ∨
      d.advance .finAcked now = (.ok (), { d with phase, closedAt }.destroy) ∧
        (d.phase = .lastAck ∨ d.phase = .closing) ∧ d.config.linger = 0 := by
  rw [← Phase.on?_finAcked_eq_closed_iff]
  cases hawaits : d.phase.awaitsFinAck with
  | false =>
    -- the FIN was acknowledged before, or was never sent
    refine ⟨d.phase, d.closedAt, .inl ⟨advance_finAcked_eq hawaits now, fun hends => ?_⟩⟩
    simp [Phase.awaitsFinAck_of_on? hends.1] at hawaits
  | true =>
    obtain ⟨phase, hon, -⟩ := Phase.exists_finAcked hawaits
    obtain ⟨closedAt, -, heq⟩ := advance_of_on? hon now
    rw [heq, hon, Option.some.injEq]
    by_cases hends : phase = .closed ∧ d.config.linger = 0
    · rw [if_pos hends]
      exact ⟨phase, closedAt, .inr ⟨rfl, hends⟩⟩
    · rw [if_neg hends]
      exact ⟨phase, closedAt, .inl ⟨rfl, hends⟩⟩

/-- The acknowledgment is taken in without an error, and leaves alone what was received and what
waits to be sent. It ends the connection if that waits for nothing else, and only then. -/
theorem heeded_spec (h : c.InStep) (live : c.destroyed = false) (s : Segment) (now : Int) :
    ∃ d, (d.received = c.received ∧ d.endpoint = c.endpoint ∧ d.outbound = c.outbound ∧
        d.destroyed = false) ∧
      (c.heeded s now = (.ok (), d) ∧ d.InStep ∧ ¬ c.ClosedBy s ∨
        c.heeded s now = (.ok (), d.destroy) ∧ c.ClosedBy s) := by
  have hwaiting (hlast : c.phase = .lastAck ∨ c.phase = .closing) : c.phase.awaitsFinAck = true :=
    Phase.awaitsFinAck_of_on? (Phase.on?_finAcked_eq_closed_iff.mpr hlast)
  unfold heeded
  split
  next hack =>
    have hproper := (h.handleAck s now).inStep
    obtain ⟨sender, permit, hafter, -⟩ := c.handleAck_cases s now
    let d : Connection σ := { c.acknowledged s with sender, permit }
    rcases hafter with ⟨heq, hquiet⟩ | ⟨fin, hf, hlt, heq⟩
    · rw [heq] at hproper ⊢
      refine ⟨d, ⟨rfl, rfl, rfl, live⟩, .inl ⟨rfl, hproper live, fun hclosed => ?_⟩⟩
      obtain ⟨fin, hf, hcovers⟩ := hclosed.covers
      have hlt := (h.lt_acked_iff hf (hwaiting hclosed.last)).mpr ⟨hcovers, hclosed.sent⟩
      rcases hquiet with hsame | hnot
      · have := h.acked_le hf (hwaiting hclosed.last)
        rw [Inflight.acked_noteWindow, hsame] at hlt
        omega
      · have := hnot fin hf
        omega
    · obtain ⟨phase, closedAt, ⟨hadvance, hopen⟩ | ⟨hadvance, hlast, hlinger⟩⟩ :=
        d.advance_finAcked now
      · rw [heq, hadvance] at hproper ⊢
        exact ⟨{ d with phase, closedAt }, ⟨rfl, rfl, rfl, live⟩,
          .inl ⟨rfl, hproper live, fun hclosed => hopen ⟨hclosed.last, hclosed.linger⟩⟩⟩
      · rw [heq, hadvance]
        have hcovered := (h.lt_acked_iff hf (hwaiting hlast)).mp hlt
        exact ⟨{ d with phase, closedAt }, ⟨rfl, rfl, rfl, live⟩,
          .inr ⟨rfl, hack, hlast, ⟨fin, hf, hcovered.1⟩, hcovered.2, hlinger⟩⟩
  next hack =>
    exact ⟨c, ⟨rfl, rfl, rfl, live⟩, .inl ⟨rfl, h, fun hclosed => hack hclosed.ack⟩⟩

/-! ## Results -/

/-- An event is an error only if it is impossible. -/
theorem advance_result (c : Connection σ) (event : TeardownEvent) (now : Int) :
    (c.advance event now).1 = .ok () ∨
      ∃ phase event', (c.advance event now).1 = .error (.impossibleEvent phase event') := by
  unfold advance Phase.on
  split
  · exact .inl rfl
  · cases c.phase.on? event with
    | none => exact .inr ⟨_, _, rfl⟩
    | some phase => cases phase <;> exact .inl rfl

/-- To hand on what was received is never an error. -/
theorem InStep.passOn_result (h : c.InStep) (live : c.destroyed = false) (always : Bool)
    (now : Int) : (c.passOn always now).1 = .ok () := by
  have hproper := (h.passOn live always now).result
  unfold Connection.passOn at hproper ⊢
  simp only at hproper ⊢
  split at hproper
  next heof =>
    rw [if_pos heof]
    rcases advance_result (σ := σ) _ .peerFin now with hok | ⟨phase, event, herror⟩
    · exact hok
    · exact absurd herror (hproper phase event)
  next heof => rw [if_neg heof]

end

/-! ## Answers -/

/-- The segment is a pure acknowledgment. It says what the buffer stands for, and where the stream
of its sender goes on. -/
structure Reports (next : Nat) (r : Reassembly) (s : Segment) : Prop where
  flags_eq : s.flags = .ack
  payload_eq : s.payload = []
  seqno_eq : s.seqno.toNat = next
  ackno_eq : s.ackno.toNat = r.expected
  window_eq : s.window = r.window

theorem spoken_report {o : Outbound} {r : Reassembly} (hnext : o.next ≤ lastPosition)
    (hexpected : r.expected ≤ lastPosition) :
    Spoken (Reports o.next r) ((o.setWindow r.window).ack (UInt32.ofNat r.expected)).encode := by
  have hfits {p : Nat} (hp : p ≤ lastPosition) : (UInt32.ofNat p).toNat = p := by
    unfold lastPosition at hp
    rw [UInt32.toNat_ofNat', Nat.mod_eq_of_lt (by omega)]
  exact ⟨_, Segment.sound_sealed (Nat.zero_le _),
    ⟨rfl, rfl, hfits hnext, hfits hexpected, rfl⟩, rfl⟩

variable {c : Connection (Recorded σ)}

/-- Nothing is sent when an event goes through. -/
theorem sent_advance (c : Connection (Recorded σ)) (event : TeardownEvent) (now : Int) :
    (c.advance event now).2.endpoint.sent = c.endpoint.sent := by
  rcases c.advance_cases event now with heq | ⟨phase, closedAt, -, -, heq | heq⟩
  · rw [heq]
  · rw [heq]
  · rw [heq]
    exact (sameInput_destroy _).sent

/-- What was received is handed on and acknowledged once, as it is then. -/
theorem exists_sent_passOn (live : c.destroyed = false) (hnext : c.outbound.next ≤ lastPosition)
    (hbounded : ∃ gap, c.received.Bounded gap) (now : Int) :
    ∃ datagram, (c.passOn true now).2.endpoint.sent = c.endpoint.sent ++ [datagram] ∧
      Spoken (Reports c.outbound.next (c.received.deliver Endpoint.deliver c.endpoint).2.1)
        datagram := by
  obtain ⟨gap, hbounded⟩ := hbounded
  have hexpected := (hbounded.deliver Endpoint.deliver c.endpoint).1.expected_le_lastPosition
  refine ⟨_, ?_, spoken_report hnext hexpected⟩
  have hsent := (sameInput_deliver c).sent
  have hafter := deliver_of_live live
  have hanswered : (c.passOn true now).2.endpoint.sent = c.deliver.2.sendBareAck.endpoint.sent := by
    unfold passOn
    simp only [Bool.true_or, if_true]
    split
    · exact sent_advance _ _ _
    · rfl
  rw [hanswered]
  unfold sendBareAck
  rw [← hsent, hafter, if_neg (by simp [live, readvertise])]
  rfl

/-- A segment is taken in without an error, and acknowledged once. -/
theorem handleData_spec (h : c.InStep) (live : c.destroyed = false)
    (hnext : c.outbound.next ≤ lastPosition) (hbounded : ∃ gap, c.received.Bounded gap)
    (s : Segment) (now : Int) : (c.handleData s now).1 = .ok () ∧ ∃ answer,
      (c.handleData s now).2.endpoint.sent = c.endpoint.sent ++ [answer] ∧
        Spoken (Reports c.outbound.next (c.receivedWith s)) answer := by
  -- what is handed on and acknowledged is the connection with the segment in its buffer
  let taken : Connection (Recorded σ) := { c with received := (c.received.insert s).2 }.readvertise
  have hin : taken.InStep := h.congr rfl rfl rfl rfl (c.received.finished_insert s)
  have hbounded' : ∃ gap, taken.received.Bounded gap := by
    obtain ⟨gap, hbounded⟩ := hbounded
    obtain ⟨gap', hinsert, -⟩ := hbounded.insert s
    exact ⟨gap', hinsert⟩
  exact ⟨hin.passOn_result live true now,
    exists_sent_passOn (c := taken) live hnext hbounded' now⟩

/-- A datagram that cannot be read is refused and changes nothing. Any other is taken in without an
error. One that brings no payload and no FIN is not answered, nor is one that closes a connection
that does not linger. Every other is answered by exactly one datagram, a pure acknowledgment at the
next position of our stream, of all that the buffer stands for once the segment is taken in and the
application has got what it can get. -/
theorem reply_disciplined (h : Lived c) (live : c.destroyed = false) (datagram : Bytes)
    (now : Int) :
    (∀ e, Segment.decode datagram = .error e → c.receive datagram now = (.error e, c)) ∧
    ∀ s, Segment.decode datagram = .ok s →
      (c.receive datagram now).1 = .ok () ∧
      (s.isBareAck = true → (c.receive datagram now).2.endpoint.sent = c.endpoint.sent) ∧
      (s.isBareAck = false →
        (c.ClosedBy s → (c.receive datagram now).2.destroyed = true ∧
          (c.receive datagram now).2.endpoint.sent = c.endpoint.sent) ∧
        (¬ c.ClosedBy s → ∃ answer,
          (c.receive datagram now).2.endpoint.sent = c.endpoint.sent ++ [answer] ∧
          Spoken (Reports c.outbound.next (c.receivedWith s)) answer)) := by
  obtain ⟨ho, hin⟩ := h.orderly
  obtain ⟨t, hnumbered⟩ := ho.numbered
  refine ⟨fun e hdecode => receive_of_error live hdecode now, fun s hdecode => ?_⟩
  obtain ⟨d, ⟨hreceived, hendpoint, houtbound, hlive⟩, hcases⟩ := heeded_spec (hin live) live s now
  have hheeded : (c.heeded s now).1 = .ok () := by
    rcases hcases with ⟨heq, -⟩ | ⟨heq, -⟩ <;> rw [heq]
  rw [receive_of_heeded live hdecode hheeded]
  rcases hcases with ⟨heq, hstep, hopen⟩ | ⟨heq, hclosed⟩
  · rw [heq]
    cases hbare : s.isBareAck with
    | true => exact ⟨rfl, fun _ => congrArg Recorded.sent hendpoint, nofun⟩
    | false =>
      rw [if_neg (by simp [hlive])]
      have hnext : d.outbound.next ≤ lastPosition := by
        rw [houtbound]
        exact hnumbered.counts.next_le
      have hbounded : ∃ gap, d.received.Bounded gap := by
        rw [hreceived]
        exact h.bounded
      obtain ⟨hok, hanswers⟩ := handleData_spec hstep hlive hnext hbounded s now
      rw [receivedWith, hreceived, hendpoint, houtbound] at hanswers
      exact ⟨hok, nofun, fun _ => ⟨fun hclosed => absurd hclosed hopen, fun _ => hanswers⟩⟩
  · have hsent : d.destroy.endpoint.sent = c.endpoint.sent :=
      (sameInput_destroy d).sent.trans (congrArg Recorded.sent hendpoint)
    have hdead : d.destroy.destroyed = true := destroyed_destroy d
    rw [heq]
    simp only
    rw [if_pos (by simp)]
    exact ⟨rfl, fun _ => hsent, fun _ => ⟨fun _ => ⟨hdead, hsent⟩, fun hnot => absurd hclosed hnot⟩⟩

/-! ### The FIN comes again

Both have finished, and the connection lingers. The datagram that brought the peer's FIN comes a
second time. -/

def lastWord : Bytes := (Segment.sealed 1 2 (.ack ||| .fin) 1440 []).encode

def lingerer : Connection (Recorded InMemory) :=
  (((created 1 {} valid_default { inner := { inputClosed := true } }).move
    (.deed (.read 0 true))).move (.deed (.senderTurn 0))).move (.deed (.receive lastWord 5))

theorem lived_lingerer : Lived lingerer := .move (.move (.move (.created ..) _) _) _

theorem lingerer_answers : lingerer.destroyed = false ∧ lingerer.phase = .closed ∧
    (lingerer.receive lastWord 6).1 = .ok () ∧ ∃ answer,
      (lingerer.receive lastWord 6).2.endpoint.sent = lingerer.endpoint.sent ++ [answer] ∧
      Spoken (fun s => s.seqno.toNat = 2 ∧ s.ackno.toNat = 2) answer := by
  have live : lingerer.destroyed = false := by decide +kernel
  have hphase : lingerer.phase = .closed := by decide +kernel
  have hread : Segment.decode lastWord = .ok (.sealed 1 2 (.ack ||| .fin) 1440 []) :=
    Segment.decode_encode (Segment.sound_sealed (Nat.zero_le _))
  obtain ⟨-, hreplies⟩ := reply_disciplined lived_lingerer live lastWord 6
  obtain ⟨hok, -, hdata⟩ := hreplies _ hread
  obtain ⟨answer, hsent, hspoken⟩ := (hdata (by decide)).2 fun hclosed => by
    rcases hclosed.last with hlast | hlast <;> rw [hphase] at hlast <;> cases hlast
  exact ⟨live, hphase, hok, answer, hsent, hspoken.mono fun s hs =>
    ⟨hs.seqno_eq.trans (by decide +kernel), hs.ackno_eq.trans (by decide +kernel)⟩⟩

end Connection

end ReliableStream
