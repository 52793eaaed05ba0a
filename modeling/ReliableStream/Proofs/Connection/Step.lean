import Mathlib.Logic.Relation
import ReliableStream.Connection.Receiver
import ReliableStream.Connection.Sender
import ReliableStream.Connection.Timer
import ReliableStream.Proofs.Sending.Conveys

/-!
# What a connection does

Whatever is done with a connection, it does a few things to itself, one after another. A `Step` is
one of them, within what a `Grant` allows: which segments are heard from the network and whether
acknowledgments are heeded, whether input is read, whether packets are sent for the first time,
whether the timer passes, whether acknowledgments are sent on their own, and whether the connection
may be given up. Each operation of a connection is a sequence of steps (`read_steps`,
`senderTurn_steps`, `receive_steps`, `output_steps`, `timerPass_steps`), so what every step keeps,
every operation keeps. What a datagram does, and when it tells the sender, is said once
(`receive_cases`, `handleAck_cases`), and so is what the timer decides (`timerAction_cases`).
-/

namespace ReliableStream

/-- The input that a reading into `buffer` gave. -/
def Reading.chunk (buffer : Bytes) : Reading → Bytes
  | .data written claimed => (buffer.overwrite written).take claimed
  | _ => []

/-- There is no more input, or it cannot be read. -/
def Reading.isEnd : Reading → Bool
  | .eof | .failed _ => true
  | _ => false

theorem Reading.chunk_of_isEnd {buffer : Bytes} {reading : Reading} (h : reading.isEnd = true) :
    reading.chunk buffer = [] := by
  cases reading with
  | data => cases h
  | _ => rfl

/-- A sender that is told does not wait any more, and is stopped only if it was. -/
def SenderTask.Told (before after : SenderTask) : Prop :=
  after ≠ .waiting ∧ (after = .stopped → before = .stopped)

namespace Connection

variable {σ : Type} [Endpoint σ]

/-- What may happen to a connection. -/
structure Grant where
  /-- The segments that it may hear. -/
  hears : Segment → Prop
  /-- It may send packets for the first time. -/
  sends : Prop := True
  /-- Its timer may pass. -/
  times : Prop := True
  /-- It may send pure acknowledgments. -/
  answers : Prop := True
  /-- It may read input. -/
  reads : Prop := True
  /-- It may take in acknowledgments, and its sender may be told or stopped. -/
  heeds : Prop := True
  /-- It may be given up. -/
  resets : Prop := True

/-- A connection does one thing. A destroyed one does nothing but to tell its sender. -/
inductive Step (g : Grant) (c : Connection σ) : Connection σ → Prop
  | notice (sender : SenderTask) (permit : Bool) (hg : g.heeds) : Step g c { c with sender, permit }
  | setWindow (live : c.destroyed = false) (window : UInt16) :
      Step g c { c with outbound := c.outbound.setWindow window }
  /-- A reading gave no input. -/
  | pause {buffer : Bytes} {reading : Reading} {endpoint : σ} (live : c.destroyed = false)
      (read : Endpoint.read c.endpoint buffer = (reading, endpoint))
      (empty : reading.chunk buffer = []) (hg : g.reads) : Step g c { c with endpoint }
  /-- A reading gave input, which is queued. -/
  | queue {buffer : Bytes} {reading : Reading} {endpoint : σ} {seqno : Nat} {outbound : Outbound}
      (live : c.destroyed = false)
      (read : Endpoint.read c.endpoint buffer = (reading, endpoint))
      (nonempty : reading.chunk buffer ≠ [])
      (queued : c.outbound.queueData (reading.chunk buffer) (UInt32.ofNat c.ackno) =
        .ok (seqno, outbound))
      (current : c.outbound.numbering.window = c.window) (hg : g.reads) :
      Step g c { c with endpoint, outbound }
  /-- A reading gave input that cannot be queued. -/
  | refuse {buffer : Bytes} {reading : Reading} {endpoint : σ} {e : Error}
      (live : c.destroyed = false) (unfinished : c.outbound.fin = none)
      (read : Endpoint.read c.endpoint buffer = (reading, endpoint))
      (length_le : (reading.chunk buffer).length ≤ c.config.maxPayload)
      (refused : c.outbound.queueData (reading.chunk buffer) (UInt32.ofNat c.ackno) = .error e)
      (hg : g.reads) : Step g c { c with endpoint }
  /-- A reading said that there is no more input, and our FIN is queued. -/
  | finish {buffer : Bytes} {reading : Reading} {endpoint : σ} {seqno : Nat} {outbound : Outbound}
      (live : c.destroyed = false)
      (read : Endpoint.read c.endpoint buffer = (reading, endpoint))
      (ended : reading.isEnd = true)
      (queued : c.outbound.queueFin (UInt32.ofNat c.ackno) = .ok (seqno, outbound))
      (current : c.outbound.numbering.window = c.window) (hg : g.reads) :
      Step g c
        { c with endpoint, outbound, phase := (c.phase.on? .localFin).getD c.phase }
  /-- The oldest packet is sent. -/
  | send {p : Packet} {outbound : Outbound} (live : c.destroyed = false) (hg : g.sends) (now : Int)
      (popped : c.outbound.pop? c.inflight c.config.sendWindow = some (p, outbound)) :
      Step g c { c with
        outbound
        inflight := (c.inflight.insert p now).2
        endpoint := (Endpoint.send c.endpoint p.wire).2 }
  /-- A packet in flight is sent again. -/
  | resend {e : SentPacket} (live : c.destroyed = false) (hg : g.times)
      (flying : e ∈ c.inflight.entries.toList) :
      Step g c { c with endpoint := (Endpoint.send c.endpoint e.wire).2 }
  | restamp (live : c.destroyed = false) (hg : g.times) (now : Int) :
      Step g c { c with inflight := (c.inflight.resendOverdue now c.config).2 }
  /-- An acknowledgment is taken in. -/
  | acknowledge {s : Segment} (live : c.destroyed = false) (hs : g.hears s)
      (ack : s.flags.contains .ack = true) (hg : g.heeds) :
      Step g c { c with inflight :=
        ((c.inflight.acknowledge s.ackno.toNat).2.noteWindow s.ackno.toNat s.window).2 }
  /-- Our FIN was acknowledged. -/
  | finAcked {fin : Nat} {phase : Phase} {closedAt : Option Int} (live : c.destroyed = false)
      (queued : c.outbound.fin = some fin) (acked : fin < c.inflight.acked)
      (next : c.phase.on? .finAcked = some phase)
      (closed : closedAt = c.closedAt ∨ phase = .closed) :
      Step g c { c with phase, closedAt }
  /-- A segment with payload or FIN is taken in. -/
  | insert {s : Segment} (live : c.destroyed = false) (hs : g.hears s)
      (data : s.isBareAck = false) :
      Step g c { c with received := (c.received.insert s).2 }.readvertise
  | deliver (live : c.destroyed = false) : Step g c c.deliver.2
  /-- A pure acknowledgment is sent. -/
  | answer (live : c.destroyed = false) (hg : g.answers)
      (current : c.outbound.numbering.window = c.window) : Step g c { c with endpoint :=
        (Endpoint.send c.endpoint (c.outbound.ack (UInt32.ofNat c.ackno)).encode).2 }
  /-- The application has got all of the peer's stream. -/
  | peerFin {phase : Phase} {closedAt : Option Int} (live : c.destroyed = false)
      (next : c.phase.on? .peerFin = some phase)
      (closed : closedAt = c.closedAt ∨ phase = .closed) :
      Step g c { c with phase, closedAt }
  | reset (live : c.destroyed = false) (hg : g.resets) (cause : Error) :
      Step g c { c with endpoint := Endpoint.reset c.endpoint cause }
  | destroy (live : c.destroyed = false) : Step g c c.destroy

/-- Some steps, one after another. -/
abbrev Steps (g : Grant) : Connection σ → Connection σ → Prop :=
  Relation.ReflTransGen (Step g)

variable {g : Grant} {c d : Connection σ}

/-- What every step keeps, all steps keep. -/
theorem Steps.keeps {I : Connection σ → Prop} (hI : ∀ {c d}, Step g c d → I c → I d)
    (h : Steps g c d) (hc : I c) : I d := by
  induction h with
  | refl => exact hc
  | tail _ hstep ih => exact hI hstep ih

/-- A destroyed connection stays destroyed. -/
theorem Step.live (h : Step g c d) (hd : d.destroyed = false) : c.destroyed = false := by
  cases h with
  | notice => exact hd
  | destroy live => exact live
  | _ => assumption

theorem Steps.live (h : Steps g c d) (hd : d.destroyed = false) : c.destroyed = false :=
  h.keeps (I := fun e => e.destroyed = false → c.destroyed = false)
    (fun hstep hc he => hc (hstep.live he)) (fun hc => hc) hd

/-! ## Teardown -/

@[simp] theorem destroyed_destroy (c : Connection σ) : c.destroy.destroyed = true := by
  unfold destroy
  split
  next hd => exact hd
  next => rfl

@[simp] theorem destroyed_abort (c : Connection σ) (cause : Error) :
    (c.abort cause).destroyed = true := by
  unfold abort
  split
  next hd => exact hd
  next => exact destroyed_destroy _

theorem destroy_steps (c : Connection σ) : Steps g c c.destroy := by
  cases hd : c.destroyed with
  | false => exact .single (.destroy hd)
  | true =>
    have heq : c.destroy = c := if_pos hd
    rw [heq]

theorem abort_steps (hg : g.resets) (c : Connection σ) (cause : Error) :
    Steps g c (c.abort cause) := by
  cases hd : c.destroyed with
  | false =>
    rw [abort, if_neg (by simp [hd])]
    exact (destroy_steps _).head (.reset hd hg cause)
  | true =>
    have heq : c.abort cause = c := if_pos hd
    rw [heq]

/-- Our FIN never closes a connection: it has to be acknowledged. -/
theorem advance_localFin (c : Connection σ) (now : Int) :
    (c.advance .localFin now).2 = { c with phase := (c.phase.on? .localFin).getD c.phase } := by
  unfold advance
  rw [if_neg (by simp)]
  cases hp : c.phase <;> simp [Phase.on, Phase.on?, ← hp]

/-- The event is ignored, or the connection goes on to the next phase and may be destroyed then. -/
theorem advance_cases (c : Connection σ) (event : TeardownEvent) (now : Int) :
    (c.advance event now).2 = c ∨ ∃ phase closedAt, c.phase.on? event = some phase ∧
      (closedAt = c.closedAt ∨ phase = .closed) ∧
      ((c.advance event now).2 = { c with phase, closedAt } ∨
        (c.advance event now).2 = { c with phase, closedAt }.destroy) := by
  unfold advance Phase.on
  split
  · exact .inl rfl
  · cases hon : c.phase.on? event with
    | none => exact .inl rfl
    | some phase =>
      right
      cases phase with
      | closed =>
        refine ⟨.closed, some now, rfl, .inr rfl, ?_⟩
        simp only
        split
        · exact .inr rfl
        · exact .inl rfl
      | _ => exact ⟨_, c.closedAt, rfl, .inl rfl, .inl rfl⟩

theorem advance_peerFin_steps (hd : c.destroyed = false) (now : Int) :
    Steps g c (c.advance .peerFin now).2 := by
  rcases c.advance_cases .peerFin now with heq | ⟨phase, closedAt, hon, hclosed, heq | heq⟩
  · rw [heq]
  · rw [heq]
    exact .single (.peerFin hd hon hclosed)
  · rw [heq]
    exact (destroy_steps _).head (.peerFin hd hon hclosed)

theorem advance_finAcked_steps {fin : Nat} (hd : c.destroyed = false)
    (hf : c.outbound.fin = some fin) (hacked : fin < c.inflight.acked) (now : Int) :
    Steps g c (c.advance .finAcked now).2 := by
  rcases c.advance_cases .finAcked now with heq | ⟨phase, closedAt, hon, hclosed, heq | heq⟩
  · rw [heq]
  · rw [heq]
    exact .single (.finAcked hd hf hacked hon hclosed)
  · rw [heq]
    exact (destroy_steps _).head (.finAcked hd hf hacked hon hclosed)

/-! ## Sending -/

theorem ensureSender_steps (hg : g.heeds) (c : Connection σ) (runtime : Bool) :
    Steps g c (c.ensureSender runtime).2 := by
  unfold ensureSender
  split
  · exact .refl
  · split
    · exact .refl
    · split
      · exact .refl
      · exact .single (.notice .ready c.permit hg)

theorem sendNext?_eq_some {now : Int} (h : c.sendNext? now = some d) : ∃ p outbound,
    c.destroyed = false ∧
    c.outbound.pop? c.inflight c.config.sendWindow = some (p, outbound) ∧
    d = { c with
      outbound
      inflight := (c.inflight.insert p now).2
      endpoint := (Endpoint.send c.endpoint p.wire).2 } := by
  unfold sendNext? at h
  split at h
  · cases h
  next hd =>
    split at h
    · cases h
    next p outbound hp => exact ⟨p, outbound, by simpa using hd, hp, (Option.some.inj h).symm⟩

theorem step_of_sendNext? (hg : g.sends) {now : Int} (h : c.sendNext? now = some d) :
    Step g c d := by
  obtain ⟨p, outbound, hd, hp, rfl⟩ := sendNext?_eq_some h
  exact .send hd hg now hp

theorem sendWhileAllowed_steps (hg : g.sends) (c : Connection σ) (now : Int) :
    Steps g c (c.sendWhileAllowed now) := by
  fun_induction sendWhileAllowed c now with
  | case1 => exact .refl
  | case2 c d hnext ih => exact ih.head (step_of_sendNext? hg hnext)

theorem senderTurn_steps (hg : g.sends) (hh : g.heeds) (c : Connection σ) (now : Int) :
    Steps g c (c.senderTurn now) := by
  have hsend : Steps g c (c.sendWhileAllowed now) := sendWhileAllowed_steps hg c now
  unfold senderTurn
  split
  · simp only
    split
    · exact hsend.tail (.notice .stopped _ hh)
    · exact hsend.tail (.notice .waiting false hh)
  · exact .refl

/-- Readings follow one another until one of them ends the input or gives none. -/
theorem pull_steps {g : Grant} (hg : g.reads) {window : UInt16} {ackno : UInt32} {endpoint : σ}
    {buffer : Bytes} {out : Outbound} (hd : c.destroyed = false) (he : c.endpoint = endpoint)
    (ho : c.outbound = out) (ha : UInt32.ofNat c.ackno = ackno) (hw : c.window = window)
    (hb : buffer.length ≤ c.config.maxPayload) (hf : out.fin = none) :
    let r := pull ackno window endpoint buffer out
    Steps g c { c with endpoint := r.2.1, outbound := r.2.2 } ∧
      (r.1 = .ended → ∃ last buffer reading,
        Steps g c { c with endpoint := last, outbound := r.2.2 } ∧
          Endpoint.read last buffer = (reading, r.2.1) ∧ reading.isEnd = true) := by
  fun_induction pull ackno window endpoint buffer out generalizing c with
  | case1 endpoint buffer out endpoint' hread =>
    subst he ho
    exact ⟨.single (.pause hd hread rfl hg), fun h => by cases h⟩
  | case2 endpoint buffer out endpoint' hread =>
    subst he ho
    exact ⟨.single (.pause hd hread rfl hg), fun _ => ⟨c.endpoint, buffer, .eof, .refl, hread, rfl⟩⟩
  | case3 endpoint buffer out cause endpoint' hread =>
    subst he ho
    exact ⟨.single (.pause hd hread rfl hg),
      fun _ => ⟨c.endpoint, buffer, .failed cause, .refl, hread, rfl⟩⟩
  | case4 endpoint buffer out written claimed endpoint' hread buffer' chunk =>
    subst he ho
    have hempty : chunk.isEmpty = true := ‹_›
    exact ⟨.single (.pause hd hread (List.isEmpty_iff.mp hempty) hg), fun h => by cases h⟩
  | case5 endpoint buffer out written claimed endpoint' hread buffer' chunk hne e =>
    subst he ho ha
    have hq : (c.outbound.setWindow window).queueData chunk (UInt32.ofNat c.ackno) = .error e := ‹_›
    have hset : Step g c { c with outbound := c.outbound.setWindow window } :=
      .setWindow hd window
    have hlen : buffer'.length = buffer.length := Bytes.length_overwrite buffer written
    have hle : chunk.length ≤ buffer'.length := List.length_take_le' ..
    have hle' : chunk.length ≤ c.config.maxPayload := by omega
    have hrefuse : Step g { c with outbound := c.outbound.setWindow window }
        { c with endpoint := endpoint', outbound := c.outbound.setWindow window } :=
      .refuse hd hf hread hle' hq hg
    exact ⟨(Relation.ReflTransGen.single hrefuse).head hset, fun h => by cases h⟩
  | case6 endpoint buffer out written claimed endpoint' hread buffer' chunk hne seqno queued hq =>
    rename_i ih
    subst he ho ha
    have hset : Step g c { c with outbound := c.outbound.setWindow window } :=
      .setWindow hd window
    have hqueue : Step g { c with outbound := c.outbound.setWindow window }
        { c with endpoint := endpoint', outbound := queued } :=
      .queue hd hread (fun h => hne (List.isEmpty_iff.mpr h)) hq hw.symm hg
    have hlen : buffer'.length = buffer.length := Bytes.length_overwrite buffer written
    have hfin : queued.fin = none := by
      obtain ⟨hnone, -, -, rfl⟩ := Outbound.queueData_eq_ok hq
      exact hnone
    obtain ⟨hsteps, hended⟩ := ih (c := { c with endpoint := endpoint', outbound := queued })
      hd rfl rfl rfl hw (by rw [hlen]; exact hb) hfin
    refine ⟨(hsteps.head hqueue).head hset, fun h => ?_⟩
    obtain ⟨last, buffer, reading, hlast, hrest⟩ := hended h
    exact ⟨last, buffer, reading, (hlast.head hqueue).head hset, hrest⟩

/-- Our FIN is queued after the last reading. -/
theorem queueFin_steps (hg : g.reads) {last : σ} {buffer : Bytes} {reading : Reading} {endpoint : σ}
    (hd : d.destroyed = false) (hsteps : Steps g c { d with endpoint := last })
    (hall : Steps g c { d with endpoint })
    (hread : Endpoint.read last buffer = (reading, endpoint)) (hend : reading.isEnd = true)
    (now : Int) : Steps g c ({ d with endpoint }.queueFin now).2 := by
  unfold queueFin
  simp only
  split
  next e hq =>
    have hset : Step g { d with endpoint }
        { d with endpoint, outbound := d.outbound.setWindow d.window } :=
      .setWindow (c := { d with endpoint }) hd d.window
    exact hall.tail hset
  next seqno outbound hq =>
    rw [advance_localFin]
    have hset : Step g { d with endpoint := last }
        { d with endpoint := last, outbound := d.outbound.setWindow d.window } :=
      .setWindow (c := { d with endpoint := last }) hd d.window
    have hfinish : Step g
        { d with endpoint := last, outbound := d.outbound.setWindow d.window }
        { d with endpoint, outbound, phase := (d.phase.on? .localFin).getD d.phase } :=
      .finish hd hread hend hq rfl hg
    exact (hsteps.tail hset).tail hfinish

theorem read_steps (hg : g.reads) (hh : g.heeds) (c : Connection σ) (now : Int) (runtime : Bool) :
    Steps g c (c.read now runtime).2 := by
  unfold read
  split
  · exact .refl
  next hd =>
    split
    · exact .refl
    next hf =>
      have hd' : c.destroyed = false := by simpa using hd
      have hpull := pull_steps hg hd' rfl rfl rfl (rfl : c.window = c.window)
        (Nat.le_of_eq (List.length_replicate (a := (0 : UInt8)))) (by simpa using hf)
      simp only
      generalize pull (UInt32.ofNat c.ackno) c.window c.endpoint _ c.outbound = r at hpull ⊢
      obtain ⟨pulled, endpoint, outbound⟩ := r
      obtain ⟨hsteps, hended⟩ := hpull
      cases pulled with
      | failed e => exact hsteps
      | paused => exact hsteps.trans (ensureSender_steps hh _ runtime)
      | ended =>
        obtain ⟨last, buffer, reading, hlast, hread, hend⟩ := hended rfl
        have hfin := queueFin_steps hg (d := { c with outbound }) hd' hlast hsteps hread hend now
        simp only
        generalize ({ c with endpoint, outbound } : Connection σ).queueFin now = r at hfin ⊢
        obtain ⟨result, after⟩ := r
        cases result with
        | error e => exact hfin
        | ok => exact hfin.trans (ensureSender_steps hh after runtime)

/-! ## Receiving -/

theorem deliver_steps (c : Connection σ) : Steps g c c.deliver.2 := by
  cases hd : c.destroyed with
  | false => exact .single (.deliver hd)
  | true =>
    have heq : c.deliver.2 = c := by rw [deliver, if_pos hd]
    rw [heq]

theorem sendBareAck_steps (hg : g.answers) (c : Connection σ) : Steps g c c.sendBareAck := by
  unfold sendBareAck
  split
  · exact .refl
  next hd =>
    have hd' : c.destroyed = false := by simpa using hd
    exact (Relation.ReflTransGen.single
      (.answer (c := { c with outbound := c.outbound.setWindow c.window }) hd' hg rfl)).head
      (.setWindow hd' c.window)

/-- A delivery concerns the endpoint and the receiving end alone. -/
theorem deliver_eq (c : Connection σ) : ∃ received endpoint ackno window,
    c.deliver.2 = { c with received, endpoint, ackno, window } := by
  unfold deliver
  split
  · exact ⟨_, _, _, _, rfl⟩
  · exact ⟨_, _, _, _, rfl⟩

theorem deliver_of_live (live : c.destroyed = false) :
    c.deliver.2 =
      { c with
        received := (c.received.deliver Endpoint.deliver c.endpoint).2.1
        endpoint := if (c.received.deliver Endpoint.deliver c.endpoint).1.eof then
          Endpoint.finish (c.received.deliver Endpoint.deliver c.endpoint).2.2
          else (c.received.deliver Endpoint.deliver c.endpoint).2.2 }.readvertise := by
  unfold deliver
  rw [if_neg (by simp [live])]

theorem destroyed_sendBareAck (c : Connection σ) : c.sendBareAck.destroyed = c.destroyed := by
  unfold sendBareAck
  split <;> rfl

theorem passOn_steps (hg : g.answers) (hd : c.destroyed = false) (always : Bool) (now : Int) :
    Steps g c (c.passOn always now).2 := by
  have hsteps : Steps g c c.deliver.2 := deliver_steps c
  have hlive : c.deliver.2.destroyed = c.destroyed := by
    obtain ⟨received, endpoint, ackno, window, heq⟩ := c.deliver_eq
    rw [heq]
  unfold passOn
  generalize c.deliver = r at hsteps hlive ⊢
  obtain ⟨delivery, after⟩ := r
  simp only at hsteps hlive ⊢
  have hanswer : Steps g c
      (if (always || delivery.progressed) = true then after.sendBareAck else after) := by
    split
    · exact hsteps.trans (sendBareAck_steps hg after)
    · exact hsteps
  have hstill : (if (always || delivery.progressed) = true then after.sendBareAck
      else after).destroyed = false := by
    split
    · rw [destroyed_sendBareAck, hlive, hd]
    · rw [hlive, hd]
  split
  · exact hanswer.trans (advance_peerFin_steps hstill now)
  · exact hanswer

theorem output_steps (hg : g.answers) (c : Connection σ) (now : Int) :
    Steps g c (c.output now).2 := by
  unfold output
  split
  · exact .refl
  next hd => exact passOn_steps hg (by simpa using hd) false now

omit [Endpoint σ] in
theorem notifySender_spec (c : Connection σ) : ∃ sender permit,
    c.notifySender = { c with sender, permit } ∧ c.sender.Told sender := by
  unfold notifySender
  split
  next => exact ⟨.ready, c.permit, rfl, by simp [SenderTask.Told]⟩
  next hbusy => exact ⟨c.sender, true, rfl, hbusy, fun h => h⟩

omit [Endpoint σ] in
/-- It may not be told at all. -/
theorem notifySender_if_spec (c : Connection σ) (opened : Bool) : ∃ sender permit,
    (if opened = true then c.notifySender else c) = { c with sender, permit } ∧
      (opened = false ∧ sender = c.sender ∨ c.sender.Told sender) := by
  cases opened with
  | false => exact ⟨c.sender, c.permit, rfl, .inl ⟨rfl, rfl⟩⟩
  | true =>
    obtain ⟨sender, permit, heq, htold⟩ := notifySender_spec c
    exact ⟨sender, permit, heq, .inr htold⟩

/-- The connection once it has taken in an acknowledgment and the window that came with it. -/
abbrev acknowledged (c : Connection σ) (s : Segment) : Connection σ :=
  { c with inflight :=
    ((c.inflight.acknowledge s.ackno.toNat).2.noteWindow s.ackno.toNat s.window).2 }

/-- What follows then: our FIN may have been acknowledged, and is not if it was not before and no
event is made of it; and the sender is told unless nothing was retired and the window did not
grow. -/
theorem handleAck_cases (c : Connection σ) (s : Segment) (now : Int) : ∃ sender permit,
    (c.handleAck s.ackno.toNat s.window now =
          (.ok (), { c.acknowledged s with sender, permit }) ∧
        ((c.inflight.acknowledge s.ackno.toNat).2 = c.inflight ∨
          ∀ fin, c.outbound.fin = some fin → (c.acknowledged s).inflight.acked ≤ fin) ∨
      ∃ fin, c.outbound.fin = some fin ∧ fin < (c.acknowledged s).inflight.acked ∧
        c.handleAck s.ackno.toNat s.window now =
          { c.acknowledged s with sender, permit }.advance .finAcked now) ∧
    ((c.inflight.acknowledge s.ackno.toNat).2 = c.inflight ∧
        (c.inflight.noteWindow s.ackno.toNat s.window).1 = false ∧ sender = c.sender ∨
      c.sender.Told sender) := by
  have huseless := c.inflight.acknowledge_eq_self s.ackno.toNat
  unfold handleAck acknowledged
  generalize c.inflight.acknowledge s.ackno.toNat = r at huseless ⊢
  obtain ⟨outcome, acked⟩ := r
  simp only at huseless ⊢
  have hquiet : acked = c.inflight → (acked.noteWindow s.ackno.toNat s.window).1 = false →
      (c.inflight.noteWindow s.ackno.toNat s.window).1 = false := by
    rintro rfl hclosed
    exact hclosed
  generalize acked.noteWindow s.ackno.toNat s.window = r at hquiet ⊢
  obtain ⟨opened, inflight⟩ := r
  simp only at hquiet ⊢
  -- first it is told of the window
  obtain ⟨sender, permit, heq, hopened⟩ :=
    notifySender_if_spec ({ c with inflight } : Connection σ) opened
  rw [heq]
  have hnothing : acked = c.inflight → acked = c.inflight ∧
      (c.inflight.noteWindow s.ackno.toNat s.window).1 = false ∧ sender = c.sender ∨
        c.sender.Told sender := by
    intro hsame
    rcases hopened with ⟨hclosed, hsender⟩ | htold
    · exact .inl ⟨hsame, hquiet hsame hclosed, hsender⟩
    · exact .inr htold
  cases outcome with
  | stale =>
    have hsame := huseless (by simp)
    exact ⟨sender, permit, .inl ⟨rfl, .inl hsame⟩, hnothing hsame⟩
  | beyond =>
    have hsame := huseless (by simp)
    exact ⟨sender, permit, .inl ⟨rfl, .inl hsame⟩, hnothing hsame⟩
  | advanced retired freed =>
    obtain ⟨sender', permit', heq', hbusy, hstopped⟩ :=
      notifySender_spec ({ c with inflight, sender, permit } : Connection σ)
    have hstopped' : sender' = .stopped → c.sender = .stopped := by
      intro h
      rcases hopened with ⟨-, rfl⟩ | ⟨-, hfirst⟩
      · exact hstopped h
      · exact hfirst (hstopped h)
    simp only [heq']
    refine ⟨sender', permit', ?_, .inr ⟨hbusy, hstopped'⟩⟩
    split
    next hany =>
      obtain ⟨fin, hf, hlt⟩ := (Option.any_eq_true _ _).mp hany
      exact .inr ⟨fin, hf, by simpa using hlt, rfl⟩
    next hnone =>
      refine .inl ⟨rfl, .inr fun fin hf => ?_⟩
      simp only [hf, Option.any_some, decide_eq_true_eq] at hnone
      exact Nat.le_of_not_lt hnone

theorem handleAck_steps (hg : g.heeds) (hd : c.destroyed = false) (s : Segment) (now : Int) :
    Steps g (c.acknowledged s) (c.handleAck s.ackno.toNat s.window now).2 := by
  obtain ⟨sender, permit, hafter, -⟩ := c.handleAck_cases s now
  have htold : Steps g (c.acknowledged s) { c.acknowledged s with sender, permit } :=
    .single (.notice sender permit hg)
  rcases hafter with ⟨heq, -⟩ | ⟨fin, hf, hacked, heq⟩
  · rw [heq]
    exact htold
  · rw [heq]
    exact htold.trans
      (advance_finAcked_steps (c := { c.acknowledged s with sender, permit }) hd hf hacked now)

theorem handleData_steps {s : Segment} (hg : g.answers) (hd : c.destroyed = false)
    (hs : g.hears s) (hdata : s.isBareAck = false) (now : Int) :
    Steps g c (c.handleData s now).2 :=
  (passOn_steps (c := { c with received := (c.received.insert s).2 }.readvertise) hg hd true
    now).head (.insert hd hs hdata)

/-- A segment has its acknowledgment taken in first, if it has one, and then its payload. -/
theorem receive_cases {datagram : Bytes} {s : Segment} (hd : c.destroyed = false)
    (hdecode : Segment.decode datagram = .ok s) (now : Int) :
    let after := if s.flags.contains .ack = true then (c.handleAck s.ackno.toNat s.window now).2
      else c
    (c.receive datagram now).2 = after ∨ s.isBareAck = false ∧ after.destroyed = false ∧
      (c.receive datagram now).2 = (after.handleData s now).2 := by
  have hdata : ∀ after : Connection σ,
      (if (s.isBareAck || after.destroyed) = true then
        ((.ok (), after) : Except Error Unit × Connection σ)
        else after.handleData s now).2 = after ∨
      s.isBareAck = false ∧ after.destroyed = false ∧
        (if (s.isBareAck || after.destroyed) = true then
          ((.ok (), after) : Except Error Unit × Connection σ)
          else after.handleData s now).2 = (after.handleData s now).2 := by
    intro after
    split
    next => exact .inl rfl
    next hgo =>
      simp only [Bool.or_eq_true, not_or, Bool.not_eq_true] at hgo
      exact .inr ⟨hgo.1, hgo.2, rfl⟩
  have hgo : ¬ c.destroyed = true := by simp [hd]
  unfold receive
  rw [if_neg hgo, hdecode]
  simp only
  by_cases hack : s.flags.contains .ack = true
  · rw [if_pos hack, if_pos hack]
    generalize c.handleAck s.ackno.toNat s.window now = r
    obtain ⟨result, after⟩ := r
    cases result with
    | error e => exact .inl rfl
    | ok => exact hdata after
  · rw [if_neg hack, if_neg hack]
    exact hdata c

theorem receive_steps_acknowledged {datagram : Bytes} {s : Segment} (hg : g.answers)
    (hh : g.heeds) (hd : c.destroyed = false) (hdecode : Segment.decode datagram = .ok s)
    (hs : g.hears s) (hack : s.flags.contains .ack = true) (now : Int) :
    Steps g (c.acknowledged s) (c.receive datagram now).2 := by
  have hsteps : Steps g (c.acknowledged s) _ := handleAck_steps hh hd s now
  have hcases := receive_cases hd hdecode now
  rw [if_pos hack] at hcases
  rcases hcases with heq | ⟨hdata, hlive, heq⟩
  · rw [heq]
    exact hsteps
  · rw [heq]
    exact hsteps.trans (handleData_steps hg hlive hs hdata now)

theorem receive_steps (hg : g.answers) (hh : g.heeds) (c : Connection σ) (datagram : Bytes)
    (now : Int) (hheard : ∀ s, Segment.decode datagram = .ok s → g.hears s) :
    Steps g c (c.receive datagram now).2 := by
  by_cases hd : c.destroyed = true
  · rw [receive, if_pos hd]
  · have hd' : c.destroyed = false := by simpa using hd
    cases hdecode : Segment.decode datagram with
    | error e =>
      unfold receive
      rw [if_neg hd, hdecode]
    | ok s =>
      have hs := hheard s hdecode
      by_cases hack : s.flags.contains .ack = true
      · exact (receive_steps_acknowledged hg hh hd' hdecode hs hack now).head
          (.acknowledge hd' hs hack hh)
      · have hcases := receive_cases hd' hdecode now
        rw [if_neg hack] at hcases
        rcases hcases with heq | ⟨hdata, -, heq⟩
        · rw [heq]
        · rw [heq]
          exact handleData_steps hg hd' hs hdata now

/-! ## The timer -/

theorem sendAll_steps (hg : g.times) {wires : List Bytes} (hd : c.destroyed = false)
    (hw : ∀ w ∈ wires, ∃ e ∈ c.inflight.entries.toList, e.wire = w) :
    Steps g c (c.sendAll wires) := by
  induction wires generalizing c with
  | nil => exact .refl
  | cons w wires ih =>
    obtain ⟨e, he, rfl⟩ := hw w (.head wires)
    have hrest := ih (c := { c with endpoint := (Endpoint.send c.endpoint e.wire).2 }) hd
      fun w hmem => hw w (.tail _ hmem)
    exact hrest.head (.resend hd hg he)

/-- The connection once the timer has restamped what is overdue. -/
abbrev restamped (c : Connection σ) (now : Int) : Connection σ :=
  { c with inflight := (c.inflight.resendOverdue now c.config).2 }

/-- What the timer decides is done in steps, unless it gives the connection up. What it leaves to
be resent are packets in flight. -/
theorem timerAction_cases (hg : g.times) (c : Connection σ) (now : Int) (busy : Bool) :
    (∃ outcome d, c.timerAction now busy = (.done outcome, d) ∧
      (Steps g c d ∨
        ∃ cause, Step g c (c.restamped now) ∧ d = (c.restamped now).abort cause)) ∨
      ∃ wires, c.destroyed = false ∧ wires ≠ [] ∧
        (∀ w ∈ wires, ∃ e ∈ c.inflight.entries.toList, e.wire = w) ∧
        c.timerAction now busy = (.resend wires, c.restamped now) := by
  unfold timerAction
  by_cases hd : c.destroyed = true
  · rw [if_pos hd]
    exact .inl ⟨_, _, rfl, .inl .refl⟩
  rw [if_neg hd]
  have hd' : c.destroyed = false := by simpa using hd
  by_cases hlinger : c.hasLingered now = true
  · rw [if_pos hlinger]
    exact .inl ⟨_, _, rfl, .inl (destroy_steps c)⟩
  rw [if_neg hlinger]
  by_cases hbusy : busy = true
  · rw [if_pos hbusy]
    exact .inl ⟨_, _, rfl, .inl .refl⟩
  rw [if_neg hbusy]
  have hstamp : Step g c (c.restamped now) := .restamp hd' hg now
  have hwires : ∀ wires, (c.inflight.resendOverdue now c.config).1 = .resend wires →
      ∀ w ∈ wires, ∃ e ∈ c.inflight.entries.toList, e.wire = w := fun _ h =>
    SentPacket.mem_of_resendOverdue h
  unfold restamped at hstamp ⊢
  generalize c.inflight.resendOverdue now c.config = r at hstamp hwires ⊢
  obtain ⟨overdue, inflight⟩ := r
  cases overdue with
  | exhausted seqno resends => exact .inl ⟨_, _, rfl, .inr ⟨_, hstamp, rfl⟩⟩
  | resend wires =>
    cases wires with
    | nil => exact .inl ⟨_, _, rfl, .inl (.single hstamp)⟩
    | cons w wires => exact .inr ⟨_, hd', List.cons_ne_nil w wires, hwires _ rfl, rfl⟩

/-- A pass consists of steps, unless the connection is given up at its end. -/
theorem timerPass_steps_or_abort (hg : g.times) (c : Connection σ) (now : Int) (busy : Bool) :
    Steps g c (c.timerPass now busy).2 ∨ ∃ d cause, Steps g c d ∧
      (c.timerPass now busy).2 = d.abort cause := by
  unfold timerPass
  rcases timerAction_cases hg c now busy with ⟨outcome, d, heq, hdone⟩ | ⟨wires, hd, -, hw, heq⟩
  · rw [heq]
    rcases hdone with hsteps | ⟨cause, hstamp, rfl⟩
    · exact .inl hsteps
    · exact .inr ⟨_, cause, .single hstamp, rfl⟩
  · rw [heq]
    -- the packets are the same before they are restamped
    have hafter : Step g (c.sendAll wires) ((c.restamped now).sendAll wires) :=
      .restamp (c := c.sendAll wires) hd hg now
    exact .inl ((sendAll_steps hg hd hw).tail hafter)

theorem timerPass_steps (hg : g.times) (hr : g.resets) (c : Connection σ) (now : Int)
    (busy : Bool) : Steps g c (c.timerPass now busy).2 := by
  rcases timerPass_steps_or_abort hg c now busy with hsteps | ⟨d, cause, hsteps, heq⟩
  · exact hsteps
  · rw [heq]
    exact hsteps.trans (abort_steps hr d cause)

end Connection

end ReliableStream
