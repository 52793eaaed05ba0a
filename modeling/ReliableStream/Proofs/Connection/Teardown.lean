import ReliableStream.Endpoint.InMemory
import ReliableStream.Proofs.Connection.Attendance
import ReliableStream.Proofs.Connection.Timer
import ReliableStream.Proofs.Connection.Traffic
import ReliableStream.Proofs.Segment.Decoding

/-!
# Teardown goes with the data

The phase of a connection is kept beside its three parts: what waits to be sent, what is in flight
and what was received. Whatever is done with the connection, whatever comes from the network and
whatever its endpoint does, the phase says what has become of the two FINs (`InStep`), and no event
ever comes in a phase where it cannot happen (`phase_in_step`).

* `advance_of_on?`: an event that can happen.
* `Proper`: an operation has gone well, if no event was impossible and the connection is in step
  afterwards. Each operation has one lemma.
* `Lived`: a connection that was created and has made moves; what each of its steps keeps is true of
  it (`Lived.rule`).
-/

namespace ReliableStream

namespace Connection

variable {σ : Type} [Endpoint σ] {c d : Connection σ} {now : Int}

/-- The phase says which of the two FINs there are, and a closed connection knows since when. -/
structure InStep (c : Connection σ) : Prop where
  finSent : c.phase.isFinSent = c.outbound.fin.isSome
  awaits : c.phase.awaitsFinAck = true ↔
    ∃ fin, c.outbound.fin = some fin ∧ c.inflight.acked ≤ fin
  peerFin : c.phase.isPeerFin = c.received.finished
  closed : c.closedAt.isSome = true ↔ c.phase = .closed

/-- The operation had nothing to do with an impossible event, and the connection is in step after
it, if it is still there. -/
structure Proper (r : Except Error Unit × Connection σ) : Prop where
  result : ∀ phase event, r.1 ≠ .error (.impossibleEvent phase event)
  inStep : r.2.destroyed = false → r.2.InStep

omit [Endpoint σ] in
/-- Only the FINs matter. -/
theorem InStep.congr (h : c.InStep) (hphase : d.phase = c.phase) (hclosed : d.closedAt = c.closedAt)
    (hfin : d.outbound.fin = c.outbound.fin) (hacked : d.inflight.acked = c.inflight.acked)
    (hfinished : d.received.finished = c.received.finished) : d.InStep := by
  obtain ⟨h1, h2, h3, h4⟩ := h
  refine ⟨?_, ?_, ?_, ?_⟩
  · rw [hphase, hfin]
    exact h1
  · rw [hphase, hfin, hacked]
    exact h2
  · rw [hphase, hfinished]
    exact h3
  · rw [hphase, hclosed]
    exact h4

omit [Endpoint σ] in
/-- A FIN that is waited for is not acknowledged. -/
theorem InStep.acked_le {fin : Nat} (h : c.InStep) (hf : c.outbound.fin = some fin)
    (hawaits : c.phase.awaitsFinAck = true) : c.inflight.acked ≤ fin := by
  obtain ⟨fin', hf', hle⟩ := h.awaits.mp hawaits
  obtain rfl := Option.some.inj (hf.symm.trans hf')
  exact hle

/-! ## Events -/

/-- The connection goes on to the phase that follows, and is destroyed if that is the last and it
does not linger. -/
theorem advance_of_on? {event : TeardownEvent} {phase : Phase}
    (hon : c.phase.on? event = some phase) (now : Int) : ∃ closedAt,
    (phase = .closed ∧ closedAt = some now ∨ phase ≠ .closed ∧ closedAt = c.closedAt) ∧
      c.advance event now = (.ok (), if phase = .closed ∧ c.config.linger = 0 then
        { c with phase, closedAt }.destroy else { c with phase, closedAt }) := by
  have hcounts : ¬ (event = .finAcked ∧ (!c.phase.awaitsFinAck) = true) := by
    rintro ⟨rfl, hnot⟩
    simp [Phase.awaitsFinAck_of_on? hon] at hnot
  unfold advance Phase.on
  rw [if_neg hcounts, hon]
  cases phase with
  | closed => exact ⟨some now, .inl ⟨rfl, rfl⟩, by simp⟩
  | _ => exact ⟨c.closedAt, .inr ⟨by simp, rfl⟩, by simp⟩

/-- An acknowledgment of our FIN is ignored if it is not waited for. -/
theorem advance_finAcked_eq (h : c.phase.awaitsFinAck = false) (now : Int) :
    c.advance .finAcked now = (.ok (), c) := by
  unfold advance
  rw [if_pos ⟨rfl, by simp [h]⟩]

/-- The event can happen, and the phase that follows is the right one. -/
theorem proper_advance {event : TeardownEvent} {phase : Phase}
    (hon : c.phase.on? event = some phase) (hfin : phase.isFinSent = c.outbound.fin.isSome)
    (hawaits : phase.awaitsFinAck = true ↔
      ∃ fin, c.outbound.fin = some fin ∧ c.inflight.acked ≤ fin)
    (hpeer : phase.isPeerFin = c.received.finished)
    (hclosed : c.closedAt.isSome = true ↔ c.phase = .closed) (now : Int) :
    Proper (c.advance event now) := by
  obtain ⟨closedAt, hat, heq⟩ := advance_of_on? hon now
  rw [heq]
  refine ⟨by simp, fun live => ?_⟩
  simp only at live ⊢
  split at live
  · simp at live
  next hstays =>
    rw [if_neg hstays]
    refine ⟨hfin, hawaits, hpeer, ?_⟩
    rcases hat with ⟨rfl, rfl⟩ | ⟨hne, rfl⟩
    · simp
    · have hopen := Phase.ne_closed_of_on? hon
      exact iff_of_false (fun h => hopen (hclosed.mp h)) hne

/-! ## Reading -/

omit [Endpoint σ] in
/-- Nothing is acknowledged that was not numbered. -/
theorem Orderly.acked_le_next (h : c.Orderly) : c.inflight.acked ≤ c.outbound.next := by
  obtain ⟨t, hnumbered⟩ := h.numbered
  exact Nat.le_trans hnumbered.counts.acked_le hnumbered.counts.sent_le

theorem InStep.queueFin (h : c.InStep) (ho : c.Orderly) (hf : c.outbound.fin = none) (now : Int) :
    Proper (c.queueFin now) := by
  unfold Connection.queueFin
  simp only
  split
  next e hq =>
    have he : e = .outOfPositions := Outbound.queueFin_eq_error hq hf
    exact ⟨by simp [he], fun _ => h.congr rfl rfl rfl rfl rfl⟩
  next seqno outbound hq =>
    have hfin : outbound.fin = some c.outbound.next := by
      obtain ⟨-, -, rfl⟩ := Outbound.queueFin_eq_ok hq
      rfl
    have hunsent : c.phase.isFinSent = false := by
      rw [h.finSent, hf]
      rfl
    obtain ⟨phase, hon, hsent, hawaits, hpeer⟩ := Phase.exists_localFin hunsent
    refine proper_advance (c := { c with outbound }) hon ?_
      (iff_of_true hawaits ⟨_, hfin, ho.acked_le_next⟩) (hpeer.trans h.peerFin) h.closed now
    rw [hsent, hfin]
    rfl

omit [Endpoint σ] in
/-- To have a sender is no matter of teardown. -/
theorem proper_ensureSender (h : c.destroyed = false → c.InStep) (runtime : Bool) :
    Proper (c.ensureSender runtime) := by
  unfold ensureSender
  split
  · exact ⟨by simp, h⟩
  · split
    · exact ⟨by simp, h⟩
    · split
      · exact ⟨by simp, h⟩
      · exact ⟨by simp, fun live => (h live).congr rfl rfl rfl rfl rfl⟩

theorem proper_read (ho : c.Orderly) (h : c.destroyed = false → c.InStep) (now : Int)
    (runtime : Bool) : Proper (c.read now runtime) := by
  unfold read
  split
  next hd => exact ⟨by simp, h⟩
  next hd =>
    have live : c.destroyed = false := by simpa using hd
    split
    next => exact ⟨by simp, h⟩
    next hf =>
      have hfin : c.outbound.fin = none := by simpa using hf
      have hlen := List.length_replicate (n := c.config.maxPayload) (a := (0 : UInt8))
      let g : Grant := { hears := fun _ => False }
      have hsteps : Steps g c _ := (pull_steps (g := g) trivial live rfl rfl rfl
        (rfl : c.window = c.window) (Nat.le_of_eq hlen) hfin).1
      have hspec := pull_spec (UInt32.ofNat c.ackno) c.window c.endpoint hfin
        (Nat.le_of_eq (hlen.trans ho.maxPayload_eq.symm))
      have horderly := hsteps.orderly ho
      simp only at hspec horderly ⊢
      generalize pull (UInt32.ofNat c.ackno) c.window c.endpoint _ c.outbound = r
        at hspec horderly ⊢
      obtain ⟨pulled, endpoint, outbound⟩ := r
      obtain ⟨hnone, hfailed⟩ := hspec
      simp only at hnone hfailed horderly ⊢
      have hread : InStep { c with endpoint, outbound } :=
        (h live).congr rfl rfl (hnone.trans hfin.symm) rfl rfl
      cases pulled with
      | failed e => exact ⟨by simp [hfailed e rfl], fun _ => hread⟩
      | paused => exact proper_ensureSender (fun _ => hread) runtime
      | ended =>
        have hqueued := hread.queueFin horderly hnone now
        simp only
        generalize ({ c with endpoint, outbound } : Connection σ).queueFin now = r at hqueued ⊢
        obtain ⟨result, after⟩ := r
        cases result with
        | error e => exact hqueued
        | ok => exact proper_ensureSender hqueued.inStep runtime

/-! ## Receiving -/

theorem sendBareAck_eq (c : Connection σ) : ∃ outbound endpoint,
    c.sendBareAck = { c with outbound, endpoint } ∧ outbound.fin = c.outbound.fin := by
  unfold sendBareAck
  split
  · exact ⟨c.outbound, c.endpoint, rfl, rfl⟩
  · exact ⟨_, _, rfl, rfl⟩

theorem InStep.passOn (h : c.InStep) (live : c.destroyed = false) (always : Bool) (now : Int) :
    Proper (c.passOn always now) := by
  -- the delivery tells the application of the end if the peer's FIN is an event
  have hdelivered : ∃ received endpoint ackno window,
      c.deliver.2 = { c with received, endpoint, ackno, window } ∧
      received.finished = (c.received.finished || c.deliver.1.eof) ∧
      (c.deliver.1.eof = true → c.received.finished = false) := by
    have hfinished := c.received.finished_deliver Endpoint.deliver c.endpoint
    unfold deliver
    rw [if_neg (by simp [live])]
    exact ⟨_, _, _, _, rfl, hfinished⟩
  obtain ⟨received, endpoint, ackno, window, heq, hfinished, hfirst⟩ := hdelivered
  unfold Connection.passOn
  generalize c.deliver = r at heq hfinished hfirst
  obtain ⟨delivery, after⟩ := r
  simp only at heq hfinished hfirst ⊢
  obtain ⟨outbound, endpoint, heq', hfin⟩ : ∃ outbound endpoint,
      (if (always || delivery.progressed) = true then after.sendBareAck else after) =
        { c with received, endpoint, ackno, window, outbound } ∧ outbound.fin = c.outbound.fin := by
    rw [heq]
    split
    · obtain ⟨outbound, endpoint, hack, hfin⟩ :=
        sendBareAck_eq ({ c with received, endpoint, ackno, window } : Connection σ)
      exact ⟨outbound, endpoint, hack, hfin⟩
    · exact ⟨c.outbound, endpoint, rfl, rfl⟩
  rw [heq']
  split
  next heof =>
    obtain ⟨phase, hon, hsent, hawaits, hpeer⟩ :=
      Phase.exists_peerFin (h.peerFin.trans (hfirst heof))
    refine proper_advance (c := { c with received, endpoint, ackno, window, outbound }) hon ?_ ?_ ?_
      h.closed now
    · rw [hsent, h.finSent, hfin]
    · rw [hawaits, hfin]
      exact h.awaits
    · rw [hpeer, hfinished, heof, Bool.or_true]
  next heof =>
    refine ⟨by simp, fun _ => h.congr rfl rfl hfin rfl ?_⟩
    have hopen : delivery.eof = false := by simpa using heof
    rw [hfinished, hopen, Bool.or_false]

/-- What an acknowledgment does to our FIN. -/
theorem InStep.handleAck (h : c.InStep) (s : Segment) (now : Int) :
    Proper (c.handleAck s.ackno.toNat s.window now) := by
  have hacked : (c.acknowledged s).inflight.acked =
      (c.inflight.acknowledge s.ackno.toNat).2.acked := Inflight.acked_noteWindow ..
  have hle := c.inflight.acked_le_acknowledge s.ackno.toNat
  obtain ⟨sender, permit, hafter, -⟩ := c.handleAck_cases s now
  rcases hafter with ⟨heq, hquiet⟩ | ⟨fin, hf, hlt, heq⟩
  · rw [heq]
    refine ⟨by simp, fun _ => ?_⟩
    rcases hquiet with hsame | hnot
    · rw [hsame] at hacked
      exact h.congr rfl rfl rfl hacked rfl
    · refine ⟨h.finSent, h.awaits.trans (exists_congr fun fin => and_congr_right fun hf => ?_),
        h.peerFin, h.closed⟩
      have := hnot fin hf
      exact iff_of_true (by omega) this
  · rw [heq]
    have hgone : ¬ ∃ fin', c.outbound.fin = some fin' ∧
        (c.acknowledged s).inflight.acked ≤ fin' := by
      rintro ⟨fin', hf', hle'⟩
      obtain rfl := Option.some.inj (hf.symm.trans hf')
      exact absurd hlt (Nat.not_lt.mpr hle')
    cases hawaits : c.phase.awaitsFinAck with
    | true =>
      obtain ⟨phase, hon, hsent, hdone, hpeer⟩ := Phase.exists_finAcked hawaits
      refine proper_advance (c := { c.acknowledged s with sender, permit }) hon ?_ ?_ ?_ h.closed
        now
      · rw [hsent]
        exact (by rw [hf]; rfl : c.outbound.fin.isSome = true).symm
      · exact iff_of_false (by simp [hdone]) hgone
      · exact hpeer.trans h.peerFin
    | false =>
      rw [advance_finAcked_eq (c := { c.acknowledged s with sender, permit }) hawaits now]
      exact ⟨by simp, fun _ =>
        ⟨h.finSent, iff_of_false (by simp [hawaits]) hgone, h.peerFin, h.closed⟩⟩

theorem proper_receive (h : c.destroyed = false → c.InStep) (datagram : Bytes) (now : Int) :
    Proper (c.receive datagram now) := by
  unfold receive
  split
  next => exact ⟨by simp, h⟩
  next hd =>
    have live : c.destroyed = false := by simpa using hd
    split
    next e hdecode =>
      have hbad := Segment.isBadDatagram_of_decode hdecode
      refine ⟨fun phase event heq => ?_, h⟩
      rw [Except.error.inj heq] at hbad
      cases hbad
    next s hdecode =>
      have hafter : Proper (if s.flags.contains .ack = true then
          c.handleAck s.ackno.toNat s.window now else (.ok (), c)) := by
        split
        · exact (h live).handleAck s now
        · exact ⟨by simp, h⟩
      simp only
      generalize (if s.flags.contains .ack = true then
          c.handleAck s.ackno.toNat s.window now else (.ok (), c)) = r at hafter ⊢
      obtain ⟨result, after⟩ := r
      cases result with
      | error e => exact hafter
      | ok =>
        simp only
        split
        next => exact hafter
        next hgo =>
          simp only [Bool.or_eq_true, not_or, Bool.not_eq_true] at hgo
          have hin : InStep { after with received := (after.received.insert s).2 }.readvertise :=
            (hafter.inStep hgo.2).congr rfl rfl rfl rfl (after.received.finished_insert s)
          exact hin.passOn hgo.2 true now

theorem proper_output (h : c.destroyed = false → c.InStep) (now : Int) :
    Proper (c.output now) := by
  unfold output
  split
  · exact ⟨by simp, h⟩
  next hd =>
    have live : c.destroyed = false := by simpa using hd
    exact (h live).passOn live false now

/-! ## Sending and the timer -/

theorem InStep.sendNext (h : c.InStep) (hd : c.sendNext? now = some d) : d.InStep := by
  obtain ⟨p, outbound, -, hpop, rfl⟩ := sendNext?_eq_some hd
  have hfin : outbound.fin = c.outbound.fin := by
    unfold Outbound.fin
    rw [Outbound.numbering_of_pop? hpop]
  exact h.congr rfl rfl hfin (Inflight.acked_insert ..) rfl

theorem inStep_sendWhileAllowed (c : Connection σ) (now : Int) (h : c.InStep) :
    (c.sendWhileAllowed now).InStep := by
  fun_induction sendWhileAllowed c now with
  | case1 => exact h
  | case2 c d hnext ih => exact ih (h.sendNext hnext)

theorem InStep.senderTurn (h : c.InStep) (now : Int) : (c.senderTurn now).InStep := by
  have hsent := inStep_sendWhileAllowed c now h
  unfold Connection.senderTurn
  split
  · simp only
    split
    · exact hsent.congr rfl rfl rfl rfl rfl
    · exact hsent.congr rfl rfl rfl rfl rfl
  · exact h

theorem InStep.timerPass (h : c.InStep) (now : Int) (busy : Bool)
    (live : (c.timerPass now busy).2.destroyed = false) : (c.timerPass now busy).2.InStep := by
  rcases c.timerPass_rest_or now busy with ⟨-, -, heq | heq⟩ | ⟨hd, hl, rfl⟩
  · rw [heq]
    exact h
  · rw [heq, destroyed_destroy] at live
    cases live
  · rcases timerPass_cases hd hl with ⟨-, endpoint, -, -, heq⟩ | ⟨x, -, -, -, hdead⟩
    · rw [heq]
      exact h.congr rfl rfl rfl rfl rfl
    · rw [hdead] at live
      cases live

/-! ## All that can be done -/

/-- A connection that was created and has made moves, in any order and over any endpoint, with any
datagrams from the network. -/
inductive Lived : Connection σ → Prop
  | created (id : Nat) {config : Config} (valid : config.Valid) (endpoint : σ) :
      Lived (created id config valid endpoint)
  | move {c : Connection σ} (h : Lived c) (m : Move σ) : Lived (c.move m)

/-- What is true at first and is kept by every step, and is no matter of the endpoint's state, is
true as long as a connection lives. -/
theorem Lived.rule {I : Connection σ → Prop} (h : Lived c)
    (created : ∀ (id : Nat) {config : Config} (valid : config.Valid) (endpoint : σ),
      I (Connection.created id config valid endpoint))
    (step : ∀ {g : Grant} {c d : Connection σ}, Step g c d → I c → I d)
    (adjust : ∀ {c : Connection σ} (endpoint : σ), I c → I { c with endpoint }) : I c := by
  induction h with
  | created id valid endpoint => exact created id valid endpoint
  | @move c h m ih =>
    cases m with
    | deed x => exact perform_keeps step adjust ih
    | sendNext now =>
      exact (sendNext_steps (g := { hears := fun _ => False }) trivial c now).keeps step ih

omit [Endpoint σ] in
theorem inStep_created (id : Nat) {config : Config} (valid : config.Valid) (endpoint : σ) :
    (created id config valid endpoint).InStep where
  finSent := rfl
  awaits := iff_of_false nofun (by rintro ⟨fin, hf, -⟩; cases hf)
  peerFin := rfl
  closed := iff_of_false nofun nofun

/-- Every deed keeps a connection in step, if it does not end it. -/
theorem InStep.perform (ho : c.Orderly) (h : c.destroyed = false → c.InStep) (x : Deed σ)
    (live : (c.perform x).destroyed = false) : (c.perform x).InStep := by
  have hlive := live_of_perform live
  cases x with
  | read now runtime => exact (proper_read ho h now runtime).inStep live
  | ensureSender runtime => exact (proper_ensureSender h runtime).inStep live
  | senderTurn now => exact (h hlive).senderTurn now
  | receive datagram now => exact (proper_receive h datagram now).inStep live
  | output now => exact (proper_output h now).inStep live
  | timerPass now busy => exact (h hlive).timerPass now busy live
  | abort cause => exact absurd live (by simp [Connection.perform])
  | destroy => exact absurd live (by simp [Connection.perform])
  | adjust change => exact (h hlive).congr rfl rfl rfl rfl rfl

theorem Lived.orderly (h : Lived c) : c.Orderly ∧ (c.destroyed = false → c.InStep) := by
  induction h with
  | created id valid endpoint =>
    exact ⟨orderly_created id valid endpoint, fun _ => inStep_created id valid endpoint⟩
  | @move c h m ih =>
    cases m with
    | deed x => exact ⟨ih.1.perform x, fun live => InStep.perform ih.1 ih.2 x live⟩
    | sendNext now =>
      show ((c.sendNext? now).getD c).Orderly ∧
        (((c.sendNext? now).getD c).destroyed = false → ((c.sendNext? now).getD c).InStep)
      cases hnext : c.sendNext? now with
      | none => exact ih
      | some d =>
        let g : Grant := { hears := fun _ => False }
        have hstep : Step g c d := step_of_sendNext? trivial hnext
        exact ⟨hstep.orderly ih.1, fun live => (ih.2 (hstep.live live)).sendNext hnext⟩

/-- A pass of the timer that finds nothing in flight resends nothing and does not give up. -/
theorem timerPass_of_nil (hnil : c.inflight.entries.toList = []) (now : Int) (busy : Bool) :
    (c.timerPass now busy).1.hasResent = false ∧ (c.timerPass now busy).1.isDead = false := by
  rcases c.timerPass_rest_or now busy with ⟨hresent, halive, -⟩ | ⟨hd, hl, rfl⟩
  · exact ⟨hresent, halive⟩
  · rcases timerPass_cases hd hl with ⟨-, endpoint, halive, hresent, -⟩ | ⟨x, hx, -⟩
    · rw [hresent, hnil]
      exact ⟨rfl, halive⟩
    · rw [hnil] at hx
      cases hx

/-- As long as a connection is there, its phase says whether its FIN is queued, whether that is
acknowledged, and whether the application has been told of the peer's; when its own is acknowledged
it has nothing left to send; and it knows since when it is closed exactly if it is. No operation
ever answers that an event was impossible. -/
theorem phase_in_step (h : Lived c) :
    (c.destroyed = false →
      (c.phase.isFinSent = true ↔ c.outbound.fin.isSome = true) ∧
      (c.phase.awaitsFinAck = true ↔
        ∃ fin, c.outbound.fin = some fin ∧ c.inflight.acked ≤ fin) ∧
      (c.phase ∈ [.closeWait, .lastAck, .closing, .closed] ↔ c.received.finished = true) ∧
      (c.phase ∈ [.finAcked, .closed] →
        c.outbound.queue.toList = [] ∧ c.inflight.entries.toList = [] ∧
        ∀ now busy, (c.timerPass now busy).1.hasResent = false ∧
          (c.timerPass now busy).1.isDead = false) ∧
      (c.closedAt.isSome = true ↔ c.phase = .closed)) ∧
    ∀ phase event,
      (∀ now runtime, (c.read now runtime).1 ≠ .error (.impossibleEvent phase event)) ∧
      (∀ runtime, (c.ensureSender runtime).1 ≠ .error (.impossibleEvent phase event)) ∧
      (∀ datagram now, (c.receive datagram now).1 ≠ .error (.impossibleEvent phase event)) ∧
      ∀ now, (c.output now).1 ≠ .error (.impossibleEvent phase event) := by
  obtain ⟨ho, hin⟩ := h.orderly
  refine ⟨fun live => ?_, fun phase event => ⟨fun now runtime => ?_, fun runtime => ?_,
    fun datagram now => ?_, fun now => ?_⟩⟩
  · have hstep := hin live
    refine ⟨by rw [hstep.finSent], hstep.awaits, ?_, fun hphase => ?_, hstep.closed⟩
    · rw [← Phase.isPeerFin_iff, hstep.peerFin]
    · have hdone : c.phase.isFinSent = true ∧ c.phase.awaitsFinAck = false := by
        rcases List.mem_pair.mp hphase with hp | hp <;> rw [hp] <;> exact ⟨rfl, rfl⟩
      obtain ⟨fin, hfin, hlt⟩ := ho.phase.finAcked live hdone.1 hdone.2
      obtain ⟨hqueue, hentries⟩ := ho.nothing_left live hfin hlt
      exact ⟨hqueue, hentries, timerPass_of_nil hentries⟩
  · exact (proper_read ho hin now runtime).result phase event
  · exact (proper_ensureSender hin runtime).result phase event
  · exact (proper_receive hin datagram now).result phase event
  · exact (proper_output hin now).result phase event

/-! ### Both finish at once

The connection has sent its FIN. One datagram acknowledges that and brings the peer's. -/

def parting : Connection InMemory :=
  ((created 1 {} (Config.check_eq_ok_iff.mp (by decide)) { inputClosed := true }).move
    (.deed (.read 0 true))).move (.deed (.senderTurn 0))

def parted : Connection InMemory :=
  parting.move (.deed (.receive (Segment.sealed 1 2 (.ack ||| .fin) 1440 []).encode 5))

theorem lived_parted : Lived parted := .move (.move (.move (.created ..) _) _) _

theorem parted_in_step :
    Lived parted ∧ parted.destroyed = false ∧ parted.closedAt = some 5 ∧
      parted.received.finished = true ∧ parted.inflight.entries.toList = [] := by
  have live : parted.destroyed = false := by decide +kernel
  have hat : parted.closedAt = some 5 := by decide +kernel
  obtain ⟨-, -, hpeer, hdone, hclosed⟩ := (phase_in_step lived_parted).1 live
  have hphase : parted.phase = .closed := hclosed.mp (by rw [hat]; rfl)
  refine ⟨lived_parted, live, hat, hpeer.mp ?_, (hdone ?_).2.1⟩
  · simp [hphase]
  · simp [hphase]

end Connection

end ReliableStream
