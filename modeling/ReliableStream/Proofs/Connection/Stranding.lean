import ReliableStream.Proofs.Connection.Teardown

/-!
# Reads that leave something behind

A read that goes well is to leave a sender behind, if anything waits to be sent (`Served`). But a
connection whose FIN is queued reads no more, and does not look for a sender then either. So when
the read that queues the FIN finds no runtime, it fails and leaves what it queued without a sender,
and all later reads go well and leave it so.

* `Alike`: nothing has changed that matters here. Most deeds are like that (`alike_receive`,
  `Steps.alike`).
* `stranded_perform`: what strands a connection, and what helps it.
* `served_iff_not_abandoned`: a read that goes well leaves a sender behind if and only if no earlier
  one has queued the FIN and failed, unless a sender was started since.
-/

namespace ReliableStream

namespace Connection

variable {σ : Type} [Endpoint σ] {g : Grant} {c d e : Connection σ} {now : Int} {runtime : Bool}

/-- Nothing waits to be sent, or a task is there that sends it. -/
def Served (c : Connection σ) : Prop :=
  c.outbound.queue.toList = [] ∨ c.senderRunning = true

/-- All is queued, and there is no task that sends what waits. -/
def Stranded (c : Connection σ) : Prop := c.outbound.fin.isSome = true ∧ ¬ c.Served

/-! ## What does not matter -/

/-- Neither what waits has changed, nor whether there is a sender. -/
structure Alike (c d : Connection σ) : Prop where
  fin_eq : d.outbound.fin = c.outbound.fin
  queue_eq : d.outbound.queue = c.outbound.queue
  running_eq : d.senderRunning = c.senderRunning

namespace Alike

omit [Endpoint σ] in
theorem refl (c : Connection σ) : c.Alike c := ⟨rfl, rfl, rfl⟩

omit [Endpoint σ] in
theorem trans (h : c.Alike d) (h' : d.Alike e) : c.Alike e :=
  ⟨h'.fin_eq.trans h.fin_eq, h'.queue_eq.trans h.queue_eq, h'.running_eq.trans h.running_eq⟩

omit [Endpoint σ] in
theorem stranded_iff (h : c.Alike d) : d.Stranded ↔ c.Stranded := by
  unfold Stranded Served
  rw [h.fin_eq, h.queue_eq, h.running_eq]

end Alike

/-- Without reading, there is no FIN that was not there before. -/
theorem Step.fin_eq (h : Step g c d) (hg : ¬ g.reads) : d.outbound.fin = c.outbound.fin := by
  cases h with
  | queue _ _ _ _ _ hreads => exact absurd hreads hg
  | finish _ _ _ _ _ hreads => exact absurd hreads hg
  | send _ _ _ hpop => exact congrArg Numbering.fin (Outbound.numbering_of_pop? hpop)
  | deliver =>
    obtain ⟨received, endpoint, ackno, window, heq⟩ := c.deliver_eq
    rw [heq]
  | destroy =>
    unfold Connection.destroy
    split <;> rfl
  | _ => rfl

theorem Steps.fin_eq (h : Steps g c d) (hg : ¬ g.reads) : d.outbound.fin = c.outbound.fin :=
  h.keeps (I := fun e => e.outbound.fin = c.outbound.fin)
    (fun hstep heq => (hstep.fin_eq hg).trans heq) rfl

theorem Steps.alike (h : Steps .aside c d) (live : d.destroyed = false) : c.Alike d := by
  obtain ⟨-, hsender, hqueue, -⟩ := h.undisturbed.live live
  refine ⟨h.fin_eq fun hreads => hreads, hqueue, ?_⟩
  unfold senderRunning
  rw [hsender]

omit [Endpoint σ] in
/-- To be told makes no sender. -/
theorem alike_notifySender (c : Connection σ) : c.Alike c.notifySender := by
  unfold notifySender
  split
  next hwaiting => exact ⟨rfl, rfl, by rw [senderRunning, senderRunning, hwaiting]; rfl⟩
  next => exact ⟨rfl, rfl, rfl⟩

theorem alike_advance {event : TeardownEvent} (live : (c.advance event now).2.destroyed = false) :
    c.Alike (c.advance event now).2 := by
  rcases c.advance_cases event now with heq | ⟨phase, closedAt, -, -, heq | heq⟩
  · rw [heq]
    exact .refl c
  · rw [heq]
    exact ⟨rfl, rfl, rfl⟩
  · rw [heq, destroyed_destroy] at live
    cases live

theorem alike_handleAck {ackno : Nat} {window : UInt16}
    (live : (c.handleAck ackno window now).2.destroyed = false) :
    c.Alike (c.handleAck ackno window now).2 := by
  unfold handleAck at live ⊢
  generalize c.inflight.acknowledge ackno = r at live ⊢
  obtain ⟨outcome, acked⟩ := r
  simp only at live ⊢
  generalize acked.noteWindow ackno window = r at live ⊢
  obtain ⟨opened, inflight⟩ := r
  simp only at live ⊢
  have htold : c.Alike (if opened = true then { c with inflight }.notifySender
      else { c with inflight }) := by
    have hsame : c.Alike { c with inflight } := ⟨rfl, rfl, rfl⟩
    split
    · exact hsame.trans (alike_notifySender _)
    · exact hsame
  generalize (if opened = true then ({ c with inflight } : Connection σ).notifySender
    else { c with inflight }) = d at live htold ⊢
  cases outcome with
  | stale | beyond => exact htold
  | advanced =>
    have hagain := htold.trans (alike_notifySender d)
    simp only at live ⊢
    split
    next hacked =>
      rw [if_pos hacked] at live
      exact hagain.trans (alike_advance live)
    next => exact hagain

theorem alike_receive {datagram : Bytes} (live : (c.receive datagram now).2.destroyed = false) :
    c.Alike (c.receive datagram now).2 := by
  by_cases hd : c.destroyed = true
  · rw [receive, if_pos hd]
    exact .refl c
  have hlive : c.destroyed = false := by simpa using hd
  cases hdecode : Segment.decode datagram with
  | error e =>
    rw [receive, if_neg hd, hdecode]
    exact .refl c
  | ok s =>
    have hafter : ∀ after : Connection σ,
        after = (if s.flags.contains .ack = true then (c.handleAck s.ackno.toNat s.window now).2
          else c) → after.destroyed = false → c.Alike after := by
      rintro after rfl hstill
      split
      next hack =>
        rw [if_pos hack] at hstill
        exact alike_handleAck hstill
      next => exact .refl c
    rcases receive_cases hlive hdecode now with heq | ⟨hdata, hstill, heq⟩
    · rw [heq] at live ⊢
      exact hafter _ rfl live
    · have hsteps : Steps .aside _ _ :=
        handleData_steps (g := .aside) (s := s) trivial hstill trivial hdata now
      rw [heq] at live ⊢
      exact (hafter _ rfl hstill).trans (hsteps.alike live)

/-! ## The sender -/

omit [Endpoint σ] in
/-- There is a sender if one is needed, or there is no runtime for one. -/
theorem ensureSender_cases (live : c.destroyed = false) (runtime : Bool) :
    (c.ensureSender runtime).1 = .ok () ∧ (c.ensureSender runtime).2.Served ∧
        (c.Served ∨ runtime = true) ∨
      runtime = false ∧ ¬ c.Served ∧ c.ensureSender runtime = (.error .noRuntime, c) := by
  unfold ensureSender
  split
  next henough =>
    have hserved : c.Served := by simpa [Served] using henough
    exact .inl ⟨rfl, hserved, .inl hserved⟩
  next hneeded =>
    rw [if_neg (by simp [live])]
    cases runtime with
    | true => exact .inl ⟨rfl, .inr rfl, .inr rfl⟩
    | false => exact .inr ⟨rfl, by simpa [Served] using hneeded, rfl⟩

omit [Endpoint σ] in
theorem stranded_ensureSender (live : c.destroyed = false) (runtime : Bool) :
    (c.ensureSender runtime).2.Stranded ↔ c.Stranded ∧ runtime = false := by
  rcases ensureSender_cases live runtime with ⟨-, hserved, hcause⟩ | ⟨rfl, -, heq⟩
  · refine iff_of_false (fun h => h.2 hserved) ?_
    rintro ⟨⟨-, hneeded⟩, rfl⟩
    rcases hcause with hbefore | hstarts
    · exact hneeded hbefore
    · cases hstarts
  · rw [heq]
    simp

/-- A sender that has its turn goes only when nothing waits. -/
theorem stranded_senderTurn (c : Connection σ) (now : Int) :
    (c.senderTurn now).Stranded ↔ c.Stranded := by
  unfold senderTurn
  split
  next hready =>
    refine iff_of_false (fun h => h.2 ?_) fun h => h.2 (.inr (by simp [senderRunning, hready]))
    simp only
    split
    next hempty => exact .inl (by simpa using hempty)
    next => exact .inr rfl
  next => exact .rfl

/-- Nor does it go when it sends one packet. -/
theorem senderRunning_sendNext (c : Connection σ) (now : Int) :
    (c.move (.sendNext now)).senderRunning = c.senderRunning := by
  show ((c.sendNext? now).getD c).senderRunning = c.senderRunning
  cases hnext : c.sendNext? now with
  | none => rfl
  | some d =>
    obtain ⟨p, outbound, -, -, rfl⟩ := sendNext?_eq_some hnext
    rfl

/-! ## Reading -/

/-- Our FIN is queued, if there is a position for it. -/
theorem queueFin_cases (hc : c.PhaseAgrees) (live : c.destroyed = false)
    (hf : c.outbound.fin = none) (now : Int) :
    (c.queueFin now).1 = .error .outOfPositions ∧ (c.queueFin now).2.outbound.fin = none ∨
      (c.queueFin now).1 = .ok () ∧ (c.queueFin now).2.destroyed = false := by
  have hunsent : c.phase.isFinSent = false := by
    rw [hc.finSent live, hf]
    rfl
  obtain ⟨phase, hon, -, hawaits, -⟩ := Phase.exists_localFin hunsent
  have hopen : phase ≠ .closed := by
    rintro rfl
    cases hawaits
  unfold queueFin
  simp only
  split
  next e hq =>
    obtain rfl : e = .outOfPositions := Outbound.queueFin_eq_error hq hf
    exact .inl ⟨rfl, hf⟩
  next seqno outbound hq =>
    obtain ⟨closedAt, -, heq⟩ := advance_of_on? (c := { c with outbound }) hon now
    rw [heq, if_neg fun h => hopen h.1]
    exact .inr ⟨rfl, live⟩

/-- As long as our FIN is not queued, a read fails for want of positions and does not queue it, or
it looks for a sender at its end. -/
theorem read_cases (h : c.Orderly) (live : c.destroyed = false) (hf : c.outbound.fin = none)
    (now : Int) (runtime : Bool) :
    (c.read now runtime).1 = .error .outOfPositions ∧
        (c.read now runtime).2.outbound.fin = none ∨
      ∃ d : Connection σ, d.destroyed = false ∧ c.read now runtime = d.ensureSender runtime := by
  have hlen := List.length_replicate (n := c.config.maxPayload) (a := (0 : UInt8))
  have hspec := pull_spec (UInt32.ofNat c.ackno) c.window c.endpoint hf
    (Nat.le_of_eq (hlen.trans h.maxPayload_eq.symm))
  unfold Connection.read
  rw [if_neg (by simp [live]), if_neg (by simp [hf])]
  simp only
  generalize pull (UInt32.ofNat c.ackno) c.window c.endpoint _ c.outbound = r at hspec ⊢
  obtain ⟨pulled, endpoint, outbound⟩ := r
  obtain ⟨hnone, hfailed⟩ := hspec
  cases pulled with
  | failed e =>
    obtain rfl : e = .outOfPositions := hfailed e rfl
    exact .inl ⟨rfl, hnone⟩
  | paused => exact .inr ⟨{ c with endpoint, outbound }, live, rfl⟩
  | ended =>
    have hphase : PhaseAgrees { c with endpoint, outbound } := by
      refine ⟨fun _ => ?_, fun _ hsent => ?_, h.phase.closed⟩
      · rw [hnone, ← hf]
        exact h.phase.finSent live
      · rw [h.phase.finSent live, hf] at hsent
        cases hsent
    have hqueued := queueFin_cases hphase live hnone now
    simp only
    generalize ({ c with endpoint, outbound } : Connection σ).queueFin now = r at hqueued ⊢
    obtain ⟨result, after⟩ := r
    rcases hqueued with ⟨rfl, hstill⟩ | ⟨rfl, hlive⟩
    · exact .inl ⟨rfl, hstill⟩
    · exact .inr ⟨after, hlive, rfl⟩

/-- A connection whose FIN is queued reads no more. -/
theorem read_of_fin (live : c.destroyed = false) (hf : c.outbound.fin.isSome = true) (now : Int)
    (runtime : Bool) : c.read now runtime = (.ok (), c) := by
  rw [Connection.read, if_neg (by simp [live]), if_pos hf]

/-- The first that goes well leaves a sender behind. -/
theorem served_read (h : c.Orderly) (live : c.destroyed = false) (hf : c.outbound.fin = none)
    (hok : (c.read now runtime).1 = .ok ()) : (c.read now runtime).2.Served := by
  rcases read_cases h live hf now runtime with ⟨hfailed, -⟩ | ⟨d, hd, heq⟩
  · rw [hfailed] at hok
    cases hok
  · rw [heq] at hok ⊢
    rcases ensureSender_cases hd runtime with ⟨-, hserved, -⟩ | ⟨-, -, hfailed⟩
    · exact hserved
    · rw [hfailed] at hok
      cases hok

/-! ## Deeds -/

namespace Deed

/-- A read that queues our FIN and then finds no runtime. -/
def abandons (c : Connection σ) : Deed σ → Bool
  | .read now runtime => decide ((c.read now runtime).1 = .error .noRuntime) &&
      (c.read now runtime).2.outbound.fin.isSome
  | _ => false

/-- A sender is started if one is needed. -/
def startsSender : Deed σ → Bool
  | .ensureSender runtime => runtime
  | _ => false

end Deed

theorem stranded_read (h : c.Orderly) (live : c.destroyed = false) (now : Int) (runtime : Bool) :
    (c.read now runtime).2.Stranded ↔ Deed.abandons c (.read now runtime) = true ∨ c.Stranded := by
  cases hf : c.outbound.fin with
  | some fin =>
    have heq := read_of_fin live (by simp [hf]) now runtime
    simp [Deed.abandons, heq]
  | none =>
    have hnot : ¬ c.Stranded := by
      rintro ⟨hsome, -⟩
      rw [hf] at hsome
      cases hsome
    rw [or_iff_left hnot, Deed.abandons, Bool.and_eq_true, decide_eq_true_iff, Stranded, and_comm]
    refine and_congr_left fun hfin => ?_
    rcases read_cases h live hf now runtime with ⟨-, hnone⟩ | ⟨d, hd, heq⟩
    · rw [hnone] at hfin
      cases hfin
    · rw [heq]
      rcases ensureSender_cases hd runtime with ⟨hok, hserved, -⟩ | ⟨-, hneeded, hfailed⟩
      · simp [hok, hserved]
      · simp [hfailed, hneeded]

/-- Only a read that abandons what it has queued strands a connection, and only starting a sender
helps it. -/
theorem stranded_perform (h : c.Orderly) {x : Deed σ} (live : (c.perform x).destroyed = false) :
    (c.perform x).Stranded ↔ x.abandons c = true ∨ c.Stranded ∧ x.startsSender = false := by
  have hlive := live_of_perform live
  have hother (hsame : (c.perform x).Stranded ↔ c.Stranded) (hstarts : x.startsSender = false)
      (habandons : x.abandons c = false) :
      (c.perform x).Stranded ↔ x.abandons c = true ∨ c.Stranded ∧ x.startsSender = false := by
    simp [hsame, hstarts, habandons]
  cases x with
  | read now runtime =>
    rw [show (Deed.read now runtime : Deed σ).startsSender = false from rfl, and_iff_left rfl]
    exact stranded_read h hlive now runtime
  | ensureSender runtime =>
    rw [show Deed.abandons c (.ensureSender runtime) = false from rfl, or_iff_right (by simp)]
    exact stranded_ensureSender hlive runtime
  | senderTurn now => exact hother (stranded_senderTurn c now) rfl rfl
  | receive datagram now => exact hother (alike_receive live).stranded_iff rfl rfl
  | output now =>
    exact hother (Steps.alike (output_steps trivial c now) live).stranded_iff rfl rfl
  | timerPass now busy =>
    exact hother (Steps.alike (timerPass_steps trivial trivial c now busy) live).stranded_iff rfl
      rfl
  | abort cause => exact absurd live (by simp [perform])
  | destroy => exact absurd live (by simp [perform])
  | adjust change => exact hother .rfl rfl rfl

/-! ## Runs -/

/-- A connection that was created and was made to do things, in any order and over any endpoint;
packets are sent only where there is a sender. The flag says that a read has abandoned what it
queued and that no sender was started since. -/
inductive Handled : Connection σ → Bool → Prop
  | created (id : Nat) {config : Config} (valid : config.Valid) (endpoint : σ) :
      Handled (created id config valid endpoint) false
  | deed {c : Connection σ} {abandoned : Bool} (h : Handled c abandoned) (x : Deed σ) :
      Handled (c.perform x) (x.abandons c || abandoned && !x.startsSender)
  | sendNext {c : Connection σ} {abandoned : Bool} (h : Handled c abandoned)
      (running : c.senderRunning = true) (now : Int) :
      Handled (c.move (.sendNext now)) abandoned

/-- A connection is stranded as long as what was queued for it is abandoned. -/
theorem Handled.stranded_iff {abandoned : Bool} (h : Handled c abandoned) :
    c.Orderly ∧ (c.destroyed = false → (c.Stranded ↔ abandoned = true)) := by
  induction h with
  | created id valid endpoint =>
    exact ⟨orderly_created id valid endpoint,
      fun _ => iff_of_false (fun hs => hs.2 (.inl rfl)) nofun⟩
  | @deed c abandoned h x ih =>
    refine ⟨ih.1.perform x, fun live => ?_⟩
    rw [stranded_perform ih.1 live, ih.2 (live_of_perform live)]
    simp
  | @sendNext c abandoned h running now ih =>
    let g : Grant := { hears := fun _ => False }
    have hsteps : Steps g c (c.move (.sendNext now)) := sendNext_steps trivial c now
    refine ⟨hsteps.orderly ih.1, fun live => ?_⟩
    rw [← ih.2 (hsteps.live live)]
    refine iff_of_false (fun hs => hs.2 (.inr ?_)) fun hs => hs.2 (.inr running)
    rwa [senderRunning_sendNext]

/-- A read that goes well leaves a sender behind, if anything waits then, exactly as long as nothing
that was queued before is abandoned. -/
theorem served_iff_not_abandoned {abandoned : Bool} (h : Handled c abandoned)
    (hok : (c.read now runtime).1 = .ok ()) :
    (c.read now runtime).2.Served ↔ abandoned = false := by
  obtain ⟨horderly, hstranded⟩ := h.stranded_iff
  have live : c.destroyed = false := by
    by_contra hd
    rw [Connection.read, if_pos (by simpa using hd)] at hok
    cases hok
  rw [← Bool.not_eq_true, ← hstranded live]
  cases hf : c.outbound.fin with
  | none =>
    refine iff_of_true (served_read horderly live hf hok) ?_
    rintro ⟨hsome, -⟩
    rw [hf] at hsome
    cases hsome
  | some fin =>
    rw [read_of_fin live (by simp [hf])]
    simp [Stranded, hf]

/-! ### A read without a runtime

The input is one letter. The first read queues it and the FIN, and finds no runtime. -/

def letter : Connection InMemory :=
  created 1 {} valid_default { input := [97], inputClosed := true }

/-- The connection after a read without a runtime. -/
def forsaken : Connection InMemory := letter.perform (.read 0 false)

theorem handled_forsaken : Handled forsaken true := by
  have hdeed := (Handled.created 1 valid_default
    ({ input := [97], inputClosed := true } : InMemory)).deed (.read 0 false)
  have habandons : Deed.abandons letter (.read 0 false) = true := by decide +kernel
  rwa [show created 1 {} valid_default _ = letter from rfl, habandons] at hdeed

/-- Once a sender was started all is well. -/
theorem forsaken_not_served :
    ¬ (forsaken.read 5 false).2.Served ∧
      ((forsaken.perform (.ensureSender true)).read 5 false).2.Served := by
  have hstarted : Handled (forsaken.perform (.ensureSender true)) false :=
    handled_forsaken.deed (.ensureSender true)
  constructor
  · intro hserved
    cases (served_iff_not_abandoned handled_forsaken (by decide +kernel)).mp hserved
  · exact (served_iff_not_abandoned hstarted (by decide +kernel)).mpr rfl

/-- The second read goes well, and nobody sends what the first has queued. -/
theorem not_always_served : ¬ ∀ (c : Connection InMemory) (abandoned : Bool),
    Handled c abandoned → ∀ now runtime, (c.read now runtime).1 = .ok () →
      (c.read now runtime).2.Served := by
  intro h
  have hserved := h forsaken true handled_forsaken 5 false (by decide +kernel)
  have hwaits : (forsaken.read 5 false).2.outbound.queue.toList.length = 2 := by decide +kernel
  have hnobody : (forsaken.read 5 false).2.senderRunning = false := by decide +kernel
  rcases hserved with hnone | hsome
  · rw [hnone] at hwaits
    cases hwaits
  · rw [hnobody] at hsome
    cases hsome

end Connection

end ReliableStream
