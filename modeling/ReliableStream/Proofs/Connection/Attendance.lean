import ReliableStream.Proofs.Connection.Orderly
import ReliableStream.Proofs.Sending.Accounting

/-!
# The sender of a connection is there when it is needed

A sender that waits is told when an acknowledgment retires something or the peer's window grows. It
need not be told anything else: nothing else lets the packet through that it waits with. So a
connection is always `Tended`: if it has no sender then nothing waits to be sent, and if its sender
waits, the oldest packet may not be sent.

* `Undisturbed c d`: the sender has no part in how `c` became `d`. Deliveries, answers, passes of
  the timer and the end of a connection are all like that (`Steps.undisturbed`).
* `Tended.perform`: every deed keeps a connection tended, if input is read while there are positions
  for it and tasks can run.
-/

namespace ReliableStream

namespace Inflight

variable {f g : Inflight} {n sendWindow : Nat}

/-- Where there is less room, less may be sent. -/
theorem allows_of_less_room (hbytes : g.bytes = f.bytes) (hpeer : g.peerWindow ≤ f.peerWindow)
    (hentries : g.entries.toList = [] → f.entries.toList = [])
    (h : g.allows n sendWindow = true) : f.allows n sendWindow = true := by
  rw [allows_iff] at h ⊢
  rcases h with hn | hroom | ⟨hnil, hn⟩
  · exact .inl hn
  · exact .inr (.inl (by omega))
  · exact .inr (.inr ⟨hentries hnil, hn⟩)

theorem entries_eq_nil_iff (f : Inflight) : f.entries.toList = [] ↔ f.segments = [] :=
  List.map_eq_nil_iff.symm

theorem allows_resendOverdue {now : Int} {config : Config}
    (h : (f.resendOverdue now config).2.allows n sendWindow = true) :
    f.allows n sendWindow = true := by
  refine allows_of_less_room (g := (f.resendOverdue now config).2) rfl (Nat.le_refl _) ?_ h
  rw [entries_eq_nil_iff, entries_eq_nil_iff, segments_resendOverdue]
  exact id

/-- A window that did not grow has no more room. -/
theorem allows_noteWindow {ackno : Nat} {window : UInt16}
    (hopen : (f.noteWindow ackno window).1 = false)
    (h : (f.noteWindow ackno window).2.allows n sendWindow = true) :
    f.allows n sendWindow = true := by
  refine allows_of_less_room (g := (f.noteWindow ackno window).2) ?_ ?_ ?_ h
  · unfold noteWindow
    split <;> rfl
  · unfold noteWindow at hopen ⊢
    split at hopen
    next hold =>
      rw [if_pos hold]
    next hnew =>
      rw [if_neg hnew]
      simpa using hopen
  · rw [entries_eq_nil_iff, entries_eq_nil_iff, segments_noteWindow]
    exact id

end Inflight

namespace Connection

variable {σ : Type} [Endpoint σ] {g : Grant} {c d e : Connection σ} {now : Int}

/-! ## What does not concern the sender -/

/-- Everything but reading, sending for the first time, and heeding acknowledgments. -/
def Grant.aside : Grant :=
  { hears := fun _ => True, sends := False, reads := False, heeds := False }

/-- The connection has become `d` without its sender. -/
structure Undisturbed (c d : Connection σ) : Prop where
  id_eq : d.id = c.id
  config_eq : d.config = c.config
  orderly : c.Orderly → d.Orderly
  ready : d.sender = .ready → c.sender = .ready
  live : d.destroyed = false → c.destroyed = false ∧ d.sender = c.sender ∧
    d.outbound.queue = c.outbound.queue ∧
    ∀ n w, d.inflight.allows n w = true → c.inflight.allows n w = true

namespace Undisturbed

omit [Endpoint σ] in
theorem refl (c : Connection σ) : c.Undisturbed c :=
  ⟨rfl, rfl, fun h => h, fun h => h, fun h => ⟨h, rfl, rfl, fun _ _ h => h⟩⟩

omit [Endpoint σ] in
theorem trans (h : c.Undisturbed d) (h' : d.Undisturbed e) : c.Undisturbed e := by
  refine ⟨h'.id_eq.trans h.id_eq, h'.config_eq.trans h.config_eq, h'.orderly ∘ h.orderly,
    h.ready ∘ h'.ready, fun he => ?_⟩
  obtain ⟨hd, hsender', hqueue', hallows'⟩ := h'.live he
  obtain ⟨hc, hsender, hqueue, hallows⟩ := h.live hd
  exact ⟨hc, hsender'.trans hsender, hqueue'.trans hqueue,
    fun n w => hallows n w ∘ hallows' n w⟩

omit [Endpoint σ] in
/-- The endpoint is no concern of the sender. -/
theorem of_endpoint (c : Connection σ) (endpoint : σ) :
    c.Undisturbed { c with endpoint } := by
  refine ⟨rfl, rfl, fun ⟨⟨t, hnumbered⟩, hphase⟩ => ?_, fun h => h,
    fun h => ⟨h, rfl, rfl, fun _ _ h => h⟩⟩
  exact ⟨⟨t, hnumbered.congr rfl rfl rfl rfl⟩, hphase.finSent, hphase.finAcked, hphase.closed⟩

end Undisturbed

theorem Step.undisturbed (h : Step .aside c d) : c.Undisturbed d := by
  have horderly : c.Orderly → d.Orderly := h.orderly
  have hid := h.id_eq
  have hconfig := h.config_eq
  cases h with
  | notice _ _ hg => cases hg
  | pause _ _ _ hg => cases hg
  | queue _ _ _ _ _ hg => cases hg
  | refuse _ _ _ _ _ hg => cases hg
  | finish _ _ _ _ _ hg => cases hg
  | send _ hg => cases hg
  | acknowledge _ _ _ hg => cases hg
  | restamp live hg now =>
    exact ⟨hid, hconfig, horderly, fun h => h,
      fun h => ⟨h, rfl, rfl, fun _ _ => Inflight.allows_resendOverdue⟩⟩
  | deliver live =>
    obtain ⟨received, endpoint, ackno, window, heq⟩ := c.deliver_eq
    rw [heq] at horderly ⊢
    exact ⟨rfl, rfl, horderly, fun h => h, fun h => ⟨h, rfl, rfl, fun _ _ h => h⟩⟩
  | destroy live =>
    have habsurd : c.destroy.destroyed ≠ false := by simp [destroyed_destroy]
    refine ⟨hid, hconfig, horderly, fun h => ?_, fun h => absurd h habsurd⟩
    rw [Connection.destroy, if_neg (by simp [live])] at h
    cases h
  | _ => exact ⟨hid, hconfig, horderly, fun h => h, fun h => ⟨h, rfl, rfl, fun _ _ h => h⟩⟩

theorem Steps.undisturbed (h : Steps .aside c d) : c.Undisturbed d :=
  h.keeps (I := fun e => c.Undisturbed e) (fun hstep hc => hc.trans hstep.undisturbed) (.refl c)

theorem undisturbed_destroy (c : Connection σ) : c.Undisturbed c.destroy :=
  (destroy_steps c).undisturbed

theorem undisturbed_timerPass (c : Connection σ) (now : Int) (busy : Bool) :
    c.Undisturbed (c.timerPass now busy).2 :=
  (timerPass_steps (g := .aside) trivial trivial c now busy).undisturbed

/-- The decision of the timer alone. -/
theorem undisturbed_timerAction (c : Connection σ) (now : Int) (busy : Bool) :
    c.Undisturbed (c.timerAction now busy).2 := by
  rcases timerAction_cases (g := .aside) trivial c now busy with
    ⟨outcome, d, heq, hdone⟩ | ⟨wires, hd, -, -, heq⟩
  · rw [heq]
    rcases hdone with hsteps | ⟨cause, hstamp, rfl⟩
    · exact hsteps.undisturbed
    · exact hstamp.undisturbed.trans (Steps.undisturbed (abort_steps trivial _ cause))
  · rw [heq]
    exact (Step.restamp hd trivial now).undisturbed

/-- The resends of the timer alone. -/
theorem undisturbed_sendAll (c : Connection σ) (wires : List Bytes) :
    c.Undisturbed (c.sendAll wires) := .of_endpoint c _

/-- Nor is it in question what the sender does. -/
theorem Orderly.notice (h : c.Orderly) (sender : SenderTask) (permit : Bool) :
    Orderly { c with sender, permit } := by
  let g : Grant := { hears := fun _ => False }
  exact (Step.notice (g := g) sender permit trivial).orderly h

/-! ## Patience -/

/-- The sender waits only with a packet that may not be sent. -/
structure Patient (c : Connection σ) : Prop where
  orderly : c.Orderly
  sized : c.destroyed = false →
    ∀ p ∈ c.outbound.queue.toList, p.payloadLen ≤ c.config.maxPayload
  waiting : c.destroyed = false → c.sender = .waiting → ∃ p rest,
    c.outbound.queue.toList = p :: rest ∧
      c.inflight.allows p.payloadLen c.config.sendWindow = false

/-- And there is a sender if anything waits to be sent. -/
structure Tended (c : Connection σ) : Prop extends Patient c where
  stopped : c.destroyed = false → c.sender = .stopped → c.outbound.queue.toList = []

omit [Endpoint σ] in
theorem tended_created (id : Nat) {config : Config} (valid : config.Valid) (endpoint : σ) :
    (created id config valid endpoint).Tended where
  orderly := orderly_created id valid endpoint
  sized _ p hp := by cases hp
  waiting _ hw := by cases hw
  stopped _ _ := rfl

omit [Endpoint σ] in
theorem Undisturbed.tended (h : c.Undisturbed d) (hc : c.Tended) : d.Tended := by
  refine ⟨⟨h.orderly hc.orderly, fun hd => ?_, fun hd hw => ?_⟩, fun hd hs => ?_⟩
  · obtain ⟨hlive, -, hqueue, -⟩ := h.live hd
    rw [hqueue, h.config_eq]
    exact hc.sized hlive
  · obtain ⟨hlive, hsender, hqueue, hallows⟩ := h.live hd
    rw [hsender] at hw
    obtain ⟨p, rest, hq, hfull⟩ := hc.waiting hlive hw
    rw [← hqueue] at hq
    refine ⟨p, rest, hq, ?_⟩
    rw [h.config_eq]
    by_contra hroom
    rw [hallows _ _ (by simpa using hroom)] at hfull
    cases hfull
  · obtain ⟨hlive, hsender, hqueue, -⟩ := h.live hd
    rw [hsender] at hs
    rw [hqueue]
    exact hc.stopped hlive hs

/-! ### Reading -/

omit [Endpoint σ] in
/-- What is read is queued behind the packet that the sender waits with. -/
theorem Patient.push {s : Segment} {m : Numbering} {endpoint : σ} {phase : Phase}
    (h : c.Patient) (hlen : s.payload.length ≤ c.config.maxPayload)
    (ho : Orderly { c with endpoint, outbound := c.outbound.push s m, phase }) :
    Patient { c with endpoint, outbound := c.outbound.push s m, phase } := by
  refine ⟨ho, fun hd p hp => ?_, fun hd hw => ?_⟩
  · rw [Outbound.push, Queue.toList_push] at hp
    rcases List.mem_append.mp hp with hp | hp
    · exact h.sized hd p hp
    · obtain rfl := List.mem_singleton.mp hp
      exact hlen
  · obtain ⟨p, rest, hq, hfull⟩ := h.waiting hd hw
    refine ⟨p, rest ++ [.ofSegment s], ?_, hfull⟩
    rw [Outbound.push, Queue.toList_push, hq]
    rfl

/-- Everything that is read while nothing is heeded or sent. -/
def Grant.reading : Grant :=
  { hears := fun _ => False, sends := False, times := False, answers := False, heeds := False }

theorem Step.patient (h : Step .reading c d) (hc : c.Patient) : d.Patient := by
  have horderly := h.orderly hc.orderly
  have hsame : d.config = c.config → d.sender = c.sender → d.outbound.queue = c.outbound.queue →
      d.inflight = c.inflight → d.destroyed = c.destroyed → d.Patient := by
    intro hconfig hsender hqueue hinflight hlive
    refine ⟨horderly, ?_, ?_⟩
    · rw [hconfig, hqueue, hlive]
      exact hc.sized
    · rw [hconfig, hsender, hqueue, hinflight, hlive]
      exact hc.waiting
  cases h with
  | notice _ _ hg => cases hg
  | send _ hg => cases hg
  | acknowledge _ hs => cases hs
  | insert _ hs => cases hs
  | queue live hread hne hq =>
    obtain ⟨-, hlen, -, rfl⟩ := Outbound.queueData_eq_ok hq
    rw [hc.orderly.maxPayload_eq] at hlen
    exact hc.push hlen horderly
  | finish live hread hend hq =>
    obtain ⟨-, -, rfl⟩ := Outbound.queueFin_eq_ok hq
    exact hc.push (Nat.zero_le _) horderly
  | restamp _ hg => cases hg
  | deliver live =>
    obtain ⟨received, endpoint, ackno, window, heq⟩ := c.deliver_eq
    rw [heq] at hsame ⊢
    exact hsame rfl rfl rfl rfl rfl
  | destroy live =>
    have habsurd : c.destroy.destroyed ≠ false := by simp [destroyed_destroy]
    exact ⟨horderly, fun hd => absurd hd habsurd, fun hd => absurd hd habsurd⟩
  | _ => exact hsame rfl rfl rfl rfl rfl

theorem Steps.patient (h : Steps .reading c d) (hc : c.Patient) : d.Patient :=
  h.keeps Step.patient hc

/-- Once it is made sure that there is a sender, there is one. -/
theorem Patient.ensureSender (h : c.Patient) : (c.ensureSender true).2.Tended := by
  unfold Connection.ensureSender
  split
  next hrest =>
    have hidle : c.outbound.queue.toList = [] ∨ ¬ c.sender = .stopped := by
      simpa [senderRunning] using hrest
    exact ⟨h, fun hd hs => hidle.resolve_right fun hne => hne hs⟩
  next hneeded =>
    split
    next hdestroyed => exact ⟨h, fun hd => absurd (hd.symm.trans hdestroyed) (by simp)⟩
    next hlive =>
      exact ⟨⟨h.orderly.notice .ready c.permit, h.sized, fun _ hw => (by cases hw)⟩,
        fun _ hs => (by cases hs)⟩

/-- Input that can be cut into packets is refused only for want of positions, and no FIN comes with
it. -/
theorem pull_spec (ackno : UInt32) (window : UInt16) (endpoint : σ) {buffer : Bytes}
    {out : Outbound} (hf : out.fin = none) (hb : buffer.length ≤ out.numbering.maxPayload) :
    let r := pull ackno window endpoint buffer out
    r.2.2.fin = none ∧ ∀ e, r.1 = .failed e → e = .outOfPositions := by
  fun_induction pull ackno window endpoint buffer out with
  | case5 endpoint buffer out written claimed endpoint' hread buffer' chunk hne e hq =>
    have hlen : buffer'.length = buffer.length := Bytes.length_overwrite buffer written
    have hle : chunk.length ≤ buffer'.length := List.length_take_le' ..
    have hle' : chunk.length ≤ (out.setWindow window).numbering.maxPayload := by
      rw [hlen] at hle
      exact Nat.le_trans hle hb
    refine ⟨hf, fun e' he' => ?_⟩
    cases he'
    exact (Outbound.queueData_eq_error hq hf hle').1
  | case6 endpoint buffer out written claimed endpoint' hread buffer' chunk hne seqno queued hq =>
    rename_i ih
    obtain ⟨hnone, -, -, rfl⟩ := Outbound.queueData_eq_ok hq
    have hlen : buffer'.length = buffer.length := Bytes.length_overwrite buffer written
    exact ih hnone (by rw [hlen]; exact hb)
  | _ => exact ⟨hf, fun e he => (by cases he)⟩

/-- And so is the FIN. -/
theorem queueFin_eq_error {e : Error} (hc : c.PhaseAgrees) (live : c.destroyed = false)
    (hf : c.outbound.fin = none) (h : (c.queueFin now).1 = .error e) : e = .outOfPositions := by
  have hphase : c.phase.isFinSent = false := by
    rw [hc.finSent live, hf]
    rfl
  unfold queueFin at h
  simp only at h
  split at h
  next heq =>
    obtain rfl := Except.error.inj h
    exact Outbound.queueFin_eq_error heq hf
  next heq =>
    unfold Connection.advance at h
    cases hp : c.phase <;> simp_all [Phase.on, Phase.on?, Phase.isFinSent]

theorem Tended.read (h : c.Tended) (hr : (c.read now true).1 ≠ .error .outOfPositions) :
    (c.read now true).2.Tended := by
  unfold Connection.read at hr ⊢
  split at hr
  next hd =>
    rw [if_pos hd]
    exact h
  next hd =>
    rw [if_neg hd]
    have live : c.destroyed = false := by simpa using hd
    split at hr
    next hf =>
      rw [if_pos hf]
      exact h
    next hf =>
      rw [if_neg hf]
      have hfin : c.outbound.fin = none := by simpa using hf
      have hlen := List.length_replicate (n := c.config.maxPayload) (a := (0 : UInt8))
      have hpull := pull_steps (g := .reading) trivial live rfl rfl rfl (rfl : c.window = c.window)
        (Nat.le_of_eq hlen) hfin
      have hspec := pull_spec (UInt32.ofNat c.ackno) c.window c.endpoint hfin
        (Nat.le_of_eq (hlen.trans h.orderly.maxPayload_eq.symm))
      simp only at hr ⊢
      generalize pull (UInt32.ofNat c.ackno) c.window c.endpoint _ c.outbound = r
        at hpull hspec hr ⊢
      obtain ⟨pulled, endpoint, outbound⟩ := r
      obtain ⟨hsteps, hended⟩ := hpull
      obtain ⟨hnone, hfailed⟩ := hspec
      cases pulled with
      | failed e => exact absurd (congrArg Except.error (hfailed e rfl)) hr
      | paused => exact (Steps.patient hsteps h.toPatient).ensureSender
      | ended =>
        obtain ⟨last, buffer, reading, hlast, hread, hend⟩ := hended rfl
        have hqueued : Steps .reading c _ := queueFin_steps (d := { c with outbound }) trivial live
          hlast hsteps hread hend now
        have hphase : PhaseAgrees { c with endpoint, outbound } :=
          (Steps.patient hsteps h.toPatient).orderly.phase
        have herror : ∀ e, (({ c with endpoint, outbound } : Connection σ).queueFin now).1 =
            .error e → e = .outOfPositions := fun e => queueFin_eq_error hphase live hnone
        simp only at hr ⊢
        generalize ({ c with endpoint, outbound } : Connection σ).queueFin now = r
          at hqueued herror hr ⊢
        obtain ⟨result, after⟩ := r
        cases result with
        | error e => exact absurd (congrArg Except.error (herror e rfl)) hr
        | ok => exact (Steps.patient hqueued h.toPatient).ensureSender

/-! ### Sending -/

theorem sendNext?_sendWhileAllowed (c : Connection σ) (now : Int) :
    (c.sendWhileAllowed now).sendNext? now = none := by
  fun_induction sendWhileAllowed c now with
  | case1 c h => exact h
  | case2 c d h ih => exact ih

/-- A packet that waits and is not sent may not be sent. -/
theorem allows_of_sendNext?_eq_none {p : Packet} {rest : List Packet} (h : c.sendNext? now = none)
    (live : c.destroyed = false) (hq : c.outbound.queue.toList = p :: rest) :
    c.inflight.allows p.payloadLen c.config.sendWindow = false := by
  unfold sendNext? at h
  rw [if_neg (by simp [live])] at h
  split at h
  next hpop =>
    have hstays := Queue.popIf?_eq_none_iff.mp (Option.map_eq_none_iff.mp hpop)
    exact hstays p (by rw [hq]; rfl)
  next => cases h

/-- What waits then waited before. -/
theorem queue_sendWhileAllowed (c : Connection σ) (now : Int) :
    ∀ p ∈ (c.sendWhileAllowed now).outbound.queue.toList, p ∈ c.outbound.queue.toList := by
  fun_induction sendWhileAllowed c now with
  | case1 c h => exact fun p hp => hp
  | case2 c d h ih =>
    intro p hp
    obtain ⟨q, outbound, -, hpop, rfl⟩ := sendNext?_eq_some h
    rw [Outbound.queue_of_pop? hpop]
    exact .tail q (ih p hp)

/-- After its turn the sender waits with a packet that may not be sent, or is done. -/
theorem Tended.senderTurn (h : c.Tended) (now : Int) : (c.senderTurn now).Tended := by
  let g : Grant := { hears := fun _ => False }
  have hsteps : Steps g c (c.sendWhileAllowed now) := sendWhileAllowed_steps trivial c now
  have hconfig : (c.sendWhileAllowed now).config = c.config := hsteps.config_eq
  have horderly := hsteps.orderly h.orderly
  have hsized : (c.sendWhileAllowed now).destroyed = false →
      ∀ p ∈ (c.sendWhileAllowed now).outbound.queue.toList,
        p.payloadLen ≤ (c.sendWhileAllowed now).config.maxPayload := by
    intro hd p hp
    rw [hconfig]
    exact h.sized (hsteps.live hd) p (c.queue_sendWhileAllowed now p hp)
  have hdone := c.sendNext?_sendWhileAllowed now
  unfold Connection.senderTurn
  split
  · simp only
    generalize c.sendWhileAllowed now = d at hconfig horderly hsized hdone
    split
    next hempty =>
      exact ⟨⟨horderly.notice .stopped d.permit, hsized, fun _ hw => (by cases hw)⟩,
        fun _ _ => (by simpa using hempty)⟩
    next hne =>
      refine ⟨⟨horderly.notice .waiting false, hsized, fun hd _ => ?_⟩, fun _ hs => (by cases hs)⟩
      cases hq : d.outbound.queue.toList with
      | nil => simp [hq] at hne
      | cons p rest =>
        exact ⟨p, rest, rfl, allows_of_sendNext?_eq_none (c := d) hdone hd hq⟩
  · exact h

theorem senderTurn_not_ready (c : Connection σ) (now : Int) :
    (c.senderTurn now).sender ≠ .ready := by
  unfold Connection.senderTurn
  split
  · simp only
    split <;> simp
  next hidle => exact hidle

/-! ### Receiving -/

/-- The sender is told of all that lets the packet through that it waits with. -/
theorem Tended.handleAck {s : Segment} (h : c.Tended) (live : c.destroyed = false)
    (hack : s.flags.contains .ack = true) (now : Int) :
    (c.handleAck s.ackno.toNat s.window now).2.Tended := by
  let g : Grant := { hears := fun _ => True }
  have horderly : Orderly (c.acknowledged s) :=
    (Step.acknowledge (g := g) live trivial hack trivial).orderly h.orderly
  obtain ⟨sender, permit, hafter, htold⟩ := c.handleAck_cases s now
  have hstopped : sender = .stopped → c.sender = .stopped := by
    rcases htold with ⟨-, -, rfl⟩ | ⟨-, hstopped⟩
    · exact fun h => h
    · exact hstopped
  have htended : Tended { c.acknowledged s with sender, permit } := by
    refine ⟨⟨horderly.notice sender permit, h.sized, fun hd hw => ?_⟩,
      fun hd hs => h.stopped hd (hstopped hs)⟩
    rcases htold with ⟨hsame, hclosed, rfl⟩ | ⟨hbusy, -⟩
    · obtain ⟨p, rest, hq, hfull⟩ := h.waiting hd hw
      refine ⟨p, rest, hq, ?_⟩
      by_contra hroom
      simp only [hsame, Bool.not_eq_false] at hroom
      rw [Inflight.allows_noteWindow hclosed hroom] at hfull
      cases hfull
    · exact absurd hw hbusy
  rcases hafter with ⟨heq, -⟩ | ⟨fin, hf, hacked, heq⟩
  · rw [heq]
    exact htended
  · rw [heq]
    have hsteps : Steps .aside { c.acknowledged s with sender, permit } _ :=
      advance_finAcked_steps (c := { c.acknowledged s with sender, permit }) live hf hacked now
    exact hsteps.undisturbed.tended htended

theorem Tended.receive (h : c.Tended) (datagram : Bytes) (now : Int) :
    (c.receive datagram now).2.Tended := by
  by_cases hd : c.destroyed = true
  · rw [Connection.receive, if_pos hd]
    exact h
  · have live : c.destroyed = false := by simpa using hd
    cases hdecode : Segment.decode datagram with
    | error e =>
      rw [Connection.receive, if_neg hd, hdecode]
      exact h
    | ok s =>
      have hafter : Tended (if s.flags.contains .ack = true then
          (c.handleAck s.ackno.toNat s.window now).2 else c) := by
        split
        next hack => exact h.handleAck live hack now
        next => exact h
      rcases receive_cases live hdecode now with heq | ⟨hdata, hlive, heq⟩
      · rw [heq]
        exact hafter
      · rw [heq]
        have hsteps : Steps .aside _ _ :=
          handleData_steps (g := .aside) (s := s) trivial hlive trivial hdata now
        exact hsteps.undisturbed.tended hafter

/-! ## Deeds -/

/-- Input can be numbered, and tasks can run. -/
def Deed.Proceeds (c : Connection σ) : Deed σ → Prop
  | .read now runtime => runtime = true ∧ (c.read now true).1 ≠ .error .outOfPositions
  | .ensureSender runtime => runtime = true
  | _ => True

/-- Every deed that proceeds keeps a connection tended. -/
theorem Tended.perform {x : Deed σ} (h : c.Tended) (hx : x.Proceeds c) : (c.perform x).Tended := by
  cases x with
  | read now runtime =>
    obtain ⟨rfl, hpositions⟩ := hx
    exact h.read hpositions
  | ensureSender runtime =>
    obtain rfl : runtime = true := hx
    exact h.toPatient.ensureSender
  | senderTurn now => exact h.senderTurn now
  | receive datagram now => exact h.receive datagram now
  | output now =>
    exact (Steps.undisturbed (output_steps (g := .aside) trivial c now)).tended h
  | timerPass now busy => exact (c.undisturbed_timerPass now busy).tended h
  | abort cause => exact (Steps.undisturbed (abort_steps (g := .aside) trivial c cause)).tended h
  | destroy => exact c.undisturbed_destroy.tended h
  | adjust change => exact (Undisturbed.of_endpoint c (change c.endpoint)).tended h

theorem id_perform (c : Connection σ) (x : Deed σ) : (c.perform x).id = c.id :=
  perform_keeps (I := fun e => e.id = c.id)
    (fun hstep heq => hstep.id_eq.trans heq) (fun _ heq => heq) rfl

end Connection

end ReliableStream
