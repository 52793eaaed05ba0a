import ReliableStream.Proofs.Connection.Rest
import ReliableStream.Proofs.Connection.Stall
import ReliableStream.Proofs.Connection.Traffic
import ReliableStream.Proofs.Sending.Marks

/-!
# The schedule of resends

`Noted c log`: the connection was created and made moves, in any order and over any endpoint, with
any datagrams from the network, and `log` has all that was sent and excused meanwhile, the latest
first. It is noted of what was put on the network, and of the acknowledgments that came.

From such a log alone it can be told how often each packet in flight was resent, when it is resent
next, and when the connection is given up (`on_schedule`). The proof keeps `Tracked` from one move
to the next.
-/

namespace ReliableStream

namespace Connection

variable {σ : Type} [Endpoint σ] {g : Grant} {log : List Mark} {now : Int}
  {c d : Connection (Recorded σ)}

/-! ## Tracking -/

/-- The log has what the packets in flight know of themselves, and no packets that were not sent. -/
structure Tracked (c : Connection (Recorded σ)) (log : List Mark) : Prop where
  orderly : c.Orderly
  budget : c.WithinBudget
  recalled : ∀ e ∈ c.inflight.entries.toList, e.Recalled log
  consistent : Consistent c.config log
  sent : ∀ m ∈ log, Spoken (fun s => s.start < c.inflight.sent) m.wire

omit [Endpoint σ] in
theorem tracked_created (id : Nat) {config : Config} (valid : config.Valid) (inner : σ) :
    (created id config valid ({ inner } : Recorded σ)).Tracked [] :=
  ⟨orderly_created id valid _, .created id valid _, fun e he => (by cases he),
    consistent_nil config, fun m hm => (by cases hm)⟩

omit [Endpoint σ] in
theorem Orderly.apart (h : c.Orderly) : c.inflight.entries.toList.Pairwise fun x y =>
    x.start < y.start ∧ x.wire ≠ y.wire := by
  obtain ⟨t, hnumbered⟩ := h.numbered
  cases hd : c.destroyed with
  | false => exact (hnumbered.conveys hd).apart
  | true =>
    rw [hnumbered.cleared hd]
    exact .nil

omit [Endpoint σ] in
/-- What is in flight was sent. -/
theorem Orderly.spoken_flying (h : c.Orderly) {e : SentPacket}
    (he : e ∈ c.inflight.entries.toList) :
    Spoken (fun s => s.start < c.inflight.sent) e.wire := by
  obtain ⟨t, hnumbered⟩ := h.numbered
  cases hd : c.destroyed with
  | false =>
    have hconveys := hnumbered.conveys hd
    obtain ⟨hwire, hsound, hcarried⟩ := hconveys.speaks.flying e he
    exact ⟨e.segment, hsound,
      Nat.lt_of_lt_of_le (Conveys.start_lt_stop hcarried) (hconveys.stop_le_sent he), hwire⟩
  | true =>
    rw [hnumbered.cleared hd] at he
    cases he

/-- Packets are neither sent nor resent, and nothing is acknowledged. -/
structure Grant.Still (g : Grant) : Prop where
  sends : ¬ g.sends
  times : ¬ g.times
  heeds : ∀ s, g.hears s → ¬ g.heeds

/-- Nothing is sent and nothing comes from the network. -/
def Grant.quiet : Grant := { hears := fun _ => False, sends := False, times := False }

theorem Grant.still_quiet : Grant.quiet.Still :=
  ⟨fun h => h, fun h => h, fun _ hs _ => hs⟩

/-- What is in flight stays as it is, or is dropped. -/
theorem Step.still (h : Step g c d) (hg : g.Still) : d.inflight.sent = c.inflight.sent ∧
    (d.inflight.entries = c.inflight.entries ∨ d.inflight.entries.toList = []) := by
  cases h with
  | send _ hsends => exact absurd hsends hg.sends
  | restamp _ htimes => exact absurd htimes hg.times
  | acknowledge _ hs _ hheeds => exact absurd hheeds (hg.heeds _ hs)
  | deliver =>
    obtain ⟨received, endpoint, ackno, window, heq⟩ := c.deliver_eq
    rw [heq]
    exact ⟨rfl, .inl rfl⟩
  | destroy =>
    unfold Connection.destroy
    split
    · exact ⟨rfl, .inl rfl⟩
    · exact ⟨rfl, .inr rfl⟩
  | _ => exact ⟨rfl, .inl rfl⟩

theorem Step.tracked (h : Step g c d) (hg : g.Still) (hc : c.Tracked log) : d.Tracked log := by
  obtain ⟨hsent, hentries⟩ := h.still hg
  refine ⟨h.orderly hc.orderly, h.withinBudget hc.budget, fun e he => ?_, ?_, ?_⟩
  · rcases hentries with heq | hnil
    · rw [heq] at he
      exact hc.recalled e he
    · rw [hnil] at he
      cases he
  · rw [h.config_eq]
    exact hc.consistent
  · rw [hsent]
    exact hc.sent

theorem Steps.tracked (h : Steps g c d) (hg : g.Still) (hc : c.Tracked log) : d.Tracked log :=
  h.keeps (fun hstep he => hstep.tracked hg he) hc

omit [Endpoint σ] in
/-- The endpoint is of no concern. -/
theorem Tracked.of_endpoint (h : c.Tracked log) (endpoint : Recorded σ) :
    Tracked { c with endpoint } log :=
  ⟨(Undisturbed.of_endpoint c endpoint).orderly h.orderly, ⟨h.budget.waiting, h.budget.flying⟩,
    h.recalled, h.consistent, h.sent⟩

omit [Endpoint σ] in
/-- Nor is the sender. -/
theorem Tracked.notice (h : c.Tracked log) (sender : SenderTask) (permit : Bool) :
    Tracked { c with sender, permit } log := by
  obtain ⟨⟨t, hnumbered⟩, hphase⟩ := h.orderly
  exact ⟨⟨⟨t, hnumbered.congr rfl rfl rfl rfl⟩, ⟨hphase.finSent, hphase.finAcked, hphase.closed⟩⟩,
    ⟨h.budget.waiting, h.budget.flying⟩, h.recalled, h.consistent, h.sent⟩

/-! ## Acknowledgments -/

/-- The packet that the datagram excuses. -/
def excusedBy? (c : Connection (Recorded σ)) (datagram : Bytes) : Option Bytes :=
  if c.destroyed then none
  else
    match Segment.decode datagram with
    | .error _ => none
    | .ok s =>
      if s.flags.contains .ack then
        (c.inflight.acknowledge s.ackno.toNat).2.excuses? s.ackno.toNat s.window
      else none

theorem Tracked.acknowledged {s : Segment} (h : c.Tracked log) (live : c.destroyed = false)
    (hack : s.flags.contains .ack = true) : (c.acknowledged s).Tracked
      (((c.inflight.acknowledge s.ackno.toNat).2.excuses? s.ackno.toNat s.window).toList.map
        .excuse ++ log) := by
  let g : Grant := { hears := fun _ => True }
  have hstep : Step g c (c.acknowledged s) := .acknowledge live trivial hack trivial
  have hkept : (c.inflight.acknowledge s.ackno.toNat).2.entries.toList.Sublist
      c.inflight.entries.toList := by
    rcases c.inflight.acknowledge_cases s.ackno.toNat with heq | ⟨-, -, bytes, heq⟩
    · rw [heq]
    · rw [heq, Queue.toList_dropWhile]
      exact List.dropWhile_sublist _
  have hapart := (h.orderly.apart.sublist hkept).imp And.right
  refine ⟨hstep.orderly h.orderly, hstep.withinBudget h.budget,
    Inflight.recalled_noteWindow hapart (fun e he => h.recalled e (hkept.subset he)) _ _, ?_, ?_⟩
  · cases (c.inflight.acknowledge s.ackno.toNat).2.excuses? s.ackno.toNat s.window with
    | none => exact h.consistent
    | some w => exact h.consistent.cons trivial
  · rw [sent_acknowledged]
    intro m hm
    rcases List.mem_append.mp hm with hm | hm
    · obtain ⟨w, hw, rfl⟩ := List.mem_map.mp hm
      obtain ⟨e, he, rfl⟩ := Inflight.exists_of_excuses? (Option.mem_toList.mp hw)
      exact h.orderly.spoken_flying (hkept.subset he)
    · exact h.sent m hm

theorem Tracked.receive (h : c.Tracked log) (datagram : Bytes) (now : Int) :
    (c.receive datagram now).2.Tracked ((c.excusedBy? datagram).toList.map .excuse ++ log) := by
  unfold excusedBy?
  by_cases hd : c.destroyed = true
  · rw [Connection.receive, if_pos hd, if_pos hd]
    exact h
  rw [if_neg hd]
  have live : c.destroyed = false := by simpa using hd
  cases hdecode : Segment.decode datagram with
  | error e =>
    rw [Connection.receive, if_neg hd, hdecode]
    exact h
  | ok s =>
    let g : Grant := { hears := fun _ => True, sends := False, times := False, heeds := False }
    have hstill : g.Still := ⟨fun h => h, fun h => h, fun _ _ h => h⟩
    have hcases := receive_cases live hdecode now
    simp only
    by_cases hack : s.flags.contains .ack = true
    · rw [if_pos hack] at hcases ⊢
      have hheeded : Steps .quiet (c.acknowledged s) _ := handleAck_steps trivial live s now
      have hafter := hheeded.tracked Grant.still_quiet (h.acknowledged live hack)
      rcases hcases with heq | ⟨hdata, hlive, heq⟩
      · rw [heq]
        exact hafter
      · have hsteps : Steps g _ _ := handleData_steps (s := s) trivial hlive trivial hdata now
        rw [heq]
        exact hsteps.tracked hstill hafter
    · rw [if_neg hack] at hcases ⊢
      rcases hcases with heq | ⟨hdata, -, heq⟩
      · rw [heq]
        exact h
      · have hsteps : Steps g _ _ := handleData_steps (s := s) trivial live trivial hdata now
        rw [heq]
        exact hsteps.tracked hstill h

/-! ## What is noted -/

/-- What has to be noted of a move, the latest first. -/
def marks (c : Connection (Recorded σ)) : Move (Recorded σ) → List Mark
  | .sendNext now => ((c.sentUntil (c.move (.sendNext now))).map (.first · now)).reverse
  | .deed (.senderTurn now) => ((c.sentUntil (c.senderTurn now)).map (.first · now)).reverse
  | .deed (.timerPass now busy) =>
    ((c.sentUntil (c.timerPass now busy).2).map (.again · now)).reverse
  | .deed (.receive datagram _) => (c.excusedBy? datagram).toList.map .excuse
  | .deed _ => []

/-- The connection was created and has made moves, all of which were noted. -/
inductive Noted : Connection (Recorded σ) → List Mark → Prop
  | created (id : Nat) {config : Config} (valid : config.Valid) (inner : σ) :
      Noted (created id config valid { inner }) []
  | move {c : Connection (Recorded σ)} {log : List Mark} {m : Move (Recorded σ)} :
      Noted c log → m.SparesRecord → Noted (c.move m) (c.marks m ++ log)

theorem sent_sendAll (c : Connection (Recorded σ)) (wires : List Bytes) :
    (c.sendAll wires).endpoint.sent = c.endpoint.sent ++ wires := by
  induction wires generalizing c with
  | nil => exact (List.append_nil _).symm
  | cons w wires ih =>
    have hrest := ih { c with endpoint := (Endpoint.send c.endpoint w).2 }
    exact hrest.trans (List.append_assoc c.endpoint.sent [w] wires)

theorem sentUntil_sendAll (c : Connection (Recorded σ)) (now : Int) (wires : List Bytes) :
    c.sentUntil ((c.restamped now).sendAll wires) = wires :=
  sentUntil_of_append wires (sent_sendAll (c.restamped now) wires)

theorem sentUntil_destroy (c : Connection (Recorded σ)) : c.sentUntil c.destroy = [] :=
  sentUntil_of_append [] (by rw [(sameInput_destroy c).sent, List.append_nil])

theorem sentUntil_abort (c : Connection (Recorded σ)) (now : Int) (cause : Error) :
    c.sentUntil ((c.restamped now).abort cause) = [] := by
  unfold abort
  split
  · exact sentUntil_self (c.restamped now)
  · exact sentUntil_destroy
      { c.restamped now with endpoint := Endpoint.reset (c.restamped now).endpoint cause }

/-! ### First transmissions -/

/-- A packet that is sent is noted, and was not before. -/
theorem Tracked.sendNext (h : c.Tracked log) (hnext : c.sendNext? now = some d) :
    ∃ w, d.endpoint.sent = c.endpoint.sent ++ [w] ∧ d.Tracked (.first w now :: log) := by
  let g : Grant := { hears := fun _ => False }
  have hstep : Step g c d := step_of_sendNext? trivial hnext
  obtain ⟨p, outbound, live, hpop, rfl⟩ := sendNext?_eq_some hnext
  obtain ⟨t, hnumbered⟩ := h.orderly.numbered
  have hconveys := hnumbered.conveys live
  obtain ⟨hlt, hinsert⟩ := hconveys.insert_eq hnumbered.counts hpop now
  obtain ⟨-, hwire, hsound, hcarried⟩ := hconveys.speaks.pop hpop now
  have hstart := hconveys.pop_start hpop
  have hnew : ∀ w, Spoken (fun s => s.start < c.inflight.sent) w → p.wire ≠ w := by
    rintro w hspoken rfl
    rw [hwire] at hspoken
    have hbelow : p.start < c.inflight.sent := hspoken.of_decode (Segment.decode_encode hsound)
    omega
  refine ⟨p.wire, rfl, hstep.orderly h.orderly, hstep.withinBudget h.budget, fun e he => ?_,
    h.consistent.cons fun m hm => (hnew m.wire (h.sent m hm)).symm, ?_⟩
  · simp only [hinsert, Queue.toList_push] at he
    rcases List.mem_append.mp he with he | he
    · exact (h.recalled e he).cons_of_ne (hnew e.wire (h.orderly.spoken_flying he))
    · obtain rfl := List.mem_singleton.mp he
      exact SentPacket.recalled_first (e := { p with sentAt := now })
        (h.budget.waiting.pop hpop).1 log
  · simp only [hinsert]
    intro m hm
    rcases List.mem_cons.mp hm with rfl | hm
    · exact ⟨p.segment, hsound, Conveys.start_lt_stop hcarried, hwire⟩
    · exact (h.sent m hm).mono fun s hs => Nat.lt_trans hs hlt

theorem Tracked.sendWhileAllowed (h : c.Tracked log) (now : Int) :
    (c.sendWhileAllowed now).Tracked
      (((c.sentUntil (c.sendWhileAllowed now)).map (.first · now)).reverse ++ log) := by
  fun_induction Connection.sendWhileAllowed c now generalizing log with
  | case1 c =>
    rw [sentUntil_self]
    exact h
  | case2 c d hnext ih =>
    obtain ⟨w, hsent, hd⟩ := h.sendNext hnext
    let g : Grant := { hears := fun _ => False }
    have hprefix := Steps.sent_prefix (g := g) (sendWhileAllowed_steps trivial d now)
    rw [sentUntil_trans ⟨[w], hsent.symm⟩ hprefix, sentUntil_of_append [w] hsent]
    have hall := ih hd
    rwa [List.map_append, List.reverse_append, List.append_assoc]

theorem Tracked.senderTurn (h : c.Tracked log) (now : Int) :
    (c.senderTurn now).Tracked
      (((c.sentUntil (c.senderTurn now)).map (.first · now)).reverse ++ log) := by
  unfold Connection.senderTurn
  split
  · have hsent := h.sendWhileAllowed now
    simp only
    generalize c.sendWhileAllowed now = d at hsent
    split
    · exact hsent.notice .stopped d.permit
    · exact hsent.notice .waiting false
  · rw [sentUntil_self]
    exact h

/-! ### Resends -/

/-- Of a connection that is given up nothing is left. -/
theorem Tracked.abort_restamped (h : c.Tracked log) (live : c.destroyed = false) (now : Int)
    (cause : Error) : ((c.restamped now).abort cause).Tracked log := by
  let g : Grant := { hears := fun _ => False }
  have hsteps : Steps g c ((c.restamped now).abort cause) :=
    (abort_steps trivial _ cause).head (.restamp live trivial now)
  have hcleared : ((c.restamped now).abort cause).inflight =
      (c.restamped now).inflight.clear := by
    unfold abort destroy
    rw [if_neg (by simp [live]), if_neg (by simp [live])]
  refine ⟨hsteps.orderly h.orderly, hsteps.keeps Step.withinBudget h.budget, fun e he => ?_, ?_, ?_⟩
  · rw [hcleared] at he
    cases he
  · rw [hsteps.config_eq]
    exact h.consistent
  · rw [hcleared]
    exact h.sent

theorem Tracked.timerPass (h : c.Tracked log) (now : Int) (busy : Bool) :
    (c.timerPass now busy).2.Tracked
      (((c.sentUntil (c.timerPass now busy).2).map (.again · now)).reverse ++ log) := by
  let g : Grant := { hears := fun _ => False }
  have hsteps : Steps g c (c.timerPass now busy).2 := timerPass_steps trivial trivial c now busy
  have horderly := hsteps.orderly h.orderly
  have hbudget := hsteps.keeps Step.withinBudget h.budget
  rcases c.timerPass_rest_or now busy with ⟨-, -, heq | heq⟩ | ⟨live, hlinger, rfl⟩
  · rw [heq, sentUntil_self]
    exact h
  · rw [heq, sentUntil_destroy]
    exact (destroy_steps c).tracked Grant.still_quiet h
  · rcases timerPass_eq live hlinger with
      ⟨-, -, hinflight, heq⟩ | ⟨ahead, e, rest, -, -, -, -, heq⟩
    · obtain ⟨hrecalled, hconsistent⟩ := SentPacket.recalled_resendMarks
        (h.orderly.apart.imp And.right) h.recalled h.consistent now
      have hentries : (c.restamped now).inflight.entries.toList =
          c.inflight.entries.toList.map (·.restamped now c.config) := by
        rw [hinflight, Queue.toList_ofList]
      rw [heq] at horderly hbudget ⊢
      rw [sentUntil_sendAll]
      refine ⟨horderly, hbudget, fun e he => hrecalled e (hentries ▸ he), hconsistent,
        fun m hm => ?_⟩
      rcases List.mem_append.mp hm with hm | hm
      · obtain ⟨e, he, rfl⟩ := SentPacket.exists_of_mem_resendMarks hm
        exact h.orderly.spoken_flying he
      · exact h.sent m hm
    · rw [heq, sentUntil_abort]
      exact h.abort_restamped live now _

/-! ## Runs -/

theorem Tracked.move (h : c.Tracked log) {m : Move (Recorded σ)} (hm : m.SparesRecord) :
    (c.move m).Tracked (c.marks m ++ log) := by
  cases m with
  | sendNext now =>
    show ((c.sendNext? now).getD c).Tracked
      (((c.sentUntil ((c.sendNext? now).getD c)).map (.first · now)).reverse ++ log)
    cases hnext : c.sendNext? now with
    | none =>
      rw [Option.getD_none, sentUntil_self]
      exact h
    | some d =>
      obtain ⟨w, hsent, hd⟩ := h.sendNext hnext
      rw [Option.getD_some, sentUntil_of_append [w] hsent]
      exact hd
  | deed x =>
    cases x with
    | read now runtime =>
      exact (read_steps trivial trivial c now runtime).tracked Grant.still_quiet h
    | ensureSender runtime =>
      exact (ensureSender_steps trivial c runtime).tracked Grant.still_quiet h
    | senderTurn now => exact h.senderTurn now
    | receive datagram now => exact h.receive datagram now
    | output now =>
      exact (output_steps trivial c now).tracked Grant.still_quiet h
    | timerPass now busy => exact h.timerPass now busy
    | abort cause =>
      exact (abort_steps trivial c cause).tracked Grant.still_quiet h
    | destroy =>
      exact (destroy_steps c).tracked Grant.still_quiet h
    | adjust change => exact h.of_endpoint (change c.endpoint)

theorem Noted.tracked (h : Noted c log) : c.Tracked log := by
  induction h with
  | created id valid inner => exact tracked_created id valid _
  | move _ hm ih => exact ih.move hm

/-- The first packet that is due and was resent as often as is allowed. -/
def spent? (c : Connection σ) (log : List Mark) (now : Int) : Option SentPacket :=
  c.inflight.entries.toList.find? fun e => Mark.isSpent c.config log e.wire now

/-- The wires of the packets that are due, in order. -/
def dueWires (c : Connection σ) (log : List Mark) (now : Int) : List Bytes :=
  (c.inflight.entries.toList.filter fun e => Mark.isDue c.config log e.wire now).map (·.wire)

/-- What the log says is what the timer does. -/
theorem Tracked.timerPass_comes (h : c.Tracked log) (live : c.destroyed = false) (now : Int)
    (busy : Bool) :
    (c.timerPass now busy).1 = .skipped ∨
      c.spent? log now = none ∧ (c.timerPass now busy).1.isDead = false ∧
        c.sentUntil (c.timerPass now busy).2 = c.dueWires log now ∨
      ∃ e, c.spent? log now = some e ∧
        (c.timerPass now busy).1 = .dead e.start c.config.maxResends := by
  cases hlinger : c.hasLingered now with
  | true =>
    have hnil : c.inflight.entries.toList = [] := by
      by_contra hne
      rw [h.orderly.hasLingered_eq_false live hne now] at hlinger
      cases hlinger
    right
    left
    rw [spent?, dueWires, hnil, timerPass_of_hasLingered live hlinger]
    exact ⟨rfl, rfl, sentUntil_destroy c⟩
  | false =>
    cases busy with
    | true => exact .inl (by rw [timerPass_of_busy live hlinger])
    | false =>
      right
      have hspent : ∀ e ∈ c.inflight.entries.toList, Mark.isSpent c.config log e.wire now =
          (e.isOverdue now c.config && e.isExhausted c.config) := fun e he =>
        (h.recalled e he).isSpent_eq (h.budget.flying e he) now
      rcases timerPass_eq live hlinger with
        ⟨hfine, houtcome, -, heq⟩ | ⟨ahead, e, rest, hsplit, hfine, hover, hexhausted, heq⟩
      · refine .inl ⟨List.find?_eq_none.mpr fun e he => ?_, ?_, ?_⟩
        · simp only [hspent e he, Bool.and_eq_true, not_and, Bool.not_eq_true]
          exact hfine e he
        · rw [houtcome]
          split <;> rfl
        · rw [heq, sentUntil_sendAll, dueWires, overdueWires,
            List.filter_congr fun e he => (h.recalled e he).isDue_eq c.config now]
      · have he : e ∈ c.inflight.entries.toList := by simp [hsplit]
        have hle := h.budget.flying e he
        refine .inr ⟨e, ?_, ?_⟩
        · refine List.find?_eq_some_iff_append.mpr ⟨?_, ahead, rest, hsplit, fun x hx => ?_⟩
          · rw [hspent e he, hover, hexhausted]
            rfl
          · rw [hspent x (by simp [hsplit, hx])]
            cases hx' : x.isOverdue now c.config with
            | false => rfl
            | true => simp [hfine x hx hx']
        · have hmax : e.resends = c.config.maxResends := by
            simp only [SentPacket.isExhausted, decide_eq_true_eq] at hexhausted
            omega
          rw [heq, hmax]

/-- How often and when the packets of a connection are resent, by its log alone. -/
structure OnSchedule (c : Connection (Recorded σ)) (log : List Mark) : Prop where
  /-- A packet in flight counts how often it was resent since it was first sent or excused. -/
  counted : ∀ e ∈ c.inflight.entries.toList,
    e.resends = Mark.resends e.wire log ∧ e.resends ≤ c.config.maxResends
  stamped : ∀ e ∈ c.inflight.entries.toList, Mark.lastSent? e.wire log = some e.sentAt
  /-- A packet is first sent once. -/
  once : ∀ w time before, .first w time :: before <:+ log → ∀ m ∈ before, m.wire ≠ w
  /-- And never resent before it is due. -/
  timed : ∀ w time before, .again w time :: before <:+ log →
    Mark.isDue c.config before w time = true
  ordered : c.inflight.entries.toList.Pairwise fun x y => x.start < y.start ∧ x.wire ≠ y.wire
  /-- A pass that does not give up resends all that are due, in order. -/
  resends : c.destroyed = false → ∀ now busy, (c.timerPass now busy).1 ≠ .skipped →
    (c.timerPass now busy).1.isDead = false →
    c.sentUntil (c.timerPass now busy).2 = c.dueWires log now
  /-- It gives up if a packet is due that was resent as often as is allowed. -/
  dies : ∀ now busy e, (c.timerPass now busy).1 ≠ .skipped → c.spent? log now = some e →
    (c.timerPass now busy).1 = .dead e.start c.config.maxResends
  /-- And only then. -/
  dies_only : ∀ now busy seqno resends, (c.timerPass now busy).1 = .dead seqno resends →
    resends = c.config.maxResends ∧ ∃ e, c.spent? log now = some e ∧ e.start = seqno

/-- The log of a connection says how often each packet in flight was resent, when the next is due
and when the connection is given up. -/
theorem on_schedule (h : Noted c log) : c.OnSchedule log := by
  have ht := h.tracked
  refine ⟨fun e he => ⟨(ht.recalled e he).resends_eq.symm, ht.budget.flying e he⟩,
    fun e he => (ht.recalled e he).lastSent_eq, fun w time => ht.consistent (.first w time),
    fun w time => ht.consistent (.again w time), ht.orderly.apart,
    fun live now busy hskip halive => ?_, fun now busy e hskip hspent => ?_,
    fun now busy seqno resends hdead => ?_⟩
  · rcases ht.timerPass_comes live now busy with hskipped | ⟨-, -, hsent⟩ | ⟨e, -, hdead⟩
    · exact absurd hskipped hskip
    · exact hsent
    · rw [hdead] at halive
      cases halive
  · have live : c.destroyed = false := by
      by_contra hd
      obtain ⟨t, hnumbered⟩ := ht.orderly.numbered
      rw [spent?, hnumbered.cleared (by simpa using hd)] at hspent
      cases hspent
    rcases ht.timerPass_comes live now busy with hskipped | ⟨hnone, -⟩ | ⟨e', hsome, hdead⟩
    · exact absurd hskipped hskip
    · rw [hnone] at hspent
      cases hspent
    · rw [hspent] at hsome
      obtain rfl := Option.some.inj hsome
      exact hdead
  · have live : c.destroyed = false := by
      refine (c.destroyed_timerPass now busy).1 ?_
      rw [hdead]
      rfl
    rcases ht.timerPass_comes live now busy with hskipped | ⟨-, halive, -⟩ | ⟨e, hsome, hdead'⟩
    · rw [hskipped] at hdead
      cases hdead
    · rw [hdead] at halive
      cases halive
    · rw [hdead'] at hdead
      obtain ⟨rfl, rfl⟩ := TimerOutcome.dead.inj hdead
      exact ⟨rfl, e, hsome, rfl⟩

/-! ### One letter

It may be resent once, and its timeout is 200 milliseconds. -/

def letterRead : Connection (Recorded InMemory) :=
  (created 1 hasty valid_hasty { inner := { input := [97] } }).move (.deed (.read 0 true))

def letterSent : Connection (Recorded InMemory) := letterRead.move (.deed (.senderTurn 0))

def letterResent : Connection (Recorded InMemory) :=
  letterSent.move (.deed (.timerPass (Duration.ofMillis 201) false))

def letterLog : List Mark :=
  letterSent.marks (.deed (.timerPass (Duration.ofMillis 201) false)) ++
    letterRead.marks (.deed (.senderTurn 0))

theorem noted_letterResent : Noted letterResent letterLog := by
  have hread : Noted letterRead [] :=
    Noted.move (m := .deed (.read 0 true)) (.created 1 valid_hasty ({ input := [97] } : InMemory))
      trivial
  have hsent := Noted.move (m := .deed (.senderTurn 0)) hread trivial
  rw [List.append_nil] at hsent
  exact Noted.move (m := .deed (.timerPass (Duration.ofMillis 201) false)) hsent trivial

/-- After 200 more milliseconds it is not due, and later the connection is given up. -/
theorem letterResent_on_schedule :
    letterResent.sentUntil (letterResent.timerPass (Duration.ofMillis 401) false).2 = [] ∧
      (letterResent.timerPass (Duration.ofMillis 402) false).1 = .dead 1 1 := by
  have h := on_schedule noted_letterResent
  constructor
  · rw [h.resends (by decide +kernel) _ _ (by decide +kernel) (by decide +kernel)]
    decide +kernel
  · have hspent : (letterResent.spent? letterLog (Duration.ofMillis 402)).map (·.start) =
        some 1 := by
      decide +kernel
    obtain ⟨e, he, hstart⟩ := Option.map_eq_some_iff.mp hspent
    have hmax : letterResent.config.maxResends = 1 := by decide +kernel
    rw [h.dies _ _ e (by decide +kernel) he, hstart, hmax]

end Connection

end ReliableStream
