import ReliableStream.Proofs.Connection.Conservation

/-!
# What a connection sends lies within the windows

The number of bytes in flight is all that a connection compares with the windows, and it says
where they end, whatever the peer has acknowledged and advertised.

* `Accounted`: a connection is in agreement with a source, and so is the number of bytes in flight.
  Every step keeps this (`Step.accounted`).
* `Told`: what the peer said last of what it expects and of its window. A connection believes
  nothing else (`Told.eq`, `Ran.told`).
* `SentAt`: what a sender's turn sends, it sends one by one, each at a state of its own.
* `within_windows`: what this comes to for every connection and everything that it sends.
-/

namespace ReliableStream

namespace Connection

variable {σ : Type} [Endpoint σ] {g : Grant} {c d e : Connection (Recorded σ)} {t : Source}
  {w : Traffic} {m : Move (Recorded σ)} {x : Bytes} {now : Int}

structure Accounted (t : Source) (c : Connection (Recorded σ)) : Prop extends Sending t c where
  metered : Metered c.inflight c.config.sendWindow

theorem Step.accounted (h : Step g c d) (hc : c.Accounted t) : ∃ u, d.Accounted u := by
  obtain ⟨u, hsends⟩ := h.sending hc.toSending
  exact ⟨u, hsends.sending, h.metered hc.toNumbered hc.metered⟩

theorem Steps.accounted (h : Steps g c d) (hc : c.Accounted t) : ∃ u, d.Accounted u :=
  h.keeps (I := fun e => ∃ u, e.Accounted u) (fun hstep ⟨_, he⟩ => hstep.accounted he) ⟨t, hc⟩

theorem Ran.accounted (h : Ran c w) : ∃ t, c.Accounted t :=
  h.rule (I := fun c _ => ∃ t, c.Accounted t)
    (fun id _ valid inner => ⟨{}, sending_created id valid inner, rfl, Nat.zero_le _⟩)
    (fun hstep ⟨_, hc⟩ => hstep.accounted hc)
    (fun inner ⟨t, hc⟩ => ⟨t, hc.toSending.adjust inner, hc.metered⟩)

/-! ## What the peer said last -/

/-- The connection takes note of the acknowledgment in the datagram and of the window that comes
with it. -/
def TakesNote (c : Connection σ) (datagram : Bytes) : Prop :=
  c.destroyed = false ∧ ∃ s, Segment.decode datagram = .ok s ∧ s.flags.contains .ack = true ∧
    c.inflight.acked ≤ s.ackno.toNat ∧ s.ackno.toNat ≤ c.inflight.sent

/-- The move brings something that the connection takes note of. -/
def Informs (c : Connection σ) : Move σ → Prop
  | .deed (.receive datagram _) => c.TakesNote datagram
  | _ => False

/-- The connection was created and made moves, and took note last of this acknowledgment and of the
window that came with it. Until it does, the peer expects the first position and has room for as
much as a window can say. -/
inductive Told : Connection (Recorded σ) → Nat × Nat → Prop
  | created (id : Nat) {config : Config} (valid : config.Valid) (inner : σ) :
      Told (created id config valid { inner }) (firstPosition, 65535)
  | noted {c : Connection (Recorded σ)} {word : Nat × Nat} {datagram : Bytes} {s : Segment}
      (now : Int) : Told c word → c.TakesNote datagram → Segment.decode datagram = .ok s →
      Told (c.move (.deed (.receive datagram now))) (s.ackno.toNat, s.window.toNat)
  | unnoted {c : Connection (Recorded σ)} {word : Nat × Nat} {m : Move (Recorded σ)} :
      Told c word → m.SparesRecord → ¬ c.Informs m → Told (c.move m) word

/-- What a connection believes changes only when it hears of it. -/
theorem Step.believed_cases (h : Step g c d) :
    d.inflight.believed = c.inflight.believed ∨
      ∃ s, g.hears s ∧ c.destroyed = false ∧ s.flags.contains .ack = true ∧
        c.inflight.acked ≤ s.ackno.toNat ∧ s.ackno.toNat ≤ c.inflight.sent ∧
        d.inflight.believed = (s.ackno.toNat, s.window.toNat) := by
  cases h with
  | send live hg now hp => exact .inl (c.inflight.believed_insert _ now)
  | @acknowledge s live hs hack =>
    have hnoted := c.inflight.believed_noted s.ackno.toNat s.window
    split at hnoted
    next hnew => exact .inr ⟨s, hs, live, hack, hnew.1, hnew.2, hnoted⟩
    next => exact .inl hnoted
  | deliver live =>
    obtain ⟨received, endpoint, ackno, window, heq⟩ := c.deliver_eq
    rw [heq]
    exact .inl rfl
  | destroy live =>
    rw [Connection.destroy, if_neg (by simp [live])]
    exact .inl rfl
  | _ => exact .inl rfl

/-- What is acknowledged stays acknowledged. -/
theorem Step.acked_le (h : Step g c d) : c.inflight.acked ≤ d.inflight.acked := by
  rcases h.believed_cases with heq | ⟨s, -, -, -, hle, -, heq⟩
  · exact Nat.le_of_eq (congrArg Prod.fst heq).symm
  · exact Nat.le_trans hle (Nat.le_of_eq (congrArg Prod.fst heq).symm)

/-- As long as nothing is heard, the same is believed. -/
theorem Steps.believed_eq (h : Steps g c d) (hg : ∀ s, ¬ g.hears s) :
    d.inflight.believed = c.inflight.believed :=
  h.keeps (I := fun e => e.inflight.believed = c.inflight.believed)
    (fun hstep heq => by
      rcases hstep.believed_cases with hsame | ⟨s, hears, -⟩
      · exact hsame.trans heq
      · exact absurd hears (hg s)) rfl

theorem Step.sent_eq (h : Step g c d) (hg : ¬ g.sends) : d.inflight.sent = c.inflight.sent := by
  cases h.utters with
  | nothing _ sent => exact sent
  | first _ hsends => exact absurd hsends hg
  | again _ _ _ _ flying => rw [flying]
  | answer _ _ _ flying => rw [flying]

/-- What is noted is believed. -/
theorem believed_receive {datagram : Bytes} {s : Segment} (h : c.TakesNote datagram)
    (hdecode : Segment.decode datagram = .ok s) (now : Int) :
    (c.move (.deed (.receive datagram now))).inflight.believed =
      (s.ackno.toNat, s.window.toNat) := by
  obtain ⟨live, s', hdecode', hack, hle, hge⟩ := h
  obtain rfl : s = s' := Except.ok.inj (hdecode.symm.trans hdecode')
  let g : Grant := { hears := fun s => Segment.decode datagram = .ok s }
  have hsteps : Steps g (c.acknowledged s) (c.move (.deed (.receive datagram now))) :=
    receive_steps_acknowledged trivial trivial live hdecode hdecode hack now
  have hnoted : (c.acknowledged s).inflight.believed = (s.ackno.toNat, s.window.toNat) :=
    (c.inflight.believed_noted s.ackno.toNat s.window).trans (if_pos ⟨hle, hge⟩)
  refine hsteps.keeps (I := fun e => e.inflight.believed = (s.ackno.toNat, s.window.toNat))
    (fun hstep heq => ?_) hnoted
  rcases hstep.believed_cases with hsame | ⟨s', hears, -, -, -, -, hbelieved⟩
  · exact hsame.trans heq
  · obtain rfl : s = s' := Except.ok.inj (hdecode.symm.trans hears)
    exact hbelieved

/-- What is not noted at the beginning of steps that send nothing is not noted on the way. -/
theorem Steps.believed_eq_of_not_takesNote {datagram : Bytes} (h : Steps g c d) (hg : ¬ g.sends)
    (hs : ∀ s, g.hears s → Segment.decode datagram = .ok s) (hnot : ¬ c.TakesNote datagram) :
    d.inflight.believed = c.inflight.believed := by
  have hkept : (d.destroyed = false → c.destroyed = false) ∧
      d.inflight.sent = c.inflight.sent ∧ d.inflight.believed = c.inflight.believed := by
    refine h.keeps (I := fun e => (e.destroyed = false → c.destroyed = false) ∧
      e.inflight.sent = c.inflight.sent ∧ e.inflight.believed = c.inflight.believed) ?_
      ⟨fun live => live, rfl, rfl⟩
    intro d e hstep ⟨hlive, hsent, hsame⟩
    refine ⟨fun live => hlive (hstep.live live), (hstep.sent_eq hg).trans hsent, ?_⟩
    rcases hstep.believed_cases with heq | ⟨s, hears, live, hack, hle, hge, -⟩
    · exact heq.trans hsame
    · have hacked : d.inflight.acked = c.inflight.acked := congrArg Prod.fst hsame
      rw [hacked] at hle
      rw [hsent] at hge
      exact absurd ⟨hlive live, s, hs s hears, hack, hle, hge⟩ hnot
  exact hkept.2.2

/-- Nothing is believed that was not noted. -/
theorem believed_move (hm : m.SparesRecord) (hnot : ¬ c.Informs m) :
    (c.move m).inflight.believed = c.inflight.believed := by
  rcases move_steps c hm with hsteps | ⟨inner, heq⟩
  · cases m with
    | sendNext now => exact hsteps.believed_eq fun s hears => hears
    | deed x =>
      cases x with
      | receive datagram now =>
        exact hsteps.believed_eq_of_not_takesNote (fun hsends => by cases hsends)
          (fun s hears => hears) hnot
      | _ => exact hsteps.believed_eq fun s hears => hears
  · rw [heq]

omit [Endpoint σ] in
/-- Only what is received informs. -/
theorem Informs.exists_receive (h : c.Informs m) : ∃ datagram now s,
    m = .deed (.receive datagram now) ∧ c.TakesNote datagram ∧
      Segment.decode datagram = .ok s := by
  cases m with
  | sendNext => exact h.elim
  | deed x =>
    cases x with
    | receive datagram now =>
      have hnote : c.TakesNote datagram := h
      obtain ⟨-, s, hdecode, -⟩ := hnote
      exact ⟨datagram, now, s, rfl, h, hdecode⟩
    | _ => exact h.elim

theorem Told.eq {word : Nat × Nat} (h : Told c word) : word = c.inflight.believed := by
  induction h with
  | created => rfl
  | noted now _ hnote hdecode => exact (believed_receive hnote hdecode now).symm
  | unnoted _ hm hnot ih => exact ih.trans (believed_move hm hnot).symm

theorem Ran.told (h : Ran c w) : Told c c.inflight.believed := by
  induction h with
  | created id valid inner => exact .created id valid inner
  | @move c w m _ hm ih =>
    by_cases hinforms : c.Informs m
    · obtain ⟨datagram, now, s, rfl, hnote, hdecode⟩ := hinforms.exists_receive
      rw [believed_receive hnote hdecode now]
      exact .noted now ih hnote hdecode
    · rw [believed_move hm hinforms]
      exact .unnoted ih hm hinforms

/-! ## What is sent -/

/-- The segment lies within the send window. -/
def InSendWindow (c : Connection (Recorded σ)) (s : Segment) : Prop :=
  s.isBareAck = true ∨ s.start + s.payload.length ≤ c.inflight.acked + c.config.sendWindow

/-- What the steps of a move send lies within the send window that there was before the move. -/
theorem Steps.inSendWindow (h : Steps m.grant c d) (hc : c.Accounted t) :
    ∀ x ∈ c.sentUntil d, Spoken c.InSendWindow x := by
  induction h with
  | refl =>
    rw [sentUntil_self]
    intro x hx
    cases hx
  | @tail d e hsteps hstep ih =>
    intro x hx
    rw [sentUntil_trans (Steps.sent_prefix hsteps) hstep.utters.prefix] at hx
    rcases List.mem_append.mp hx with hx | hx
    · exact ih x hx
    · obtain ⟨u, hd⟩ := Steps.accounted hsteps hc
      have hconfig : d.config = c.config := Steps.config_eq hsteps
      -- a move that sends packets hears nothing, so the window is where it was
      have hacked : m.grant.sends ∨ m.grant.times → d.inflight.acked = c.inflight.acked :=
        fun hg => congrArg Prod.fst (Steps.believed_eq hsteps (Move.not_hears hg))
      have hspoken : ∀ {s : Segment}, s.Sound → m.grant.sends ∨ m.grant.times →
          s.start + s.payload.length ≤ d.inflight.acked + d.config.sendWindow →
          Spoken c.InSendWindow s.encode := by
        intro s hs hg hle
        rw [hacked hg, hconfig] at hle
        exact ⟨s, hs, .inr hle, rfl⟩
      cases hstep.utters with
      | nothing said =>
        rw [sentUntil_of_append [] (by rw [said, List.append_nil])] at hx
        cases hx
      | first now hg live hp said =>
        rw [sentUntil_of_append _ said] at hx
        obtain rfl := List.mem_singleton.mp hx
        obtain ⟨-, hwire, hsound, -⟩ := (hd.conveys live).speaks.pop hp now
        rw [hwire]
        exact hspoken hsound (.inl hg) ((hd.conveys live).pop_within hd.counts hd.metered hp).1
      | again hg live hmem said =>
        rw [sentUntil_of_append _ said] at hx
        obtain rfl := List.mem_singleton.mp hx
        obtain ⟨hwire, hsound, -⟩ := (hd.conveys live).speaks.flying _ hmem
        rw [hwire]
        exact hspoken hsound (.inr hg) ((hd.conveys live).flying_within hd.counts hd.metered hmem)
      | answer hg bare said =>
        rw [sentUntil_of_append _ said] at hx
        obtain rfl := List.mem_singleton.mp hx
        exact bare.mono fun s hs => .inl hs

/-- On its way from `c`, a sender's turn comes to `d`, where it sends `x`. -/
structure SentAt (now : Int) (c d : Connection (Recorded σ)) (x : Bytes) : Prop where
  before : Relation.ReflTransGen (fun c d => c.sendNext? now = some d) c d
  sent : ∃ e, d.sendNext? now = some e ∧ e.endpoint.sent = d.endpoint.sent ++ [x]

/-- One packet is sent, or none. -/
theorem SentAt.of_sendNext? (h : c.sendNext? now = some d) (hx : x ∈ c.sentUntil d) :
    SentAt now c c x := by
  obtain ⟨p, outbound, -, -, rfl⟩ := sendNext?_eq_some h
  obtain rfl : x = p.wire := by
    rw [sentUntil_of_append [p.wire] rfl] at hx
    exact List.mem_singleton.mp hx
  exact ⟨.refl, _, h, rfl⟩

theorem exists_sentAt_of_sendWhileAllowed (c : Connection (Recorded σ)) (now : Int) :
    ∀ x ∈ c.sentUntil (c.sendWhileAllowed now), ∃ d, SentAt now c d x := by
  fun_induction sendWhileAllowed c now with
  | case1 c =>
    intro x hx
    rw [sentUntil_self] at hx
    cases hx
  | case2 c d hnext ih =>
    intro x hx
    let g : Grant := { hears := fun _ => False }
    have hstep : Step g c d := step_of_sendNext? trivial hnext
    have hrest : Steps g d (d.sendWhileAllowed now) := sendWhileAllowed_steps trivial d now
    rw [sentUntil_trans hstep.utters.prefix (Steps.sent_prefix hrest)] at hx
    rcases List.mem_append.mp hx with hx | hx
    · exact ⟨c, .of_sendNext? hnext hx⟩
    · obtain ⟨e, hbefore, hsent⟩ := ih x hx
      exact ⟨e, hbefore.head hnext, hsent⟩

/-- What is sent for the first time is sent so. -/
theorem exists_sentAt (h : m.isTurn = true) (hx : x ∈ c.sentUntil (c.move m)) :
    ∃ now d, SentAt now c d x := by
  cases m with
  | sendNext now =>
    have hx' : x ∈ c.sentUntil ((c.sendNext? now).getD c) := hx
    cases hnext : c.sendNext? now with
    | none =>
      rw [hnext, Option.getD_none, sentUntil_self] at hx'
      cases hx'
    | some d =>
      rw [hnext, Option.getD_some] at hx'
      exact ⟨now, c, .of_sendNext? hnext hx'⟩
  | deed y =>
    cases y with
    | senderTurn now =>
      have hx' : x ∈ c.sentUntil (c.senderTurn now) := hx
      refine ⟨now, c.exists_sentAt_of_sendWhileAllowed now x ?_⟩
      unfold senderTurn at hx'
      split at hx'
      · simp only at hx'
        split at hx' <;> exact hx'
      · rw [sentUntil_self] at hx'
        cases hx'
    | _ => cases h

theorem SentAt.steps (h : SentAt now c d x) (hg : g.sends) : Steps g c d :=
  Relation.ReflTransGen.mono (fun _ _ hnext => step_of_sendNext? hg hnext) _ _ h.before

/-- It comes next, and lies within the peer's window if it has to. -/
theorem SentAt.admitted (h : SentAt now c d x) (hc : c.Accounted t) :
    Spoken (fun s => s.start = d.inflight.sent ∧ d.inflight.Admits s) x := by
  obtain ⟨u, hd⟩ := (h.steps (g := { hears := fun _ => False }) trivial).accounted hc
  obtain ⟨e, hnext, hsaid⟩ := h.sent
  obtain ⟨p, outbound, live, hp, rfl⟩ := sendNext?_eq_some hnext
  obtain ⟨-, hwire, hsound, -⟩ := (hd.conveys live).speaks.pop hp now
  obtain rfl : p.wire = x := by simpa [Endpoint.send] using hsaid
  have hwaiting := (hd.conveys live).waiting
  rw [Outbound.queue_of_pop? hp] at hwaiting
  exact ⟨p.segment, hsound,
    ⟨hwaiting.1, ((hd.conveys live).pop_within hd.counts hd.metered hp).2⟩, hwire⟩

/-- Whatever the peer acknowledges and advertises, the number of bytes in flight is right and within
the send window. What is acknowledged stays acknowledged, was sent, and what was sent was numbered.
What is acknowledged, and the window of the peer, are what the peer said last. All that is sent lies
within the send window, and what is sent for the first time lies within the peer's window too,
unless nothing is in flight. -/
theorem within_windows (h : Ran c w) :
    (c.inflight.bytes = c.inflight.payloadTotal ∧ c.inflight.bytes ≤ c.config.sendWindow) ∧
    (c.inflight.acked ≤ c.inflight.sent ∧ c.inflight.sent ≤ c.outbound.next) ∧
    (∀ word, Told c word ↔ word = (c.inflight.acked, c.inflight.peerWindow)) ∧
    (∀ m : Move (Recorded σ), m.SparesRecord →
      c.inflight.acked ≤ (c.move m).inflight.acked ∧
      (∀ x ∈ c.sentUntil (c.move m), Spoken c.InSendWindow x) ∧
      (m.isTurn = true → ∀ x ∈ c.sentUntil (c.move m),
        ∃ now d, SentAt now c d x ∧ d.inflight.believed = c.inflight.believed ∧
          Spoken d.inflight.Admits x)) := by
  obtain ⟨t, hc⟩ := h.accounted
  refine ⟨⟨hc.metered.bytes_eq, hc.metered.bytes_le⟩, ⟨hc.counts.acked_le, hc.counts.sent_le⟩,
    fun word => ⟨Told.eq, fun heq => ?_⟩, fun m hm => ⟨?_, ?_, fun hturn x hx => ?_⟩⟩
  · rw [heq]
    exact h.told
  · rcases move_steps c hm with hsteps | ⟨inner, heq⟩
    · exact hsteps.keeps (I := fun e => c.inflight.acked ≤ e.inflight.acked)
        (fun hstep hle => Nat.le_trans hle hstep.acked_le) (Nat.le_refl _)
    · rw [heq]
  · rcases move_steps c hm with hsteps | ⟨inner, heq⟩
    · exact hsteps.inSendWindow hc
    · rw [heq, show c.sentUntil { c with endpoint := { c.endpoint with inner } } = [] from
        sentUntil_self c]
      intro x hx
      cases hx
  · obtain ⟨now, d, hat⟩ := exists_sentAt hturn hx
    have hsteps : Steps { hears := fun _ => False } c d := hat.steps trivial
    exact ⟨now, d, hat, hsteps.believed_eq fun _ hears => hears,
      (hat.admitted hc).mono fun s hs => hs.2⟩

/-- The second letter is in flight, and there is room for the third. -/
theorem third_letter_within : speller.inflight.bytes = 1 ∧ speller.inflight.payloadTotal = 1 ∧
    Told speller (2, 1440) ∧
    (speller.sentUntil (speller.move (.sendNext 0))).length = 1 ∧
    ∀ x ∈ speller.sentUntil (speller.move (.sendNext 0)), Spoken speller.InSendWindow x ∧
      ∃ now d, SentAt now speller d x ∧ d.inflight.believed = (2, 1440) ∧
        Spoken d.inflight.Admits x := by
  obtain ⟨w, hran⟩ := ran_speller
  obtain ⟨⟨hbytes, -⟩, -, htold, hmoves⟩ := within_windows hran
  obtain ⟨-, hsend, hpeer⟩ := hmoves (.sendNext 0) trivial
  have hone : speller.inflight.bytes = 1 := by decide +kernel
  have hword : speller.inflight.believed = (2, 1440) := by decide +kernel
  refine ⟨hone, hbytes.symm.trans hone, (htold _).mpr hword.symm, by decide +kernel,
    fun x hx => ⟨hsend x hx, ?_⟩⟩
  rw [← hword]
  exact hpeer rfl x hx

end Connection

end ReliableStream
