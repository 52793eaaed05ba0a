import ReliableStream.Proofs.Connection.Orderly
import ReliableStream.Proofs.Connection.Sending
import ReliableStream.Proofs.Sending.Accounting

/-!
# The traffic of a connection

A `Move` is a deed, or the sending of one packet, of which a sender's turn may consist of several.
`Ran c w`: the connection was created and made moves, in any order and over any endpoint, with any
datagrams from the network, and its traffic was `w`, which tells apart what was sent for the first
time, what was sent again, and what only acknowledges.

* `Step.utters`: what a single step puts on the network.
* `Ran.rule`: what every step keeps of a connection and its traffic holds of every run.
-/

namespace ReliableStream

namespace Connection

variable {σ : Type} [Endpoint σ]

/-! ## Moves -/

inductive Move (σ : Type) where
  | deed (x : Deed σ)
  /-- The oldest packet that waits is sent, if it may be. -/
  | sendNext (now : Int)

def move (c : Connection σ) : Move σ → Connection σ
  | .deed x => c.perform x
  | .sendNext now => (c.sendNext? now).getD c

namespace Move

/-- Packets are sent for the first time. -/
def isTurn : Move σ → Bool
  | .deed x => x.isTurn
  | .sendNext _ => true

def isPass : Move σ → Bool
  | .deed x => x.isPass
  | .sendNext _ => false

/-- What has to be granted to a connection that makes this move. -/
def grant (m : Move σ) : Grant where
  hears s := match m with
    | .deed x => x.Brings s
    | .sendNext _ => False
  sends := m.isTurn = true
  times := m.isPass = true
  answers := m.isTurn = false ∧ m.isPass = false

/-- What happens outside does not touch the record. -/
def SparesRecord : Move (Recorded σ) → Prop
  | .deed (.adjust change) => ∀ e, Recorded.SameRecord e (change e)
  | _ => True

omit [Endpoint σ] in
/-- Nothing is heard while packets are sent. -/
theorem not_hears {m : Move σ} (h : m.grant.sends ∨ m.grant.times) (s : Segment) :
    ¬ m.grant.hears s := by
  intro hears
  cases m with
  | sendNext now => exact hears
  | deed x =>
    cases x with
    | receive datagram now => rcases h with h | h <;> cases h
    | _ => exact hears

end Move

theorem sendNext_steps {g : Grant} (hg : g.sends) (c : Connection σ) (now : Int) :
    Steps g c (c.move (.sendNext now)) := by
  show Steps g c ((c.sendNext? now).getD c)
  cases hnext : c.sendNext? now with
  | none => exact .refl
  | some d => exact .single (step_of_sendNext? hg hnext)

/-- A move consists of steps, or it happens inside of the endpoint. -/
theorem move_steps (c : Connection (Recorded σ)) {m : Move (Recorded σ)} (hm : m.SparesRecord) :
    Steps m.grant c (c.move m) ∨
      ∃ inner, c.move m = { c with endpoint := { c.endpoint with inner } } := by
  cases m with
  | sendNext now => exact .inl (sendNext_steps rfl c now)
  | deed x =>
    rcases perform_steps c x with hsteps | ⟨change, rfl⟩
    · exact .inl hsteps
    · obtain ⟨inner, heq⟩ := hm c.endpoint
      right
      refine ⟨inner, ?_⟩
      rw [← heq]
      rfl

/-! ## Traffic -/

/-- The datagrams that `d` has sent since it was `c`. -/
def sentUntil (c d : Connection (Recorded σ)) : List Bytes :=
  d.endpoint.sent.drop c.endpoint.sent.length

/-- The datagrams that a connection sent. -/
structure Traffic where
  /-- What senders sent. -/
  firsts : List Bytes := []
  /-- What the timer sent. -/
  resends : List Bytes := []
  /-- All else. -/
  answers : List Bytes := []

/-- The traffic once a move has sent `datagrams`. -/
def Traffic.note (w : Traffic) (m : Move σ) (datagrams : List Bytes) : Traffic :=
  if m.isTurn then { w with firsts := w.firsts ++ datagrams }
  else if m.isPass then { w with resends := w.resends ++ datagrams }
  else { w with answers := w.answers ++ datagrams }

inductive Ran : Connection (Recorded σ) → Traffic → Prop
  | created (id : Nat) {config : Config} (valid : config.Valid) (inner : σ) :
      Ran (created id config valid { inner }) {}
  | move {c : Connection (Recorded σ)} {w : Traffic} {m : Move (Recorded σ)} :
      Ran c w → m.SparesRecord → Ran (c.move m) (w.note m (c.sentUntil (c.move m)))

namespace Traffic

variable {w : Traffic} {m : Move σ} {x y : List Bytes}

omit [Endpoint σ] in
@[simp] theorem note_nil (w : Traffic) (m : Move σ) : w.note m [] = w := by
  unfold note
  split
  · simp
  · split <;> simp

omit [Endpoint σ] in
@[simp] theorem note_note (w : Traffic) (m : Move σ) (x y : List Bytes) :
    (w.note m x).note m y = w.note m (x ++ y) := by
  unfold note
  split
  · simp
  · split <;> simp

omit [Endpoint σ] in
theorem note_of_sends (h : m.grant.sends) :
    w.note m x = { w with firsts := w.firsts ++ x } := if_pos h

omit [Endpoint σ] in
theorem note_of_times (h : m.grant.times) :
    w.note m x = { w with resends := w.resends ++ x } := by
  cases m with
  | sendNext now => cases h
  | deed d =>
    cases d with
    | timerPass => rfl
    | _ => cases h

omit [Endpoint σ] in
theorem note_of_answers (h : m.grant.answers) :
    w.note m x = { w with answers := w.answers ++ x } := by
  unfold note
  rw [if_neg (by simp [h.1]), if_neg (by simp [h.2])]

end Traffic

/-! ## Steps -/

variable {g : Grant} {c d e : Connection (Recorded σ)} {t : Source} {w : Traffic}

omit [Endpoint σ] in
theorem sentUntil_of_append (new : List Bytes)
    (h : d.endpoint.sent = c.endpoint.sent ++ new) : c.sentUntil d = new := by
  unfold sentUntil
  rw [h, List.drop_left]

omit [Endpoint σ] in
theorem sentUntil_trans (h : c.endpoint.sent <+: d.endpoint.sent)
    (h' : d.endpoint.sent <+: e.endpoint.sent) :
    c.sentUntil e = c.sentUntil d ++ d.sentUntil e := by
  obtain ⟨x, hx⟩ := h
  obtain ⟨y, hy⟩ := h'
  rw [sentUntil_of_append x hx.symm, sentUntil_of_append y hy.symm, sentUntil_of_append (x ++ y)]
  rw [← hy, ← hx, List.append_assoc]

omit [Endpoint σ] in
theorem sentUntil_self (c : Connection (Recorded σ)) : c.sentUntil c = [] := by
  simp [sentUntil]

/-- What a step puts on the network, and what is in flight after it. -/
inductive Utters (g : Grant) (c d : Connection (Recorded σ)) : Prop
  | nothing (said : d.endpoint.sent = c.endpoint.sent)
      (sent : d.inflight.sent = c.inflight.sent)
      (flying : d.inflight.segments <:+ c.inflight.segments)
  /-- The oldest packet that waits. -/
  | first {p : Packet} {outbound : Outbound} (now : Int) (hg : g.sends)
      (live : c.destroyed = false)
      (popped : c.outbound.pop? c.inflight c.config.sendWindow = some (p, outbound))
      (said : d.endpoint.sent = c.endpoint.sent ++ [p.wire])
      (flying : d.inflight = (c.inflight.insert p now).2)
  /-- A packet in flight. -/
  | again {x : SentPacket} (hg : g.times) (live : c.destroyed = false)
      (mem : x ∈ c.inflight.entries.toList)
      (said : d.endpoint.sent = c.endpoint.sent ++ [x.wire]) (flying : d.inflight = c.inflight)
  | answer {datagram : Bytes} (hg : g.answers) (bare : Spoken (·.isBareAck = true) datagram)
      (said : d.endpoint.sent = c.endpoint.sent ++ [datagram]) (flying : d.inflight = c.inflight)

theorem Step.utters (h : Step g c d) : Utters g c d := by
  cases h with
  | pause _ hread | queue _ hread | refuse _ _ hread | finish _ hread =>
    obtain ⟨inner, rfl⟩ := Recorded.read_eq hread
    exact .nothing rfl rfl List.suffix_rfl
  | send live hg now hpop => exact .first now hg live hpop rfl rfl
  | resend live hg hflying => exact .again hg live hflying rfl rfl
  | restamp live hg now =>
    refine .nothing rfl rfl ?_
    rw [Inflight.segments_resendOverdue]
  | @acknowledge s live hs hack =>
    refine .nothing rfl (c.sent_acknowledged s) ?_
    rw [Inflight.segments_noteWindow]
    exact c.inflight.segments_acknowledge _
  | deliver live =>
    have hsent := (sameInput_deliver c).sent
    obtain ⟨received, endpoint, ackno, window, heq⟩ := c.deliver_eq
    rw [heq] at hsent ⊢
    exact .nothing hsent rfl List.suffix_rfl
  | answer live hg hw => exact .answer hg (spoken_ack c _) rfl rfl
  | destroy live =>
    have hsent := (sameInput_destroy c).sent
    rw [Connection.destroy, if_neg (by simp [live])] at hsent ⊢
    exact .nothing hsent rfl List.nil_suffix
  | _ => exact .nothing rfl rfl List.suffix_rfl

omit [Endpoint σ] in
theorem Utters.prefix (h : Utters g c d) : c.endpoint.sent <+: d.endpoint.sent := by
  cases h with
  | nothing said => rw [said]
  | first _ _ _ _ said => exact ⟨_, said.symm⟩
  | again _ _ _ said => exact ⟨_, said.symm⟩
  | answer _ _ said => exact ⟨_, said.symm⟩

theorem Steps.sent_prefix (h : Steps g c d) : c.endpoint.sent <+: d.endpoint.sent :=
  h.keeps (I := fun e => c.endpoint.sent <+: e.endpoint.sent)
    (fun hstep hprefix => hprefix.trans hstep.utters.prefix) List.prefix_rfl

/-! ## Runs -/

/-- The steps of a move keep what each of them keeps. -/
theorem Steps.traffic {m : Move (Recorded σ)} {I : Connection (Recorded σ) → Traffic → Prop}
    (hI : ∀ {c d w}, Step m.grant c d → I c w → I d (w.note m (c.sentUntil d)))
    (h : Steps m.grant c d) (hc : I c w) : I d (w.note m (c.sentUntil d)) := by
  induction h with
  | refl =>
    rw [sentUntil_self, Traffic.note_nil]
    exact hc
  | tail hsteps hstep ih =>
    have hnext := hI hstep ih
    have hsent := sentUntil_trans (Steps.sent_prefix hsteps) hstep.utters.prefix
    rwa [Traffic.note_note, ← hsent] at hnext

/-- What holds at first, and is kept by every step, whatever happens inside of the endpoint, holds
of every run. -/
theorem Ran.rule {I : Connection (Recorded σ) → Traffic → Prop}
    (created : ∀ (id : Nat) {config : Config} (valid : config.Valid) (inner : σ),
      I (Connection.created id config valid { inner }) {})
    (step : ∀ {m : Move (Recorded σ)} {c d : Connection (Recorded σ)} {w : Traffic},
      Step m.grant c d → I c w → I d (w.note m (c.sentUntil d)))
    (adjust : ∀ {c : Connection (Recorded σ)} {w : Traffic} (inner : σ),
      I c w → I { c with endpoint := { c.endpoint with inner } } w)
    (h : Ran c w) : I c w := by
  induction h with
  | created id valid inner => exact created id valid inner
  | @move c w m _ hm ih =>
    rcases move_steps c hm with hsteps | ⟨inner, heq⟩
    · exact hsteps.traffic step ih
    · rw [heq, show c.sentUntil { c with endpoint := { c.endpoint with inner } } = [] from
        sentUntil_self c, Traffic.note_nil]
      exact adjust inner ih

end Connection

end ReliableStream
