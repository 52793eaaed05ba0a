import ReliableStream.Proofs.Connection.Discipline
import ReliableStream.Proofs.Connection.Timer
import ReliableStream.Proofs.Sending.Resends

/-!
# What a pass of the timer leaves

A connection is `AtRest` at an instant if a pass of the timer finds nothing to do then. Every pass
leaves a connection that is at rest: what was overdue is resent and has just been sent, or the
connection is destroyed (`atRest_timerPass`).

* `Passes`: all that a pass can do.
* `destroyed_timerPass`, `sends_timerPass`: the outcome of a pass says what it did.
* `AtRest.hasLingered`, `AtRest.within_timeout`: what it means for a connection that is there.
* `WithinBudget`: no packet was ever resent more often than is allowed. Every step keeps this
  (`Step.withinBudget`).
-/

namespace ReliableStream

namespace SentPacket

variable {e : SentPacket} {now : Int} {config : Config}

/-- A packet that was just resent is not overdue. -/
theorem isOverdue_restamped (e : SentPacket) (now : Int) (config : Config) :
    (e.restamped now config).isOverdue now config = false := by
  cases hover : e.isOverdue now config with
  | false => rw [restamped_of_not_overdue hover, hover]
  | true =>
    rw [restamped_of_overdue hover]
    simp [isOverdue, resent, Instant.elapsed]

/-- A packet that may be resent is not resent too often. -/
theorem resends_restamped_le (hbudget : e.resends ≤ config.maxResends)
    (hfine : e.isOverdue now config = true → e.isExhausted config = false) :
    (e.restamped now config).resends ≤ config.maxResends := by
  cases hover : e.isOverdue now config with
  | false =>
    rw [restamped_of_not_overdue hover]
    exact hbudget
  | true =>
    have hmay := hfine hover
    simp only [isExhausted, decide_eq_false_iff_not] at hmay
    rw [restamped_of_overdue hover]
    show e.resends + 1 ≤ config.maxResends
    omega

/-- When none is overdue, none is resent. -/
theorem resendOverdue_of_not_overdue {l : List SentPacket}
    (h : ∀ e ∈ l, e.isOverdue now config = false) :
    resendOverdue now config l = (.resend [], l) := by
  rcases resendOverdue_cases now config l with ⟨-, heq⟩ | ⟨ahead, e, rest, rfl, -, hover, -⟩
  · have hnone : l.filter (·.isOverdue now config) = [] :=
      List.filter_eq_nil_iff.mpr fun e he => by simp [h e he]
    have hsame : l.map (·.restamped now config) = l :=
      (List.map_congr_left fun e he => restamped_of_not_overdue (h e he)).trans l.map_id
    rw [heq, hnone, hsame]
    rfl
  · have := h e (by simp)
    rw [this] at hover
    cases hover

end SentPacket

/-- How many packets were resent. -/
def TimerOutcome.resent : TimerOutcome → Nat
  | .retransmitted n => n
  | _ => 0

/-- The connection was destroyed. -/
def TimerOutcome.tearsDown : TimerOutcome → Bool
  | .dead .. | .lingerExpired => true
  | _ => false

namespace Connection

variable {σ : Type} [Endpoint σ] {c d : Connection σ} {now : Int} {g : Grant}

/-! ## A pass -/

/-- All that a pass can come to. -/
inductive Passes (c : Connection σ) (now : Int) (busy : Bool) :
    TimerOutcome → Connection σ → Prop
  | gone (hd : c.destroyed = true) : Passes c now busy .idle c
  | lingered (live : c.destroyed = false) (hlinger : c.hasLingered now = true) :
      Passes c now busy .lingerExpired c.destroy
  | inUse (live : c.destroyed = false) (hlinger : c.hasLingered now = false)
      (hbusy : busy = true) : Passes c now busy .skipped c
  /-- These packets are overdue, and none of them was resent too often. -/
  | resent {outcome : TimerOutcome} (live : c.destroyed = false)
      (hlinger : c.hasLingered now = false) (wires : List Bytes)
      (hentries : (c.restamped now).inflight.entries =
        .ofList (c.inflight.entries.toList.map (·.restamped now c.config)))
      (houtcome : outcome = if wires = [] then .idle else .retransmitted wires.length) :
      Passes c now busy outcome ((c.restamped now).sendAll wires)
  | dead (live : c.destroyed = false) (hlinger : c.hasLingered now = false)
      (seqno resends : Nat) (cause : Error) :
      Passes c now busy (.dead seqno resends) ((c.restamped now).abort cause)

theorem passes_timerPass (c : Connection σ) (now : Int) (busy : Bool) :
    Passes c now busy (c.timerPass now busy).1 (c.timerPass now busy).2 := by
  cases hd : c.destroyed with
  | true =>
    rw [timerPass_of_destroyed hd]
    exact .gone hd
  | false =>
    cases hl : c.hasLingered now with
    | true =>
      rw [timerPass_of_hasLingered hd hl]
      exact .lingered hd hl
    | false =>
      cases busy with
      | true =>
        rw [timerPass_of_busy hd hl]
        exact .inUse hd hl rfl
      | false =>
        rcases timerPass_eq hd hl with
          ⟨-, houtcome, hinflight, heq⟩ | ⟨ahead, e, rest, -, -, -, -, heq⟩
        · rw [heq]
          exact .resent hd hl _ (congrArg Inflight.entries hinflight) houtcome
        · rw [heq]
          exact .dead hd hl e.start e.resends _

/-- The outcome says whether the pass has destroyed the connection. -/
theorem destroyed_timerPass (c : Connection σ) (now : Int) (busy : Bool) :
    ((c.timerPass now busy).1.tearsDown = true → c.destroyed = false) ∧
      (c.timerPass now busy).2.destroyed =
        (c.destroyed || (c.timerPass now busy).1.tearsDown) := by
  have hpass := c.passes_timerPass now busy
  generalize (c.timerPass now busy).1 = outcome at hpass ⊢
  generalize (c.timerPass now busy).2 = d at hpass ⊢
  cases hpass with
  | gone hd => simp [TimerOutcome.tearsDown]
  | lingered live => simp [TimerOutcome.tearsDown, live]
  | inUse live => simp [TimerOutcome.tearsDown]
  | resent live _ wires _ houtcome =>
    have hnot : outcome.tearsDown = false := by
      rw [houtcome]
      split <;> rfl
    rw [hnot]
    exact ⟨fun h => (by cases h), (Bool.or_false _).symm⟩
  | dead live => simp [TimerOutcome.tearsDown, live]

theorem id_timerPass (c : Connection σ) (now : Int) (busy : Bool) :
    (c.timerPass now busy).2.id = c.id := id_perform c (.timerPass now busy)

/-- Only a connection that is in use is skipped. -/
theorem timerPass_ne_skipped (c : Connection σ) (now : Int) :
    (c.timerPass now false).1 ≠ .skipped := by
  have hpass := c.passes_timerPass now false
  generalize (c.timerPass now false).2 = d at hpass
  intro hskipped
  rw [hskipped] at hpass
  cases hpass with
  | inUse _ _ hbusy => cases hbusy
  | resent _ _ wires _ houtcome => split at houtcome <;> cases houtcome

/-! ## Connections at rest -/

/-- At `now`, a pass of the timer finds nothing to do. -/
def AtRest (now : Int) (c : Connection σ) : Prop := c.timerPass now false = (.idle, c)

theorem atRest_of_destroyed (hd : c.destroyed = true) (now : Int) : c.AtRest now :=
  timerPass_of_destroyed hd now false

theorem atRest_of_not_overdue (hlinger : c.hasLingered now = false)
    (hentries : c.inflight.entries = .ofList c.inflight.entries.toList)
    (hover : ∀ e ∈ c.inflight.entries.toList, e.isOverdue now c.config = false) :
    c.AtRest now := by
  cases hd : c.destroyed with
  | true => exact atRest_of_destroyed hd now
  | false =>
    have hnone : c.inflight.resendOverdue now c.config = (.resend [], c.inflight) := by
      rw [Inflight.resendOverdue, SentPacket.resendOverdue_of_not_overdue hover]
      simp only
      rw [← hentries]
    unfold AtRest timerPass timerAction
    rw [if_neg (by simp [hd]), if_neg (by simp [hlinger]), if_neg (by simp), hnone]

/-- A pass leaves nothing to do for another one at the same time. -/
theorem atRest_timerPass (c : Connection σ) (now : Int) : (c.timerPass now false).2.AtRest now := by
  have hpass := c.passes_timerPass now false
  generalize (c.timerPass now false).1 = outcome at hpass
  generalize (c.timerPass now false).2 = d at hpass ⊢
  cases hpass with
  | gone hd => exact atRest_of_destroyed hd now
  | lingered => exact atRest_of_destroyed (destroyed_destroy c) now
  | inUse _ _ hbusy => cases hbusy
  | resent live hlinger wires hentries =>
    have hkept : ((c.restamped now).sendAll wires).inflight.entries =
        .ofList (c.inflight.entries.toList.map (·.restamped now c.config)) := hentries
    refine atRest_of_not_overdue hlinger (by rw [hkept, Queue.toList_ofList]) fun e he => ?_
    rw [hkept, Queue.toList_ofList] at he
    obtain ⟨e', -, rfl⟩ := List.mem_map.mp he
    exact e'.isOverdue_restamped now c.config
  | dead => exact atRest_of_destroyed (destroyed_abort _ _) now

/-- If it is closed, it has not lingered long enough. -/
theorem AtRest.hasLingered (h : c.AtRest now) (live : c.destroyed = false) :
    c.hasLingered now = false := by
  cases hlinger : c.hasLingered now with
  | false => rfl
  | true =>
    rw [AtRest, timerPass_of_hasLingered live hlinger] at h
    cases congrArg Prod.fst h

/-- No packet in flight is older than its timeout. -/
theorem AtRest.within_timeout (h : c.AtRest now) (live : c.destroyed = false) :
    ∀ e ∈ c.inflight.entries.toList,
      Instant.elapsed e.sentAt now ≤ c.config.timeoutAfter e.resends := by
  have hidle : (c.timerPass now false).1 = .idle := congrArg Prod.fst h
  rcases timerPass_cases live (h.hasLingered live) with ⟨-, -, -, hresent, -⟩ | ⟨x, -, -, hdead, -⟩
  · rw [hidle] at hresent
    intro e he
    have hover := List.any_eq_false.mp hresent.symm e he
    simpa [SentPacket.isOverdue] using hover
  · rw [hidle] at hdead
    cases hdead

/-! ## How often packets were resent -/

/-- No packet that waits was ever sent, and none in flight was resent more often than is
allowed. -/
structure WithinBudget (c : Connection σ) : Prop where
  waiting : c.outbound.Unresent
  flying : ∀ e ∈ c.inflight.entries.toList, e.resends ≤ c.config.maxResends

namespace WithinBudget

omit [Endpoint σ] in
theorem created (id : Nat) {config : Config} (valid : config.Valid) (endpoint : σ) :
    (Connection.created id config valid endpoint).WithinBudget :=
  ⟨fun p hp => (by cases hp), fun e he => by cases he⟩

omit [Endpoint σ] in
theorem push {s : Segment} {numbering : Numbering} {endpoint : σ} {phase : Phase}
    (h : c.WithinBudget) :
    WithinBudget { c with outbound := c.outbound.push s numbering, endpoint, phase } :=
  ⟨h.waiting.push s numbering, h.flying⟩

omit [Endpoint σ] in
theorem send {p : Packet} {outbound : Outbound} {endpoint : σ} (h : c.WithinBudget)
    (hp : c.outbound.pop? c.inflight c.config.sendWindow = some (p, outbound)) (now : Int) :
    WithinBudget { c with outbound, inflight := (c.inflight.insert p now).2, endpoint } := by
  obtain ⟨hzero, hwaiting⟩ := h.waiting.pop hp
  refine ⟨hwaiting, fun e he => ?_⟩
  simp only [Inflight.insert] at he
  split at he
  · exact h.flying e he
  next entries hplace =>
    rcases SentPacket.mem_of_place? hplace e he with rfl | he
    · show p.resends ≤ c.config.maxResends
      omega
    · exact h.flying e he

omit [Endpoint σ] in
theorem restamp (h : c.WithinBudget) (now : Int) : (c.restamped now).WithinBudget := by
  refine ⟨h.waiting, fun e he => ?_⟩
  have hflying := h.flying
  simp only [Inflight.resendOverdue, Queue.toList_ofList] at he
  rcases SentPacket.resendOverdue_cases now c.config c.inflight.entries.toList with
    ⟨hfine, heq⟩ | ⟨ahead, x, rest, hsplit, hfine, -, -, heq⟩
  · rw [heq] at he
    obtain ⟨e', he', rfl⟩ := List.mem_map.mp he
    exact SentPacket.resends_restamped_le (hflying e' he') (hfine e' he')
  · rw [heq] at he
    rw [hsplit] at hflying
    rcases List.mem_append.mp he with he | he
    · obtain ⟨e', he', rfl⟩ := List.mem_map.mp he
      exact SentPacket.resends_restamped_le (hflying e' (List.mem_append_left _ he')) (hfine e' he')
    · exact hflying e (List.mem_append_right _ he)

omit [Endpoint σ] in
theorem acknowledge (h : c.WithinBudget) (ackno : Nat) (window : UInt16) :
    WithinBudget { c with inflight :=
      ((c.inflight.acknowledge ackno).2.noteWindow ackno window).2 } := by
  refine ⟨h.waiting, fun e he => ?_⟩
  have hkept : ∀ e ∈ (c.inflight.acknowledge ackno).2.entries.toList,
      e.resends ≤ c.config.maxResends := by
    intro e he
    rcases c.inflight.acknowledge_cases ackno with heq | ⟨-, -, bytes, heq⟩
    · rw [heq] at he
      exact h.flying e he
    · rw [heq, Queue.toList_dropWhile] at he
      exact h.flying e ((List.dropWhile_sublist _).subset he)
  generalize (c.inflight.acknowledge ackno).2 = f at hkept he
  simp only [Inflight.noteWindow] at he
  split at he
  · exact hkept e he
  · rw [Queue.toList_modifyHead] at he
    cases hl : f.entries.toList with
    | nil =>
      rw [hl] at he
      cases he
    | cons a l =>
      rw [hl] at he hkept
      rcases List.mem_cons.mp he with rfl | he
      · have := hkept a (.head l)
        show (a.excused ackno window.toNat).resends ≤ c.config.maxResends
        rcases a.resends_excused ackno window.toNat with hzero | hsame
        · omega
        · rwa [hsame]
      · exact hkept e (.tail a he)

theorem destroy (h : c.WithinBudget) : c.destroy.WithinBudget := by
  unfold Connection.destroy
  split
  · exact h
  · exact ⟨fun p hp => (by cases hp), fun e he => by cases he⟩

end WithinBudget

theorem Step.withinBudget (h : Step g c d) (hc : c.WithinBudget) : d.WithinBudget := by
  cases h with
  | queue live hread hne hq =>
    obtain ⟨-, -, -, rfl⟩ := Outbound.queueData_eq_ok hq
    exact hc.push
  | finish live hread hend hq =>
    obtain ⟨-, -, rfl⟩ := Outbound.queueFin_eq_ok hq
    exact hc.push
  | send live hg now hp => exact hc.send hp now
  | restamp live hg now => exact hc.restamp now
  | @acknowledge s => exact hc.acknowledge s.ackno.toNat s.window
  | deliver =>
    obtain ⟨received, endpoint, ackno, window, heq⟩ := c.deliver_eq
    rw [heq]
    exact ⟨hc.waiting, hc.flying⟩
  | destroy => exact hc.destroy
  | _ => exact ⟨hc.waiting, hc.flying⟩

/-! ## Over monitored endpoints -/

variable {c d : Connection (Monitored σ)}

theorem Goes.withinBudget (h : Goes c d) (hc : c.WithinBudget) : d.WithinBudget := by
  induction h with
  | refl => exact hc
  | tail _ hgo ih =>
    cases hgo with
    | step hstep => exact hstep.withinBudget ih
    | abort cause =>
      let g : Grant := { hears := fun _ => True }
      exact (abort_steps (g := g) trivial _ cause).keeps Step.withinBudget ih
    | adjust => exact ⟨ih.waiting, ih.flying⟩

/-- How often the connection has sent something. -/
def sends (c : Connection (Monitored σ)) : Nat := c.endpoint.calls.count .send

theorem sends_destroy (c : Connection (Monitored σ)) : c.destroy.sends = c.sends := by
  unfold destroy
  split
  · rfl
  · show (c.endpoint.calls ++ [Callback.release]).count .send = c.endpoint.calls.count .send
    simp

theorem sends_abort (c : Connection (Monitored σ)) (cause : Error) :
    (c.abort cause).sends = c.sends := by
  unfold abort
  split
  · rfl
  · rw [sends_destroy]
    show (c.endpoint.calls ++ [Callback.reset]).count .send = c.endpoint.calls.count .send
    simp

theorem sends_sendAll (c : Connection (Monitored σ)) (wires : List Bytes) :
    (c.sendAll wires).sends = c.sends + wires.length := by
  induction wires generalizing c with
  | nil => rfl
  | cons w wires ih =>
    have hrest := ih { c with endpoint := (Endpoint.send c.endpoint w).2 }
    have hone : ({ c with endpoint := (Endpoint.send c.endpoint w).2 } :
        Connection (Monitored σ)).sends = c.sends + 1 := by
      show (c.endpoint.calls ++ [Callback.send]).count .send = _
      simp [sends]
    rw [hone] at hrest
    rw [List.length_cons]
    exact hrest.trans (by omega)

/-- The outcome says how often the pass has sent something. -/
theorem sends_timerPass (c : Connection (Monitored σ)) (now : Int) (busy : Bool) :
    (c.timerPass now busy).2.sends = c.sends + (c.timerPass now busy).1.resent := by
  have hpass := c.passes_timerPass now busy
  generalize (c.timerPass now busy).1 = outcome at hpass ⊢
  generalize (c.timerPass now busy).2 = d at hpass ⊢
  cases hpass with
  | gone => rfl
  | lingered => exact sends_destroy c
  | inUse => rfl
  | resent live _ wires _ houtcome =>
    have hcount : outcome.resent = wires.length := by
      rw [houtcome]
      split
      next hnil => rw [hnil]; rfl
      next => rfl
    rw [hcount]
    exact sends_sendAll (c.restamped now) wires
  | dead _ _ _ _ cause => exact sends_abort (c.restamped now) cause

end Connection

end ReliableStream
