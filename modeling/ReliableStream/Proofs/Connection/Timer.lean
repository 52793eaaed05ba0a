import ReliableStream.Proofs.Connection.Step

/-!
# What a pass of the timer does

Either it does not come to the packets in flight (`timerPass_rest_or`), or it resends all that are
overdue, or it gives the connection up because one of them was resent too often (`timerPass_eq`).
What it resends is still to be sent when all else is done (`timerAction_split`).
-/

namespace ReliableStream

def TimerOutcome.hasResent : TimerOutcome → Bool
  | .retransmitted _ => true
  | _ => false

def TimerOutcome.isDead : TimerOutcome → Bool
  | .dead .. => true
  | _ => false

namespace Connection

variable {σ : Type} [Endpoint σ] {c : Connection σ}

/-- When the timer does not come to the packets, it resends none and does not give up. -/
theorem timerPass_rest_or (c : Connection σ) (now : Int) (busy : Bool) :
    (c.timerPass now busy).1.hasResent = false ∧ (c.timerPass now busy).1.isDead = false ∧
        ((c.timerPass now busy).2 = c ∨ (c.timerPass now busy).2 = c.destroy) ∨
      c.destroyed = false ∧ c.hasLingered now = false ∧ busy = false := by
  unfold timerPass timerAction
  cases hd : c.destroyed with
  | true => exact .inl ⟨rfl, rfl, .inl rfl⟩
  | false =>
    cases hl : c.hasLingered now with
    | true => exact .inl ⟨rfl, rfl, .inr rfl⟩
    | false =>
      cases busy with
      | true => exact .inl ⟨rfl, rfl, .inl rfl⟩
      | false => exact .inr ⟨rfl, rfl, rfl⟩

theorem timerPass_of_destroyed (hd : c.destroyed = true) (now : Int) (busy : Bool) :
    c.timerPass now busy = (.idle, c) := by
  unfold timerPass timerAction
  rw [if_pos hd]

theorem timerPass_of_hasLingered {now : Int} (hd : c.destroyed = false)
    (hl : c.hasLingered now = true) (busy : Bool) :
    c.timerPass now busy = (.lingerExpired, c.destroy) := by
  unfold timerPass timerAction
  rw [if_neg (by simp [hd]), if_pos hl]

theorem timerPass_of_busy {now : Int} (hd : c.destroyed = false)
    (hl : c.hasLingered now = false) : c.timerPass now true = (.skipped, c) := by
  unfold timerPass timerAction
  rw [if_neg (by simp [hd]), if_neg (by simp [hl]), if_pos rfl]

/-- What the packets that are overdue say, in order. -/
def overdueWires (c : Connection σ) (now : Int) : List Bytes :=
  (c.inflight.entries.toList.filter (·.isOverdue now c.config)).map (·.wire)

omit [Endpoint σ] in
theorem overdueWires_eq_nil_iff {now : Int} : c.overdueWires now = [] ↔
    c.inflight.entries.toList.any (·.isOverdue now c.config) = false := by
  rw [overdueWires, List.map_eq_nil_iff, List.filter_eq_nil_iff, List.any_eq_false]

/-- When it does come to the packets, all that are overdue are resent, or the first that is overdue
and exhausted ends the connection. -/
theorem timerPass_eq {now : Int} (hd : c.destroyed = false) (hl : c.hasLingered now = false) :
    (∀ x ∈ c.inflight.entries.toList, x.isOverdue now c.config = true →
        x.isExhausted c.config = false) ∧
      (c.timerPass now false).1 = (if c.overdueWires now = [] then .idle
        else .retransmitted (c.overdueWires now).length) ∧
      (c.restamped now).inflight = { c.inflight with
        entries := .ofList (c.inflight.entries.toList.map (·.restamped now c.config)) } ∧
      (c.timerPass now false).2 = (c.restamped now).sendAll (c.overdueWires now) ∨
    ∃ ahead x rest, c.inflight.entries.toList = ahead ++ x :: rest ∧
      (∀ y ∈ ahead, y.isOverdue now c.config = true → y.isExhausted c.config = false) ∧
      x.isOverdue now c.config = true ∧ x.isExhausted c.config = true ∧
      c.timerPass now false = (.dead x.start x.resends,
        (c.restamped now).abort (.peerUnresponsive c.id x.start x.resends)) := by
  unfold restamped timerPass timerAction
  rw [if_neg (by simp [hd]), if_neg (by simp [hl]), if_neg (by simp), Inflight.resendOverdue]
  rcases SentPacket.resendOverdue_cases now c.config c.inflight.entries.toList with
    ⟨hfine, heq⟩ | ⟨ahead, x, rest, hsplit, hfine, hover, hexhausted, heq⟩
  · have hwires : (c.inflight.entries.toList.filter (·.isOverdue now c.config)).map (·.wire) =
        c.overdueWires now := rfl
    rw [heq, hwires]
    refine .inl ⟨hfine, ?_⟩
    cases c.overdueWires now with
    | nil => exact ⟨(if_pos rfl).symm, rfl, rfl⟩
    | cons w wires => exact ⟨(if_neg (List.cons_ne_nil w wires)).symm, rfl, rfl⟩
  · rw [heq]
    exact .inr ⟨ahead, x, rest, hsplit, hfine, hover, hexhausted, rfl⟩

/-- The outcome says which of the two it was, and whether something was resent. -/
theorem timerPass_cases {now : Int} (hd : c.destroyed = false) (hl : c.hasLingered now = false) :
    ((∀ x ∈ c.inflight.entries.toList, x.isOverdue now c.config = true →
        x.isExhausted c.config = false) ∧
      ∃ endpoint, (c.timerPass now false).1.isDead = false ∧
        (c.timerPass now false).1.hasResent =
          c.inflight.entries.toList.any (·.isOverdue now c.config) ∧
        (c.timerPass now false).2 = { c with
          inflight := { c.inflight with
            entries := .ofList (c.inflight.entries.toList.map (·.restamped now c.config)) }
          endpoint }) ∨
      ∃ x ∈ c.inflight.entries.toList, x.isExhausted c.config = true ∧
        (c.timerPass now false).1 = .dead x.start x.resends ∧
        (c.timerPass now false).2.destroyed = true := by
  rcases timerPass_eq hd hl with
    ⟨hfine, houtcome, hinflight, heq⟩ | ⟨ahead, x, rest, hsplit, -, -, hexhausted, heq⟩
  · refine .inl ⟨hfine, ((c.restamped now).sendAll (c.overdueWires now)).endpoint, ?_⟩
    rw [houtcome, heq, ← hinflight]
    split
    next hnil => exact ⟨rfl, (overdueWires_eq_nil_iff.mp hnil).symm, rfl⟩
    next hsome =>
      rw [overdueWires_eq_nil_iff, Bool.not_eq_false] at hsome
      exact ⟨rfl, hsome.symm, rfl⟩
  · rw [heq]
    exact .inr ⟨x, by simp [hsplit], hexhausted, rfl, destroyed_abort _ _⟩

/-- Either the decision leaves nothing to be sent, or the connection is there and has been
restamped. -/
theorem timerAction_split (c : Connection σ) (now : Int) :
    (∃ outcome d, c.timerAction now false = (.done outcome, d) ∧ outcome.hasResent = false) ∨
      ∃ wires, c.timerAction now false = (.resend wires, c.restamped now) ∧
        c.destroyed = false ∧ c.hasLingered now = false := by
  unfold timerAction
  by_cases hd : c.destroyed = true
  · rw [if_pos hd]
    exact .inl ⟨_, _, rfl, rfl⟩
  rw [if_neg hd]
  by_cases hl : c.hasLingered now = true
  · rw [if_pos hl]
    exact .inl ⟨_, _, rfl, rfl⟩
  rw [if_neg hl, if_neg (by simp)]
  unfold restamped
  generalize c.inflight.resendOverdue now c.config = r
  obtain ⟨overdue, inflight⟩ := r
  cases overdue with
  | exhausted seqno resends => exact .inl ⟨_, _, rfl, rfl⟩
  | resend wires =>
    cases wires with
    | nil => exact .inl ⟨_, _, rfl, rfl⟩
    | cons w wires => exact .inr ⟨_, rfl, by simpa using hd, by simpa using hl⟩

end Connection

end ReliableStream
