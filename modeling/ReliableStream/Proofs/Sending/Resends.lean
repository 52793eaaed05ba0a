import ReliableStream.Proofs.Sending.Conveys

/-!
# How often packets are resent

No packet that waits was ever resent (`Outbound.Unresent`). While an answer of the peer is `owed`,
the oldest packet in flight may have been resent. `Fresh owed` says that no other packet was.
Whatever is queued, sent and acknowledged keeps it so. An answer that closes the window excuses the
oldest packet, and then none is owed any more (`Fresh.noteClosed`).
-/

namespace ReliableStream

variable {o out : Outbound} {f : Inflight} {p : Packet} {e : SentPacket} {config : Config}
  {now later : Int} {owed : Bool}

namespace SentPacket

theorem isOverdue_mono (h : e.isOverdue now config = true) (hle : now ≤ later) :
    e.isOverdue later config = true := by
  unfold isOverdue Instant.elapsed at h ⊢
  rw [decide_eq_true_eq] at h ⊢
  omega

/-- Sooner or later all packets are overdue. -/
theorem exists_overdue (config : Config) (l : List SentPacket) :
    ∃ now, ∀ e ∈ l, e.isOverdue now config = true := by
  induction l with
  | nil => exact ⟨0, fun e he => by cases he⟩
  | cons a l ih =>
    obtain ⟨now, hnow⟩ := ih
    let late : Int := a.sentAt + config.timeoutAfter a.resends + 1
    have hlate : a.isOverdue late config = true := by
      unfold isOverdue Instant.elapsed
      rw [decide_eq_true_eq]
      omega
    refine ⟨max now late, fun e he => ?_⟩
    rcases List.mem_cons.mp he with rfl | he
    · exact isOverdue_mono hlate (Int.le_max_right now late)
    · exact isOverdue_mono (hnow e he) (Int.le_max_left now late)

theorem restamped_of_not_overdue (h : e.isOverdue now config = false) :
    e.restamped now config = e := by
  unfold restamped
  rw [if_neg (by simp [h])]

theorem restamped_of_overdue (h : e.isOverdue now config = true) :
    e.restamped now config = e.resent now := if_pos h

/-- An acknowledgment may excuse a packet, and does nothing else about its resends. -/
theorem resends_excused (e : SentPacket) (ackno window : Nat) :
    (e.excused ackno window).resends = 0 ∨ e.excused ackno window = e := by
  unfold excused
  simp only
  split
  · exact .inl rfl
  · exact .inr rfl

/-- A closed window holds back every packet that is not acknowledged. -/
theorem resends_excused_closed {ackno : Nat} (hpos : e.start < e.stop) (hlt : ackno < e.stop)
    (hle : e.stop ≤ lastPosition) : (e.excused ackno 0).resends = 0 := by
  have hstop : e.segment.wrappedStop = e.stop := by
    unfold lastPosition at hle
    exact Nat.mod_eq_of_lt (show e.stop < 0x100000000 by omega)
  unfold excused
  simp only
  rw [hstop, if_pos]
  right
  omega

end SentPacket

/-- No packet that waits was ever resent. -/
def Outbound.Unresent (o : Outbound) : Prop := ∀ p ∈ o.queue.toList, p.resends = 0

namespace Outbound.Unresent

theorem push (h : o.Unresent) (s : Segment) (m : Numbering) : (o.push s m).Unresent := by
  intro p hp
  rw [Outbound.push, Queue.toList_push] at hp
  rcases List.mem_append.mp hp with hp | hp
  · exact h p hp
  · obtain rfl := List.mem_singleton.mp hp
    rfl

theorem pop {sendWindow : Nat} (h : o.Unresent) (hp : o.pop? f sendWindow = some (p, out)) :
    p.resends = 0 ∧ out.Unresent := by
  have hall : ∀ x ∈ p :: out.queue.toList, x.resends = 0 := by
    rw [← Outbound.queue_of_pop? hp]
    exact h
  exact List.forall_mem_cons.mp hall

end Outbound.Unresent

/-- No packet was resent, apart from the oldest in flight while an answer is `owed`. -/
structure Fresh (owed : Bool) (o : Outbound) (f : Inflight) : Prop where
  waiting : o.Unresent
  flying : ∀ e ∈ f.entries.toList.drop owed.toNat, e.resends = 0

namespace Fresh

theorem push (h : Fresh owed o f) (s : Segment) (m : Numbering) : Fresh owed (o.push s m) f :=
  ⟨h.waiting.push s m, h.flying⟩

/-- A packet that is sent for the first time comes behind the others. -/
theorem pop {sendWindow : Nat} (h : Fresh owed o f) (hp : o.pop? f sendWindow = some (p, out))
    (hi : (f.insert p now).2.entries = f.entries.push { p with sentAt := now }) :
    Fresh owed out (f.insert p now).2 := by
  obtain ⟨hzero, hwaiting⟩ := h.waiting.pop hp
  refine ⟨hwaiting, fun e he => ?_⟩
  rw [hi, Queue.toList_push, List.drop_append] at he
  rcases List.mem_append.mp he with he | he
  · exact h.flying e he
  · obtain rfl := List.mem_singleton.mp (List.mem_of_mem_drop he)
    exact hzero

theorem acknowledge (h : Fresh owed o f) (ackno : Nat) : Fresh owed o (f.acknowledge ackno).2 := by
  rcases f.acknowledge_cases ackno with heq | ⟨-, -, bytes, heq⟩
  · rw [heq]
    exact h
  · rw [heq]
    refine ⟨h.waiting, fun e he => h.flying e ?_⟩
    rw [Queue.toList_dropWhile] at he
    exact ((List.dropWhile_sublist _).drop owed.toNat).subset he

/-- The oldest packet in flight may be excused, the others stay as they are. -/
theorem noteWindow (h : Fresh owed o f) (ackno : Nat) (window : UInt16) :
    Fresh owed o (f.noteWindow ackno window).2 := by
  unfold Inflight.noteWindow
  split
  · exact h
  · refine ⟨h.waiting, fun e he => ?_⟩
    have hflying := h.flying
    simp only [Queue.toList_modifyHead] at he
    cases hl : f.entries.toList with
    | nil =>
      rw [hl] at he
      cases owed <;> cases he
    | cons a l =>
      rw [hl] at he hflying
      cases owed with
      | true => exact hflying e he
      | false =>
        rcases List.mem_cons.mp he with rfl | he
        · rcases a.resends_excused ackno window.toNat with hzero | hsame
          · exact hzero
          · simp only [hsame]
            exact hflying a (.head l)
        · exact hflying e (.tail a he)

/-- The answer that closes the window is the one that was owed. -/
theorem noteClosed {t : Source} (h : Fresh owed o f) (hconveys : Conveys t o f)
    (hcounts : Counts t o f) : Fresh false o (f.noteWindow f.acked 0).2 := by
  have hacked := hcounts.acked_le
  refine ⟨h.waiting, fun e he => ?_⟩
  have hflying := h.flying
  unfold Inflight.noteWindow at he
  rw [if_neg (by omega)] at he
  simp only [Queue.toList_modifyHead] at he
  cases hl : f.entries.toList with
  | nil =>
    rw [hl] at he
    cases he
  | cons a l =>
    have ha : a ∈ f.entries.toList := by
      rw [hl]
      exact .head l
    have hle : a.stop ≤ lastPosition := Nat.le_trans (hconveys.stop_le_sent ha)
      (Nat.le_trans hcounts.sent_le hcounts.next_le)
    rw [hl] at he hflying
    rcases List.mem_cons.mp he with rfl | he
    · exact SentPacket.resends_excused_closed
        (Conveys.start_lt_stop (hconveys.speaks.flying a ha).2.2) (hconveys.unacked a ha) hle
    · cases owed with
      | true => exact hflying e he
      | false => exact hflying e (.tail a he)

end Fresh

end ReliableStream
