import Mathlib.Data.List.TakeDrop
import Mathlib.Data.List.TakeWhile
import ReliableStream.Sending.Outbound

/-!
# What happens to packets in flight

What a packet brings to the peer, its `content`, never changes. Packets enter in order
(`place?_of_lt`), are restamped or excused where they are (`map_content_resendOverdue`,
`map_content_noteWindow`), and leave from the front when they are acknowledged
(`acknowledge_cases`). What the peer says of itself is believed if it can be true
(`believed_noted`).
-/

namespace ReliableStream

namespace SentPacket

variable {e : SentPacket} {l : List SentPacket} {q r : Queue SentPacket} {now : Int}
  {config : Config}

/-- What the packet brings to the peer. -/
def content (e : SentPacket) : Segment × Bytes := (e.segment, e.wire)

@[simp] theorem content_excused (e : SentPacket) (ackno window : Nat) :
    (e.excused ackno window).content = e.content := by
  unfold excused
  simp only
  split <;> rfl

@[simp] theorem content_resent (e : SentPacket) (now : Int) : (e.resent now).content = e.content :=
  rfl

/-- Where the packets bring the same to the peer, each has its counterpart. -/
theorem exists_of_content {m : List SentPacket} (h : m.map content = l.map content) (he : e ∈ m) :
    ∃ e' ∈ l, e'.segment = e.segment ∧ e'.wire = e.wire := by
  have hmem := List.mem_map_of_mem (f := content) he
  rw [h] at hmem
  obtain ⟨e', he', heq⟩ := List.mem_map.mp hmem
  exact ⟨e', he', Prod.mk.inj heq⟩

/-! ## Placing -/

theorem mem_insertInto {x : SentPacket} (h : x ∈ e.insertInto l) : x = e ∨ x ∈ l := by
  induction l with
  | nil => exact .inl (List.mem_singleton.mp h)
  | cons f rest ih =>
    unfold insertInto at h
    split at h
    · exact List.mem_cons.mp h
    · rcases List.mem_cons.mp h with rfl | h
      · exact .inr (.head rest)
      · exact (ih h).imp_right (.tail f)

theorem mem_of_place? (h : e.place? q = some r) : ∀ x ∈ r.toList, x = e ∨ x ∈ q.toList := by
  intro x hx
  unfold place? at h
  split at h
  · obtain rfl := Option.some.inj h
    rw [Queue.toList_push] at hx
    simpa [or_comm] using hx
  · split at h
    · cases h
    · obtain rfl := Option.some.inj h
      exact mem_insertInto hx

/-- A packet that comes after all others is placed at the end. -/
theorem place?_of_lt (h : ∀ x ∈ q.toList, x.start < e.start) : e.place? q = some (q.push e) := by
  unfold place?
  rw [if_pos]
  rw [Queue.last?_eq]
  cases hlast : q.toList.getLast? with
  | none => rfl
  | some x => simpa using h x (List.mem_of_getLast? hlast)

/-! ## Resending -/

/-- The packet after a pass that does not give up on it. -/
def restamped (now : Int) (config : Config) (e : SentPacket) : SentPacket :=
  if e.isOverdue now config then e.resent now else e

@[simp] theorem content_restamped (now : Int) (config : Config) (e : SentPacket) :
    (e.restamped now config).content = e.content := by
  unfold restamped
  split <;> rfl

/-- Either no packet is both overdue and exhausted, and all that are overdue are resent, or the
first that is both ends the pass. -/
theorem resendOverdue_cases (now : Int) (config : Config) (l : List SentPacket) :
    ((∀ e ∈ l, e.isOverdue now config = true → e.isExhausted config = false) ∧
        resendOverdue now config l =
          (.resend ((l.filter (·.isOverdue now config)).map (·.wire)),
            l.map (·.restamped now config))) ∨
      ∃ ahead e rest, l = ahead ++ e :: rest ∧
        (∀ x ∈ ahead, x.isOverdue now config = true → x.isExhausted config = false) ∧
        e.isOverdue now config = true ∧ e.isExhausted config = true ∧
        resendOverdue now config l =
          (.exhausted e.start e.resends, ahead.map (·.restamped now config) ++ e :: rest) := by
  let fine : SentPacket → Bool := fun e => !(e.isOverdue now config && e.isExhausted config)
  have hsplit := List.takeWhile_append_dropWhile (p := fine) (l := l)
  have hspan : l.span fine = (l.takeWhile fine, l.dropWhile fine) :=
    List.span_eq_takeWhile_dropWhile fine l
  have hfine : ∀ e ∈ l.takeWhile fine, e.isOverdue now config = true →
      e.isExhausted config = false := by
    intro e he hover
    have := List.mem_takeWhile_imp he
    simpa [fine, hover] using this
  unfold resendOverdue
  rw [hspan]
  cases hrest : l.dropWhile fine with
  | nil =>
    rw [hrest, List.append_nil] at hsplit
    rw [hsplit] at hfine
    exact .inl ⟨hfine, by rw [hsplit]; rfl⟩
  | cons e rest =>
    rw [hrest] at hsplit
    have hhead := List.head?_dropWhile_not fine l
    rw [hrest] at hhead
    simp only [List.head?_cons, fine, Bool.not_eq_false', Bool.and_eq_true] at hhead
    exact .inr ⟨_, e, rest, hsplit.symm, hfine, hhead.1, hhead.2, rfl⟩

theorem map_content_resendOverdue (now : Int) (config : Config) (l : List SentPacket) :
    (resendOverdue now config l).2.map content = l.map content := by
  rcases resendOverdue_cases now config l with ⟨-, heq⟩ | ⟨ahead, e, rest, rfl, -, -, -, heq⟩
  · rw [heq, List.map_map]
    exact List.map_congr_left fun e _ => content_restamped now config e
  · rw [heq, List.map_append, List.map_append, List.map_map]
    congr 1
    exact List.map_congr_left fun e _ => content_restamped now config e

/-- What is resent is in flight. -/
theorem mem_of_resendOverdue {wires : List Bytes}
    (h : (resendOverdue now config l).1 = .resend wires) :
    ∀ w ∈ wires, ∃ e ∈ l, e.wire = w := by
  intro w hw
  rcases resendOverdue_cases now config l with ⟨-, heq⟩ | ⟨ahead, e, rest, rfl, -, -, -, heq⟩
  · rw [heq] at h
    obtain rfl := Overdue.resend.inj h
    obtain ⟨e, he, rfl⟩ := List.mem_map.mp hw
    exact ⟨e, (List.mem_filter.mp he).1, rfl⟩
  · rw [heq] at h
    cases h

end SentPacket

namespace Inflight

variable {f : Inflight} {ackno : Nat}

/-- An acknowledgment is of no use, or retires the packets that it covers. -/
theorem acknowledge_cases (f : Inflight) (ackno : Nat) :
    (f.acknowledge ackno).2 = f ∨
      f.acked < ackno ∧ ackno ≤ f.sent ∧ ∃ bytes, (f.acknowledge ackno).2 =
        { f with entries := f.entries.dropWhile (·.stop ≤ ackno), bytes, acked := ackno } := by
  unfold acknowledge
  split
  · exact .inl rfl
  next hsent =>
    split
    · exact .inl rfl
    next hacked => exact .inr ⟨by omega, by omega, _, rfl⟩

theorem acked_acknowledge (f : Inflight) (hnew : f.acked < ackno) (hsent : ackno ≤ f.sent) :
    (f.acknowledge ackno).2.acked = ackno := by
  unfold acknowledge
  rw [if_neg (by omega), if_neg (by omega)]

/-- An acknowledgment that retires nothing changes nothing. -/
theorem acknowledge_eq_self (f : Inflight) (ackno : Nat)
    (h : ∀ retired freed, (f.acknowledge ackno).1 ≠ .advanced retired freed) :
    (f.acknowledge ackno).2 = f := by
  unfold acknowledge at h ⊢
  split at h
  next hbeyond => rw [if_pos hbeyond]
  next hsent =>
    rw [if_neg hsent]
    split at h
    next hstale => rw [if_pos hstale]
    next => exact absurd rfl (h _ _)

/-- The positions that the two ends have reached are not in question when the window changes. -/
@[simp] theorem acked_noteWindow (f : Inflight) (ackno : Nat) (window : UInt16) :
    (f.noteWindow ackno window).2.acked = f.acked := by
  unfold noteWindow
  split <;> rfl

@[simp] theorem sent_noteWindow (f : Inflight) (ackno : Nat) (window : UInt16) :
    (f.noteWindow ackno window).2.sent = f.sent := by
  unfold noteWindow
  split <;> rfl

theorem map_content_noteWindow (f : Inflight) (ackno : Nat) (window : UInt16) :
    (f.noteWindow ackno window).2.entries.toList.map SentPacket.content =
      f.entries.toList.map SentPacket.content := by
  unfold noteWindow
  split
  · rfl
  · simp only [Queue.toList_modifyHead]
    cases f.entries.toList with
    | nil => rfl
    | cons e rest => simp

/-! ## What the peer has said -/

/-- The position that the peer expects next, and its window, as far as we know. -/
def believed (f : Inflight) : Nat × Nat := (f.acked, f.peerWindow)

/-- An acknowledgment and the window that comes with it are believed if it is not outdated and
acknowledges what was sent. -/
theorem believed_noted (f : Inflight) (ackno : Nat) (window : UInt16) :
    ((f.acknowledge ackno).2.noteWindow ackno window).2.believed =
      if f.acked ≤ ackno ∧ ackno ≤ f.sent then (ackno, window.toNat) else f.believed := by
  unfold acknowledge
  split
  next hbeyond =>
    unfold noteWindow
    rw [if_pos (.inr hbeyond), if_neg (by omega)]
  next hsent =>
    split
    next hstale =>
      unfold noteWindow
      simp only
      split
      next hold => rw [if_neg (by omega)]
      next hnew =>
        have heq : f.acked = ackno := by omega
        rw [if_pos (by omega)]
        simp only [believed, heq]
    next hnew =>
      unfold noteWindow
      rw [if_neg (by simp only; omega), if_pos (by omega)]
      rfl

@[simp] theorem believed_insert (f : Inflight) (p : Packet) (now : Int) :
    (f.insert p now).2.believed = f.believed := by
  unfold insert
  split <;> rfl

end Inflight

end ReliableStream
