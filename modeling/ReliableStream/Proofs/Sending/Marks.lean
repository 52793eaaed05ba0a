import ReliableStream.Proofs.Sending.Conveys

/-!
# The history of packets

A `Mark` says that a packet was sent for the first time, was resent or was excused, and a log is a
list of marks, the latest first. What a packet in flight knows of itself, how often it was resent
and when it was sent last, can be read from the log instead: then it is `Recalled`.

* `Mark.resends`, `Mark.lastSent?`, `Mark.isDue`, `Mark.isSpent`: what a log says of a packet.
* `Consistent`: a packet is first sent once, and what was resent was due then.
* `recalled_first`, `recalled_resendMarks`, `recalled_noteWindow`: what is done with packets and
  what is noted about it agree.
-/

namespace ReliableStream

/-- What happened to the packet with these bytes. -/
inductive Mark where
  /-- It was sent for the first time. -/
  | first (wire : Bytes) (time : Int)
  /-- It was resent. -/
  | again (wire : Bytes) (time : Int)
  /-- It was excused. -/
  | excuse (wire : Bytes)
  deriving DecidableEq

namespace Mark

def wire : Mark → Bytes
  | first w _ | again w _ | excuse w => w

/-- How often the packet was resent since it was first sent, or excused if that was later. -/
def resends (wire : Bytes) : List Mark → Nat
  | [] => 0
  | .again w _ :: log => if w = wire then resends wire log + 1 else resends wire log
  | .first w _ :: log | .excuse w :: log => if w = wire then 0 else resends wire log

/-- When the packet was sent last. -/
def lastSent? (wire : Bytes) : List Mark → Option Int
  | [] => none
  | .first w time :: log | .again w time :: log =>
    if w = wire then some time else lastSent? wire log
  | .excuse _ :: log => lastSent? wire log

/-- The packet was sent longer ago than its timeout. -/
def isDue (config : Config) (log : List Mark) (wire : Bytes) (now : Int) : Bool :=
  (lastSent? wire log).any fun last =>
    decide ((config.timeoutAfter (resends wire log) : Int) < now - last)

/-- The packet is due, and was resent as often as is allowed. -/
def isSpent (config : Config) (log : List Mark) (wire : Bytes) (now : Int) : Bool :=
  isDue config log wire now && resends wire log == config.maxResends

variable {w : Bytes} {m : Mark} {log : List Mark}

theorem resends_cons_of_ne (h : m.wire ≠ w) : resends w (m :: log) = resends w log := by
  cases m with
  | first | again | excuse => exact if_neg h

theorem lastSent?_cons_of_ne (h : m.wire ≠ w) : lastSent? w (m :: log) = lastSent? w log := by
  cases m with
  | first | again => exact if_neg h
  | excuse => rfl

end Mark

/-- The mark can come after those that were made before: a packet is first sent once, and is resent
when it is due. -/
def Mark.Follows (config : Config) (before : List Mark) : Mark → Prop
  | .first w _ => ∀ m ∈ before, m.wire ≠ w
  | .again w time => isDue config before w time = true
  | .excuse _ => True

/-- Each mark follows those before it. -/
def Consistent (config : Config) (log : List Mark) : Prop :=
  ∀ m before, m :: before <:+ log → m.Follows config before

variable {config : Config} {log : List Mark} {m : Mark} {now : Int} {l : List SentPacket}

theorem consistent_nil (config : Config) : Consistent config [] := by
  intro m before h
  cases List.suffix_nil.mp h

theorem Consistent.cons (h : Consistent config log) (hm : m.Follows config log) :
    Consistent config (m :: log) := by
  intro x before hsuffix
  rcases List.suffix_cons_iff.mp hsuffix with heq | hearlier
  · obtain ⟨rfl, rfl⟩ := List.cons.inj heq
    exact hm
  · exact h x before hearlier

namespace SentPacket

variable {e : SentPacket}

/-- What the packet knows of itself is what the log says. -/
structure Recalled (log : List Mark) (e : SentPacket) : Prop where
  resends_eq : Mark.resends e.wire log = e.resends
  lastSent_eq : Mark.lastSent? e.wire log = some e.sentAt

namespace Recalled

/-- What happens to other packets is of no concern. -/
theorem cons_of_ne (h : e.Recalled log) (hne : m.wire ≠ e.wire) : e.Recalled (m :: log) :=
  ⟨(Mark.resends_cons_of_ne hne).trans h.resends_eq,
    (Mark.lastSent?_cons_of_ne hne).trans h.lastSent_eq⟩

theorem append_of_ne {new : List Mark} (h : e.Recalled log) (hne : ∀ m ∈ new, m.wire ≠ e.wire) :
    e.Recalled (new ++ log) := by
  induction new with
  | nil => exact h
  | cons m new ih =>
    exact (ih fun x hx => hne x (.tail m hx)).cons_of_ne (hne m (.head new))

theorem resent (h : e.Recalled log) (now : Int) :
    (e.resent now).Recalled (.again e.wire now :: log) where
  resends_eq := by
    show (if e.wire = e.wire then Mark.resends e.wire log + 1 else _) = e.resends + 1
    rw [if_pos rfl, h.resends_eq]
  lastSent_eq := if_pos rfl

theorem excused (h : e.Recalled log) :
    Recalled (.excuse e.wire :: log) { e with resends := 0 } where
  resends_eq := if_pos rfl
  lastSent_eq := h.lastSent_eq

/-- The packet is overdue if it is due. -/
theorem isDue_eq (h : e.Recalled log) (config : Config) (now : Int) :
    Mark.isDue config log e.wire now = e.isOverdue now config := by
  unfold Mark.isDue isOverdue Instant.elapsed
  rw [h.lastSent_eq, h.resends_eq, Option.any_some]
  exact decide_eq_decide.mpr (by omega)

theorem isSpent_eq (h : e.Recalled log) (hle : e.resends ≤ config.maxResends) (now : Int) :
    Mark.isSpent config log e.wire now = (e.isOverdue now config && e.isExhausted config) := by
  have hmax : (e.resends == config.maxResends) = e.isExhausted config := by
    unfold isExhausted
    rw [beq_eq_decide]
    exact decide_eq_decide.mpr (by omega)
  rw [Mark.isSpent, h.isDue_eq, h.resends_eq, hmax]

end Recalled

theorem recalled_first (h : e.resends = 0) (log : List Mark) :
    e.Recalled (.first e.wire e.sentAt :: log) where
  resends_eq := (if_pos rfl).trans h.symm
  lastSent_eq := if_pos rfl

/-! ## Passes of the timer -/

@[simp] theorem wire_restamped (now : Int) (config : Config) (e : SentPacket) :
    (e.restamped now config).wire = e.wire :=
  congrArg Prod.snd (content_restamped now config e)

/-- What is noted when the overdue packets are resent. -/
def resendMarks (now : Int) (config : Config) (l : List SentPacket) : List Mark :=
  (((l.filter (·.isOverdue now config)).map (·.wire)).map (.again · now)).reverse

/-- What is noted of the first packet comes before the rest. -/
theorem resendMarks_cons (e : SentPacket) (l : List SentPacket) (log : List Mark) :
    resendMarks now config (e :: l) ++ log = resendMarks now config l ++
      if e.isOverdue now config = true then .again e.wire now :: log else log := by
  unfold resendMarks
  rw [List.filter_cons]
  split
  next hover => simp
  next hover => rfl

theorem exists_of_mem_resendMarks (h : m ∈ resendMarks now config l) :
    ∃ e ∈ l, m = .again e.wire now := by
  unfold resendMarks at h
  rw [List.mem_reverse, List.map_map] at h
  obtain ⟨e, he, rfl⟩ := List.mem_map.mp h
  exact ⟨e, (List.mem_filter.mp he).1, rfl⟩

theorem Recalled.restamped (h : e.Recalled log) (now : Int) (config : Config) :
    (e.restamped now config).Recalled
      (if e.isOverdue now config = true then .again e.wire now :: log else log) := by
  unfold SentPacket.restamped
  split
  · exact h.resent now
  · exact h

theorem Recalled.of_restamped_ne {x : SentPacket} (h : x.Recalled log) (hne : e.wire ≠ x.wire) :
    x.Recalled (if e.isOverdue now config = true then .again e.wire now :: log else log) := by
  split
  · exact h.cons_of_ne hne
  · exact h

/-- A pass resends packet after packet, each of which was due and remembers that it was resent. -/
theorem recalled_resendMarks (hapart : l.Pairwise fun x y => x.wire ≠ y.wire)
    (h : ∀ e ∈ l, e.Recalled log) (hlog : Consistent config log) (now : Int) :
    (∀ e ∈ l.map (·.restamped now config), e.Recalled (resendMarks now config l ++ log)) ∧
      Consistent config (resendMarks now config l ++ log) := by
  induction l generalizing log with
  | nil => exact ⟨fun e he => (by cases he), hlog⟩
  | cons a l ih =>
    obtain ⟨hne, hapart'⟩ := List.pairwise_cons.mp hapart
    have ha := h a (.head l)
    have hlog' : Consistent config
        (if a.isOverdue now config = true then .again a.wire now :: log else log) := by
      split
      next hover => exact hlog.cons ((ha.isDue_eq config now).trans hover)
      next => exact hlog
    have hrest := ih hapart' (fun e he => (h e (.tail a he)).of_restamped_ne (hne e he)) hlog'
    rw [resendMarks_cons]
    refine ⟨fun e he => ?_, hrest.2⟩
    rcases List.mem_cons.mp he with rfl | he
    · refine (ha.restamped now config).append_of_ne fun m hm => ?_
      obtain ⟨x, hx, rfl⟩ := exists_of_mem_resendMarks hm
      rw [wire_restamped]
      exact (hne x hx).symm
    · exact hrest.1 e he

/-! ## Acknowledgments -/

/-- The acknowledgment shows that the peer is there and that its window holds the packet back. -/
def isExcusedBy (e : SentPacket) (ackno window : Nat) : Bool :=
  e.start < ackno || window < e.segment.wrappedStop - max ackno e.start

theorem excused_eq (e : SentPacket) (ackno window : Nat) :
    e.excused ackno window = if e.isExcusedBy ackno window then { e with resends := 0 } else e := by
  unfold excused isExcusedBy
  simp

end SentPacket

namespace Inflight

variable {f : Inflight} {ackno : Nat} {window : UInt16}

/-- The packet that is excused when this acknowledgment is taken note of. -/
def excuses? (f : Inflight) (ackno : Nat) (window : UInt16) : Option Bytes :=
  if ackno < f.acked ∨ f.sent < ackno then none
  else (f.entries.toList.head?.filter (·.isExcusedBy ackno window.toNat)).map (·.wire)

/-- The oldest packet remembers that it was excused. -/
theorem recalled_noteWindow (hapart : f.entries.toList.Pairwise fun x y => x.wire ≠ y.wire)
    (h : ∀ e ∈ f.entries.toList, e.Recalled log) (ackno : Nat) (window : UInt16) :
    ∀ e ∈ (f.noteWindow ackno window).2.entries.toList,
      e.Recalled ((f.excuses? ackno window).toList.map .excuse ++ log) := by
  unfold noteWindow excuses?
  split
  · exact h
  · simp only [Queue.toList_modifyHead]
    cases hl : f.entries.toList with
    | nil => exact fun e he => by cases he
    | cons a l =>
      rw [hl] at h hapart
      obtain ⟨hne, -⟩ := List.pairwise_cons.mp hapart
      rw [List.modifyHead_cons, SentPacket.excused_eq, List.head?_cons, Option.filter_some]
      split
      next hexcused =>
        intro e he
        rcases List.mem_cons.mp he with rfl | he
        · exact (h a (.head l)).excused
        · exact (h e (.tail a he)).cons_of_ne (hne e he)
      next => exact h

theorem exists_of_excuses? {w : Bytes} (h : f.excuses? ackno window = some w) :
    ∃ e ∈ f.entries.toList, e.wire = w := by
  unfold excuses? at h
  split at h
  · cases h
  · obtain ⟨e, he, rfl⟩ := Option.map_eq_some_iff.mp h
    exact ⟨e, List.mem_of_head? (Option.filter_eq_some_iff.mp he).1, rfl⟩

end Inflight

/-! ## Telling packets apart -/

/-- A sound segment is known by its bytes. -/
theorem Segment.Sound.eq_of_encode_eq {s t : Segment} (hs : s.Sound) (ht : t.Sound)
    (h : s.encode = t.encode) : s = t := by
  have hread := Segment.decode_encode hs
  rw [h, Segment.decode_encode ht] at hread
  exact (Except.ok.inj hread).symm

namespace Conveys

variable {t : Source} {o out : Outbound} {f : Inflight}

/-- The packets in flight are in order, and no two of them have the same bytes. -/
theorem apart (h : Conveys t o f) :
    f.entries.toList.Pairwise fun x y => x.start < y.start ∧ x.wire ≠ y.wire := by
  obtain ⟨lo, -, hflying⟩ := h.flying
  have hpos : ∀ e ∈ f.entries.toList, e.start < e.stop := fun e he =>
    start_lt_stop (h.speaks.flying e he).2.2
  refine (hflying.pairwise fun e he => Nat.le_of_lt (hpos e he)).imp_of_mem ?_
  intro x y hx hy hle
  have hlt : x.start < y.start := Nat.lt_of_lt_of_le (hpos x hx) hle
  refine ⟨hlt, fun heq => ?_⟩
  obtain ⟨hxwire, hxsound, -⟩ := h.speaks.flying x hx
  obtain ⟨hywire, hysound, -⟩ := h.speaks.flying y hy
  rw [hxwire, hywire] at heq
  have hsame : x.start = y.start := congrArg Segment.start (hxsound.eq_of_encode_eq hysound heq)
  omega

/-- The packet that is sent next begins where the last one ended. -/
theorem pop_start {sendWindow : Nat} {p : Packet} (h : Conveys t o f)
    (hp : o.pop? f sendWindow = some (p, out)) : p.start = f.sent := by
  have hwaiting := h.waiting
  rw [Outbound.queue_of_pop? hp] at hwaiting
  exact hwaiting.1

end Conveys

end ReliableStream
