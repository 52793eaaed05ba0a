import ReliableStream.Proofs.Sending.Inflight
import ReliableStream.Proofs.Sending.Source
import ReliableStream.Proofs.Tiling

/-!
# What the sending end holds

* `Speaks P`: the packets that wait and those in flight are encoded segments that satisfy `P`.
* `Counts t`: the numbering agrees with the source `t`, and what is acknowledged was sent, and what
  was sent was numbered.
* `Conveys t`: every position from the acknowledged one on lies in a packet in flight, up to what
  was sent, or in one that waits, up to what was numbered, all of them carry what the source has
  there, and none of those in flight is acknowledged.

Each operation on the queue and on the packets in flight has one lemma about each of the three.
-/

namespace ReliableStream

variable {P Q : Segment → Prop} {t : Source} {o out : Outbound} {f g : Inflight}
  {payload : Bytes} {ackno : UInt32} {n sendWindow : Nat} {p : Packet} {now : Int}

/-! ## Numbering -/

theorem Numbering.start_segment {m : Numbering} (h : m.next ≤ lastPosition) (ackno : UInt32)
    (flags : Flags) (payload : Bytes) : (m.segment ackno flags payload).start = m.next := by
  unfold lastPosition at h
  simp only [Segment.start, segment, Segment.sealed, UInt32.toNat_ofNat']
  omega

theorem Numbering.span_data (m : Numbering) (ackno : UInt32) (payload : Bytes) :
    (m.segment ackno .ack payload).hasFin = false ∧
      (m.segment ackno .ack payload).span = payload.length := by
  have hf : (m.segment ackno .ack payload).hasFin = false :=
    show Flags.ack.contains .fin = _ by decide
  refine ⟨hf, ?_⟩
  rw [Segment.span, hf]
  rfl

theorem Numbering.span_fin (m : Numbering) (ackno : UInt32) :
    (m.segment ackno (.ack ||| .fin) []).hasFin = true ∧
      (m.segment ackno (.ack ||| .fin) []).span = 1 := by
  have hf : (m.segment ackno (.ack ||| .fin) []).hasFin = true :=
    show (Flags.ack ||| Flags.fin).contains .fin = _ by decide
  refine ⟨hf, ?_⟩
  rw [Segment.span, hf]
  rfl

theorem Outbound.queueData_eq_ok (h : o.queueData payload ackno = .ok (n, out)) :
    o.fin = none ∧ payload.length ≤ o.numbering.maxPayload ∧
      o.next + payload.length ≤ lastPosition ∧
      out = o.push (o.numbering.segment ackno .ack payload)
        { o.numbering with next := o.next + payload.length } := by
  unfold queueData Numbering.data at h
  unfold fin next
  split at h
  next s m heq =>
    split at heq
    · cases heq
    · split at heq
      · cases heq
      · split at heq
        · cases heq
        next hfin hlen hlast =>
          cases heq
          cases h
          exact ⟨by simpa using hfin, by omega, by omega, rfl⟩
  next => cases h

/-- Input that is not too long is refused only for want of positions. -/
theorem Outbound.queueData_eq_error {e : Error} (h : o.queueData payload ackno = .error e)
    (hf : o.fin = none) (hlen : payload.length ≤ o.numbering.maxPayload) :
    e = .outOfPositions ∧ lastPosition < o.next + payload.length := by
  unfold queueData Numbering.data at h
  unfold fin at hf
  rw [hf, if_neg (by simp), if_neg (by omega)] at h
  unfold next
  by_cases hlast : lastPosition < o.numbering.next + payload.length
  · rw [if_pos hlast] at h
    cases h
    exact ⟨rfl, hlast⟩
  · rw [if_neg hlast] at h
    cases h

theorem Outbound.queueFin_eq_ok (h : o.queueFin ackno = .ok (n, out)) :
    o.fin = none ∧ o.next + 1 ≤ lastPosition ∧
      out = o.push (o.numbering.segment ackno (.ack ||| .fin) [])
        { o.numbering with next := o.next + 1, fin := some o.next } := by
  unfold queueFin Numbering.finish at h
  unfold fin next
  split at h
  next s m heq =>
    split at heq
    · cases heq
    · split at heq
      · cases heq
      next hfin hlast =>
        cases heq
        cases h
        exact ⟨by simpa using hfin, by omega, rfl⟩
  next => cases h

/-- So is the FIN. -/
theorem Outbound.queueFin_eq_error {e : Error} (h : o.queueFin ackno = .error e)
    (hf : o.fin = none) : e = .outOfPositions := by
  unfold queueFin Numbering.finish at h
  unfold fin at hf
  rw [hf, if_neg (by simp)] at h
  split at h
  · cases h
  next heq =>
    split at heq
    · cases heq
      cases h
      rfl
    · cases heq

theorem Outbound.numbering_of_pop? (h : o.pop? f sendWindow = some (p, out)) :
    out.numbering = o.numbering := by
  obtain ⟨⟨q, queue⟩, -, heq⟩ := Option.map_eq_some_iff.mp h
  obtain ⟨-, rfl⟩ : q = p ∧ { o with queue } = out := by simpa using heq
  rfl

/-! ## Packets -/

/-- All packets are encoded segments that satisfy `P`. -/
structure Speaks (P : Segment → Prop) (o : Outbound) (f : Inflight) : Prop where
  waiting : ∀ p ∈ o.queue.toList, p.wire = p.segment.encode ∧ p.segment.Sound ∧ P p.segment
  flying : ∀ e ∈ f.entries.toList, e.wire = e.segment.encode ∧ e.segment.Sound ∧ P e.segment

namespace Speaks

theorem mono (h : Speaks P o f) (hPQ : ∀ s, P s → Q s) : Speaks Q o f where
  waiting p hp := ⟨(h.waiting p hp).1, (h.waiting p hp).2.1, hPQ _ (h.waiting p hp).2.2⟩
  flying e he := ⟨(h.flying e he).1, (h.flying e he).2.1, hPQ _ (h.flying e he).2.2⟩

theorem setWindow (h : Speaks P o f) (window : UInt16) : Speaks P (o.setWindow window) f :=
  ⟨h.waiting, h.flying⟩

theorem push {s : Segment} {m : Numbering} (h : Speaks P o f) (hs : s.Sound) (hP : P s) :
    Speaks P (o.push s m) f where
  waiting p hp := by
    rw [Outbound.push, Queue.toList_push] at hp
    rcases List.mem_append.mp hp with hp | hp
    · exact h.waiting p hp
    · obtain rfl := List.mem_singleton.mp hp
      exact ⟨rfl, hs, hP⟩
  flying := h.flying

/-- Only what the packets bring to the peer matters. -/
theorem of_content (h : Speaks P o f)
    (hc : g.entries.toList.map SentPacket.content = f.entries.toList.map SentPacket.content) :
    Speaks P o g where
  waiting := h.waiting
  flying e he := by
    obtain ⟨e', he', hseg, hwire⟩ := SentPacket.exists_of_content hc he
    rw [← hseg, ← hwire]
    exact h.flying e' he'

theorem pop (h : Speaks P o f) (hp : o.pop? f sendWindow = some (p, out)) (now : Int) :
    Speaks P out (f.insert p now).2 ∧ p.wire = p.segment.encode ∧ p.segment.Sound ∧
      P p.segment := by
  have hq := Outbound.queue_of_pop? hp
  have hhead := h.waiting p (by rw [hq]; exact .head _)
  refine ⟨⟨fun x hx => h.waiting x (by rw [hq]; exact .tail p hx), fun e he => ?_⟩, hhead⟩
  unfold Inflight.insert at he
  split at he
  · exact h.flying e he
  next entries hplace =>
    rcases SentPacket.mem_of_place? hplace e he with rfl | he
    · exact hhead
    · exact h.flying e he

theorem acknowledge (h : Speaks P o f) (ackno : Nat) : Speaks P o (f.acknowledge ackno).2 where
  waiting := h.waiting
  flying e he := by
    rcases f.acknowledge_cases ackno with heq | ⟨-, -, bytes, heq⟩
    · rw [heq] at he
      exact h.flying e he
    · rw [heq] at he
      simp only [Queue.toList_dropWhile] at he
      exact h.flying e ((List.dropWhile_sublist _).subset he)

end Speaks

/-! ## Numbers -/

/-- The numbers of the sending end agree with the source and with one another. -/
structure Counts (t : Source) (o : Outbound) (f : Inflight) : Prop where
  next_eq : o.next = t.stream.next
  ended_eq : o.fin.isSome = t.ended
  fin_eq : ∀ n, o.fin = some n → n = t.stream.stop
  next_le : o.next ≤ lastPosition
  first_le : firstPosition ≤ f.acked
  acked_le : f.acked ≤ f.sent
  sent_le : f.sent ≤ o.next

/-- The source with one more piece. -/
def Source.add (t : Source) (piece : Bytes) : Source := { t with pieces := t.pieces ++ [piece] }

/-- The source with its FIN. -/
def Source.finish (t : Source) : Source := { t with ended := true }

theorem Source.growsTo_add (h : t.ended = false) (piece : Bytes) : t.GrowsTo (t.add piece) :=
  ⟨List.prefix_append _ _, by simp [h]⟩

theorem Source.growsTo_finish (h : t.ended = false) : t.GrowsTo t.finish :=
  ⟨List.prefix_rfl, by simp [h]⟩

theorem Source.next_add (h : t.ended = false) (piece : Bytes) :
    (t.add piece).stream.next = t.stream.next + piece.length := by
  simp [Stream.next, Stream.stop, Source.stream, Source.add, h]
  omega

theorem Source.next_finish (h : t.ended = false) : t.finish.stream.next = t.stream.next + 1 := by
  simp [Stream.next, Stream.stop, Source.stream, Source.finish, h]

/-- Until the FIN is queued the next position is that of the end of the stream. -/
theorem Counts.next_eq_stop (h : Counts t o f) (hf : o.fin = none) :
    t.ended = false ∧ o.next = t.stream.stop := by
  have hended := h.ended_eq
  rw [hf] at hended
  refine ⟨hended.symm, ?_⟩
  rw [h.next_eq, Stream.next, show t.stream.ended = t.ended from rfl, ← hended]
  rfl

/-- Only the numbers matter, not the packets. -/
theorem Counts.congr (h : Counts t o f) (hnext : out.next = o.next) (hfin : out.fin = o.fin)
    (hacked : g.acked = f.acked) (hsent : g.sent = f.sent) : Counts t out g := by
  obtain ⟨h₁, h₂, h₃, h₄, h₅, h₆, h₇⟩ := h
  rw [← hnext] at h₁ h₄ h₇
  rw [← hfin] at h₂ h₃
  rw [← hsent] at h₆ h₇
  rw [← hacked] at h₅ h₆
  exact ⟨h₁, h₂, h₃, h₄, h₅, h₆, h₇⟩

theorem Counts.queueData (h : Counts t o f) (hq : o.queueData payload ackno = .ok (n, out)) :
    Counts (t.add payload) out f := by
  obtain ⟨hf, -, hlast, rfl⟩ := Outbound.queueData_eq_ok hq
  obtain ⟨hended, -⟩ := h.next_eq_stop hf
  have hsent := h.sent_le
  refine ⟨?_, ?_, ?_, hlast, h.first_le, h.acked_le, ?_⟩
  · rw [Source.next_add hended, ← h.next_eq]
    rfl
  · exact h.ended_eq
  · intro m hm
    have hm' : o.fin = some m := hm
    rw [hf] at hm'
    cases hm'
  · show f.sent ≤ o.next + payload.length
    omega

theorem Counts.queueFin (h : Counts t o f) (hq : o.queueFin ackno = .ok (n, out)) :
    Counts t.finish out f := by
  obtain ⟨hf, hlast, rfl⟩ := Outbound.queueFin_eq_ok hq
  obtain ⟨hended, hstop⟩ := h.next_eq_stop hf
  have hsent := h.sent_le
  refine ⟨?_, rfl, ?_, hlast, h.first_le, h.acked_le, ?_⟩
  · rw [Source.next_finish hended, ← h.next_eq]
    rfl
  · intro m hm
    rw [← Option.some.inj hm, hstop]
    rfl
  · show f.sent ≤ o.next + 1
    omega

theorem Counts.acknowledge (h : Counts t o f) (ackno : Nat) :
    Counts t o (f.acknowledge ackno).2 := by
  have hfirst := h.first_le
  rcases f.acknowledge_cases ackno with heq | ⟨hlt, hle, bytes, heq⟩
  · rw [heq]
    exact h
  · rw [heq]
    exact { h with first_le := by simp only; omega, acked_le := hle }

/-! ## Positions -/

/-- Every position from the acknowledged one on is in a packet that carries what is there. -/
structure Conveys (t : Source) (o : Outbound) (f : Inflight) : Prop where
  speaks : Speaks t.Carries o f
  waiting : Tiles Packet.start Packet.stop f.sent o.queue.toList o.next
  flying : ∃ lo ≤ f.acked,
    Tiles (fun e : SentPacket => e.start) (fun e : SentPacket => e.stop) lo f.entries.toList f.sent
  unacked : ∀ e ∈ f.entries.toList, f.acked < e.stop

namespace Conveys

theorem setWindow (h : Conveys t o f) (window : UInt16) : Conveys t (o.setWindow window) f :=
  ⟨h.speaks.setWindow window, h.waiting, h.flying, h.unacked⟩

/-- A segment is queued behind all others. -/
theorem push {u : Source} {s : Segment} {m : Numbering} (h : Conveys t o f) (hg : t.GrowsTo u)
    (hstart : s.start = o.next) (hs : s.Sound) (hc : u.Carries s)
    (hnext : m.next = o.next + s.span) : Conveys u (o.push s m) f := by
  refine ⟨(h.speaks.mono fun _ hx => hx.mono hg).push hs hc, ?_, h.flying, h.unacked⟩
  have htiles := h.waiting.push (a := Packet.ofSegment s) hstart
  have hstop : (Packet.ofSegment s).stop = m.next := by
    rw [hnext, ← hstart]
    rfl
  rw [Outbound.push, Queue.toList_push]
  rwa [hstop] at htiles

theorem queueData (h : Conveys t o f) (hc : Counts t o f)
    (hq : o.queueData payload ackno = .ok (n, out)) (hne : payload ≠ [])
    (hmax : o.numbering.maxPayload ≤ Segment.maxPayload) : Conveys (t.add payload) out f := by
  obtain ⟨hf, hlen, -, rfl⟩ := Outbound.queueData_eq_ok hq
  obtain ⟨hended, hstop⟩ := hc.next_eq_stop hf
  obtain ⟨hdata, hspan⟩ := o.numbering.span_data ackno payload
  have hstart := o.numbering.start_segment hc.next_le ackno .ack payload
  refine h.push (Source.growsTo_add hended payload) hstart
    (Segment.sound_sealed (Nat.le_trans hlen hmax)) (.data ⟨t.pieces, [], rfl, ?_⟩ hne hdata) ?_
  · rw [hstart]
    exact hstop
  · rw [hspan]

theorem queueFin (h : Conveys t o f) (hc : Counts t o f)
    (hq : o.queueFin ackno = .ok (n, out)) : Conveys t.finish out f := by
  obtain ⟨hf, -, rfl⟩ := Outbound.queueFin_eq_ok hq
  obtain ⟨hended, hstop⟩ := hc.next_eq_stop hf
  obtain ⟨hfin, hspan⟩ := o.numbering.span_fin ackno
  have hstart := o.numbering.start_segment hc.next_le ackno (.ack ||| .fin) []
  refine h.push (Source.growsTo_finish hended) hstart (Segment.sound_sealed (Nat.zero_le _))
    (.fin rfl ?_ rfl hfin) ?_
  · rw [hstart]
    exact hstop
  · rw [hspan]

/-- A packet that takes up no position is never carried. -/
theorem start_lt_stop {s : Segment} (h : t.Carries s) : s.start < s.start + s.span := by
  have := h.bounds.2.1
  omega

/-- What is sent comes behind all that is in flight. -/
theorem insert_eq (h : Conveys t o f) (hc : Counts t o f)
    (hp : o.pop? f sendWindow = some (p, out)) (now : Int) :
    f.sent < p.stop ∧ (f.insert p now).2 =
      { f with
        entries := f.entries.push { p with sentAt := now }
        bytes := f.bytes + p.payloadLen
        sent := p.stop } := by
  obtain ⟨lo, -, hflying⟩ := h.flying
  have hcarried := (h.speaks.pop hp now).2.2.2
  have hwaiting := h.waiting
  rw [Outbound.queue_of_pop? hp] at hwaiting
  have hstart := hwaiting.1
  have hstop : p.segment.wrappedStop = p.stop := by
    have := hcarried.bounds.2.2
    have := hc.next_le
    rw [hc.next_eq] at this
    unfold lastPosition at this
    exact Nat.mod_eq_of_lt (by omega)
  have hlt : f.sent < p.stop := by
    have := start_lt_stop hcarried
    rw [← hstart]
    exact this
  have hplace : SentPacket.place? { p with sentAt := now } f.entries =
      some (f.entries.push { p with sentAt := now }) := by
    refine SentPacket.place?_of_lt fun x hx => ?_
    have hx' := (hflying.mem_bounds fun e he => Nat.le_of_lt
      (start_lt_stop (h.speaks.flying e he).2.2)).2 x hx
    have := start_lt_stop (h.speaks.flying x hx).2.2
    show x.start < p.start
    have : x.start < x.stop := this
    omega
  refine ⟨hlt, ?_⟩
  unfold Inflight.insert
  rw [hplace, hstop, Nat.max_eq_right (Nat.le_of_lt hlt)]

/-- What is sent goes from the front of the queue to the end of what is in flight. -/
theorem pop (h : Conveys t o f) (hc : Counts t o f) (hp : o.pop? f sendWindow = some (p, out))
    (now : Int) :
    Conveys t out (f.insert p now).2 ∧ Counts t out (f.insert p now).2 ∧
      f.sent ≤ (f.insert p now).2.sent ∧ (f.insert p now).2.acked = f.acked ∧
      p.segment.start + p.segment.span ≤ (f.insert p now).2.sent := by
  have hq := Outbound.queue_of_pop? hp
  obtain ⟨lo, hlo, hflying⟩ := h.flying
  obtain ⟨hspeaks, -⟩ := h.speaks.pop hp now
  have hwaiting := h.waiting
  rw [hq] at hwaiting
  obtain ⟨hstart, hrest⟩ := hwaiting
  have hout := Outbound.numbering_of_pop? hp
  have hnext : out.next = o.next := congrArg Numbering.next hout
  have hfin : out.fin = o.fin := congrArg Numbering.fin hout
  obtain ⟨hlt, hinsert⟩ := h.insert_eq hc hp now
  have hle := hrest.le fun x hx => Nat.le_of_lt (start_lt_stop
    (h.speaks.waiting x (by rw [hq]; exact .tail p hx)).2.2)
  rw [hinsert] at hspeaks ⊢
  obtain ⟨h₁, h₂, h₃, h₄, h₅, h₆, -⟩ := hc.congr hnext hfin rfl rfl
  refine ⟨⟨hspeaks, ?_, ⟨lo, hlo, ?_⟩, fun e he => ?_⟩,
    ⟨h₁, h₂, h₃, h₄, h₅, Nat.le_trans h₆ (Nat.le_of_lt hlt), ?_⟩, Nat.le_of_lt hlt, rfl,
    Nat.le_refl _⟩
  · rw [hnext]
    exact hrest
  · rw [Queue.toList_push]
    exact hflying.push hstart
  · rw [Queue.toList_push] at he
    rcases List.mem_append.mp he with he | he
    · exact h.unacked e he
    · obtain rfl := List.mem_singleton.mp he
      exact Nat.lt_of_le_of_lt h₆ hlt
  · rw [hnext]
    exact hle

theorem acknowledge (h : Conveys t o f) (ackno : Nat) : Conveys t o (f.acknowledge ackno).2 := by
  have hspeaks := h.speaks.acknowledge ackno
  obtain ⟨lo, hlo, hflying⟩ := h.flying
  rcases f.acknowledge_cases ackno with heq | ⟨hlt, -, bytes, heq⟩
  · rw [heq]
    exact h
  · rw [heq] at hspeaks ⊢
    have hle : ∀ e ∈ f.entries.toList, e.start ≤ e.stop := fun e he =>
      Nat.le_of_lt (start_lt_stop (h.speaks.flying e he).2.2)
    refine ⟨hspeaks, h.waiting, ?_, ?_⟩
    · rw [Queue.toList_dropWhile]
      exact hflying.dropWhile ackno (by omega)
    · rw [Queue.toList_dropWhile]
      exact hflying.lt_of_mem_dropWhile hle

/-- Only what the packets bring to the peer matters, and what was acknowledged and sent. -/
theorem of_content (h : Conveys t o f)
    (hc : g.entries.toList.map SentPacket.content = f.entries.toList.map SentPacket.content)
    (hacked : g.acked = f.acked) (hsent : g.sent = f.sent) : Conveys t o g := by
  obtain ⟨lo, hlo, hflying⟩ := h.flying
  refine ⟨h.speaks.of_content hc, by rw [hsent]; exact h.waiting,
    ⟨lo, by rw [hacked]; exact hlo, ?_⟩, fun e he => ?_⟩
  · have hmap (l : List SentPacket) : Tiles (fun e : SentPacket => e.start)
        (fun e : SentPacket => e.stop) lo l f.sent ↔
        Tiles (fun c : Segment × Bytes => c.1.start) (fun c => c.1.start + c.1.span) lo
          (l.map SentPacket.content) f.sent := by
      rw [tiles_map]
      rfl
    rw [hsent, hmap, hc, ← hmap]
    exact hflying
  · obtain ⟨e', he', hseg, -⟩ := SentPacket.exists_of_content hc he
    have hlt := h.unacked e' he'
    rw [hacked]
    unfold Packet.stop at hlt ⊢
    rw [← hseg]
    exact hlt

/-- What is in flight was sent. -/
theorem stop_le_sent (h : Conveys t o f) {e : SentPacket} (he : e ∈ f.entries.toList) :
    e.segment.start + e.segment.span ≤ f.sent := by
  obtain ⟨lo, -, hflying⟩ := h.flying
  exact ((hflying.mem_bounds fun e he => Nat.le_of_lt
    (start_lt_stop (h.speaks.flying e he).2.2)).2 e he).2

end Conveys

end ReliableStream
