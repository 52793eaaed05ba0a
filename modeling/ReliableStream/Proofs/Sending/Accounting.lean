import ReliableStream.Proofs.Sending.Conveys

/-!
# What is in flight, in bytes

Only the number of payload bytes in flight is kept, not where they end. Since the packets in flight
lie behind one another and none of them is acknowledged, the number says where they end too.

* `before_append_payloads`: what segments that lie behind one another bring, added to what the
  application has before them, is what it has after them.
* `Metered`: the number is that of the bytes in flight, and the send window has room for them.
  Each operation on the packets in flight has one lemma about it.
* `Conveys.le_acked_add`: what was sent ends within that number of bytes after what is acknowledged.
  So what is sent next ends within the windows (`Conveys.pop_within`), and so does what is sent
  again (`Conveys.flying_within`).
-/

namespace ReliableStream

variable {t : Source} {o out : Outbound} {f g : Inflight} {s : Segment} {l m : List Segment}
  {p : Packet} {e : SentPacket} {now : Int} {n q sendWindow : Nat}

/-- The position after the segment. -/
def Segment.stop (s : Segment) : Nat := s.start + s.span

/-- The bytes that the segments bring, in order. -/
def payloads (l : List Segment) : Bytes := l.flatMap (·.payload)

@[simp] theorem payloads_nil : payloads [] = [] := rfl

@[simp] theorem payloads_cons : payloads (s :: l) = s.payload ++ payloads l := by
  simp [payloads]

@[simp] theorem payloads_append : payloads (l ++ m) = payloads l ++ payloads m := by
  simp [payloads]

/-! ## Positions and bytes -/

theorem Stream.length_before (t : Stream) (n : Nat) :
    (t.before n).length = min (n - firstPosition) t.bytes.length := List.length_take

namespace Source

/-- The end of a segment that is carried is where its payload ends, or one after the FIN. -/
theorem Carries.before_append (h : t.Carries s) :
    t.stream.before s.start ++ s.payload = t.stream.before s.stop := by
  cases h with
  | data hat hne hf =>
    rw [Segment.stop, Segment.span, hf]
    exact Stream.before_append hat.holdsAt hne
  | fin he hs hp hf =>
    rw [Segment.stop, hp, List.append_nil, hs, Stream.before_stop (Nat.le_refl _),
      Stream.before_stop (Nat.le_add_right _ _)]

/-- The payload of a segment that is carried lies within the stream. -/
theorem Carries.payload_le (h : t.Carries s) :
    s.start + s.payload.length ≤ t.stream.stop := by
  cases h with
  | data hat hne hf => exact hat.stop_le
  | fin he hs hp hf => simp [hs, hp]

theorem before_append_payloads (h : Tiles Segment.start Segment.stop n l q)
    (hc : ∀ s ∈ l, t.Carries s) : t.stream.before n ++ payloads l = t.stream.before q := by
  induction l generalizing n with
  | nil =>
    obtain rfl : n = q := h
    simp
  | cons s l ih =>
    obtain ⟨rfl, hl⟩ := h
    rw [payloads_cons, ← List.append_assoc, (hc s (.head l)).before_append]
    exact ih hl fun x hx => hc x (.tail s hx)

/-- What lies in the stream before the end of such segments lies within their bytes. -/
theorem le_add_payloads {x : Nat} (h : Tiles Segment.start Segment.stop n l q)
    (hc : ∀ s ∈ l, t.Carries s) (hn : firstPosition ≤ n) (hq : x ≤ q) (hs : x ≤ t.stream.stop) :
    x ≤ n + (payloads l).length := by
  have hlen := congrArg List.length (before_append_payloads h hc)
  rw [List.length_append, Stream.length_before, Stream.length_before] at hlen
  unfold Stream.stop at hs
  omega

end Source

/-! ## What is held -/

/-- The segments that wait, the oldest first. -/
def Outbound.segments (o : Outbound) : List Segment := o.queue.toList.map (·.segment)

/-- The segments in flight, in order. -/
def Inflight.segments (f : Inflight) : List Segment := f.entries.toList.map (·.segment)

theorem SentPacket.payloadTotal_eq (l : List SentPacket) :
    payloadTotal l = (payloads (l.map (·.segment))).length := by
  have hfold : ∀ (l : List SentPacket) (n : Nat),
      l.foldl (fun n e => n + e.payloadLen) n =
        n + (payloads (l.map (·.segment))).length := by
    intro l
    induction l with
    | nil => simp
    | cons e l ih =>
      intro n
      rw [List.foldl_cons, ih, List.map_cons, payloads_cons, List.length_append, Nat.add_assoc]
      rfl
  rw [payloadTotal, hfold, Nat.zero_add]

theorem SentPacket.payloadTotal_append (l m : List SentPacket) :
    payloadTotal (l ++ m) = payloadTotal l + payloadTotal m := by
  simp only [payloadTotal_eq, List.map_append, payloads_append, List.length_append]

theorem Inflight.payloadTotal_eq (f : Inflight) :
    f.payloadTotal = (payloads f.segments).length := SentPacket.payloadTotal_eq _

theorem Inflight.segments_of_content
    (h : g.entries.toList.map SentPacket.content = f.entries.toList.map SentPacket.content) :
    g.segments = f.segments := by
  have hmap := congrArg (List.map Prod.fst) h
  rwa [List.map_map, List.map_map] at hmap

@[simp] theorem Inflight.segments_noteWindow (f : Inflight) (ackno : Nat) (window : UInt16) :
    (f.noteWindow ackno window).2.segments = f.segments :=
  segments_of_content (f.map_content_noteWindow ackno window)

@[simp] theorem Inflight.segments_resendOverdue (f : Inflight) (now : Int) (config : Config) :
    (f.resendOverdue now config).2.segments = f.segments :=
  segments_of_content (SentPacket.map_content_resendOverdue now config f.entries.toList)

/-- Segments are retired from the front. -/
theorem Inflight.segments_acknowledge (f : Inflight) (ackno : Nat) :
    (f.acknowledge ackno).2.segments <:+ f.segments := by
  rcases f.acknowledge_cases ackno with heq | ⟨-, -, bytes, heq⟩
  · rw [heq]
  · rw [heq, segments, Queue.toList_dropWhile]
    exact (List.dropWhile_suffix _).map _

theorem Conveys.tiles_waiting (h : Conveys t o f) :
    Tiles Segment.start Segment.stop f.sent o.segments o.next := tiles_map.mpr h.waiting

theorem Conveys.tiles_flying (h : Conveys t o f) :
    ∃ lo ≤ f.acked, Tiles Segment.start Segment.stop lo f.segments f.sent := by
  obtain ⟨lo, hlo, hflying⟩ := h.flying
  exact ⟨lo, hlo, tiles_map.mpr hflying⟩

theorem Conveys.carries_waiting (h : Conveys t o f) : ∀ s ∈ o.segments, t.Carries s := by
  intro s hs
  obtain ⟨p, hp, rfl⟩ := List.mem_map.mp hs
  exact (h.speaks.waiting p hp).2.2

theorem Conveys.carries_flying (h : Conveys t o f) : ∀ s ∈ f.segments, t.Carries s := by
  intro s hs
  obtain ⟨e, he, rfl⟩ := List.mem_map.mp hs
  exact (h.speaks.flying e he).2.2

/-! ## The number of bytes in flight -/

/-- The number of bytes in flight is right, and the send window has room for them. -/
structure Metered (f : Inflight) (sendWindow : Nat) : Prop where
  bytes_eq : f.bytes = f.payloadTotal
  bytes_le : f.bytes ≤ sendWindow

namespace Metered

/-- Only the segments in flight matter. -/
theorem congr (h : Metered f sendWindow) (hbytes : g.bytes = f.bytes)
    (hsegments : g.segments = f.segments) : Metered g sendWindow := by
  obtain ⟨heq, hle⟩ := h
  rw [Inflight.payloadTotal_eq, ← hsegments, ← hbytes] at heq
  rw [← hbytes] at hle
  exact ⟨heq.trans g.payloadTotal_eq.symm, hle⟩

theorem clear (f : Inflight) (sendWindow : Nat) : Metered f.clear sendWindow :=
  ⟨rfl, Nat.zero_le _⟩

/-- What an acknowledgment retires is no longer counted. -/
theorem acknowledge (h : Metered f sendWindow) (ackno : Nat) :
    Metered (f.acknowledge ackno).2 sendWindow := by
  obtain ⟨heq, hle⟩ := h
  unfold Inflight.acknowledge
  split
  · exact ⟨heq, hle⟩
  · split
    · exact ⟨heq, hle⟩
    · have hsplit : f.payloadTotal =
          SentPacket.payloadTotal (f.entries.toList.takeWhile (·.stop ≤ ackno)) +
            SentPacket.payloadTotal (f.entries.toList.dropWhile (·.stop ≤ ackno)) := by
        rw [← SentPacket.payloadTotal_append, List.takeWhile_append_dropWhile]
        rfl
      constructor
      · simp only [Inflight.payloadTotal, Queue.takeWhile_eq, Queue.toList_dropWhile]
        omega
      · exact Nat.le_trans (Nat.sub_le _ _) hle

theorem noteWindow (h : Metered f sendWindow) (ackno : Nat) (window : UInt16) :
    Metered (f.noteWindow ackno window).2 sendWindow := by
  refine h.congr ?_ (f.segments_noteWindow ackno window)
  unfold Inflight.noteWindow
  split <;> rfl

theorem resendOverdue (h : Metered f sendWindow) (now : Int) (config : Config) :
    Metered (f.resendOverdue now config).2 sendWindow :=
  h.congr rfl (f.segments_resendOverdue now config)

end Metered

/-! ## Windows -/

theorem Outbound.allows_of_pop? (h : o.pop? f sendWindow = some (p, out)) :
    f.allows p.payloadLen sendWindow = true := by
  obtain ⟨⟨q, queue⟩, hq, heq⟩ := Option.map_eq_some_iff.mp h
  obtain ⟨rfl, -⟩ : q = p ∧ { o with queue } = out := by simpa using heq
  exact (Queue.popIf?_eq_some hq).1

theorem Inflight.allows_iff : f.allows n sendWindow = true ↔
    n = 0 ∨ f.bytes + n ≤ min sendWindow f.peerWindow ∨
      f.entries.toList = [] ∧ n ≤ sendWindow := by
  simp [Inflight.allows, or_assoc]

/-- The segments in flight after the next one was sent. -/
theorem Conveys.segments_insert (h : Conveys t o f) (hc : Counts t o f)
    (hp : o.pop? f sendWindow = some (p, out)) (now : Int) :
    (f.insert p now).2.segments = f.segments ++ [p.segment] := by
  rw [(h.insert_eq hc hp now).2]
  simp [Inflight.segments]

theorem Metered.pop (h : Metered f sendWindow) (hconveys : Conveys t o f) (hc : Counts t o f)
    (hp : o.pop? f sendWindow = some (p, out)) (now : Int) :
    Metered (f.insert p now).2 sendWindow := by
  obtain ⟨heq, hle⟩ := h
  have hsegments := hconveys.segments_insert hc hp now
  have hallows := Inflight.allows_iff.mp (Outbound.allows_of_pop? hp)
  have hbytes : (f.insert p now).2.bytes = f.bytes + p.payloadLen := by
    rw [(hconveys.insert_eq hc hp now).2]
  constructor
  · rw [Inflight.payloadTotal_eq, hsegments, payloads_append, List.length_append,
      ← Inflight.payloadTotal_eq, ← heq, hbytes]
    simp [Packet.payloadLen]
  · rw [hbytes]
    rcases hallows with hnil | hroom | ⟨hnil, hfits⟩
    · omega
    · omega
    · have hzero : f.bytes = 0 := by
        rw [heq, Inflight.payloadTotal, hnil]
        rfl
      omega

/-- What was sent, up to the end of the stream, ends within the bytes in flight after what is
acknowledged. -/
theorem Conveys.le_acked_add (h : Conveys t o f) (hc : Counts t o f) (hn : n ≤ f.sent)
    (hs : n ≤ t.stream.stop) : n ≤ f.acked + f.payloadTotal := by
  obtain ⟨lo, hlo, htiles⟩ := h.tiles_flying
  have hfirst := hc.first_le
  rw [f.payloadTotal_eq]
  by_cases hle : firstPosition ≤ lo
  · have := Source.le_add_payloads htiles h.carries_flying hle hn hs
    omega
  · -- a tiling that begins before the first position has no items
    have hnil : f.segments = [] := by
      cases hl : f.segments with
      | nil => rfl
      | cons s l =>
        rw [hl] at htiles
        have hmem : s ∈ f.segments := by simp [hl]
        have := (h.carries_flying s hmem).bounds.1
        have : s.start = lo := htiles.1
        omega
    rw [hnil] at htiles
    have : lo = f.sent := htiles
    have := hc.acked_le
    omega

/-- What is in flight lies within the send window. -/
theorem Conveys.flying_within (h : Conveys t o f) (hc : Counts t o f) (hm : Metered f sendWindow)
    (he : e ∈ f.entries.toList) :
    e.segment.start + e.segment.payload.length ≤ f.acked + sendWindow := by
  have hsent := h.stop_le_sent he
  unfold Segment.span at hsent
  have := h.le_acked_add hc (by omega) (h.speaks.flying e he).2.2.payload_le
  have := hm.bytes_eq
  have := hm.bytes_le
  omega

/-- A segment lies within the peer's window, unless it carries no data, or nothing is in flight and
that window is too small for it. -/
def Inflight.Admits (f : Inflight) (s : Segment) : Prop :=
  s.payload = [] ∨ f.entries.toList = [] ∧ f.peerWindow < s.payload.length ∨
    s.start + s.payload.length ≤ f.acked + f.peerWindow

/-- What is sent next lies within both windows. -/
theorem Conveys.pop_within (h : Conveys t o f) (hc : Counts t o f) (hm : Metered f sendWindow)
    (hp : o.pop? f sendWindow = some (p, out)) :
    p.segment.start + p.segment.payload.length ≤ f.acked + sendWindow ∧ f.Admits p.segment := by
  have hq := Outbound.queue_of_pop? hp
  have hwaiting := h.waiting
  rw [hq] at hwaiting
  have hstart : p.segment.start = f.sent := hwaiting.1
  have hcarried := (h.speaks.waiting p (by simp [hq])).2.2
  have hpayload := hcarried.payload_le
  have hsent := h.le_acked_add hc (Nat.le_refl f.sent) (by omega)
  have heq := hm.bytes_eq
  have hle := hm.bytes_le
  rcases Inflight.allows_iff.mp (Outbound.allows_of_pop? hp) with hnil | hroom | ⟨hnil, hfits⟩
  · have hlen : p.segment.payload.length = 0 := hnil
    exact ⟨by omega, .inl (List.length_eq_zero_iff.mp hlen)⟩
  · have hroom' : f.bytes + p.segment.payload.length ≤ min sendWindow f.peerWindow := hroom
    exact ⟨by omega, .inr (.inr (by omega))⟩
  · have hfits' : p.segment.payload.length ≤ sendWindow := hfits
    have hzero : f.payloadTotal = 0 := by
      rw [Inflight.payloadTotal, hnil]
      rfl
    refine ⟨by omega, .inr ?_⟩
    by_cases hsmall : f.peerWindow < p.segment.payload.length
    · exact .inl ⟨hnil, hsmall⟩
    · exact .inr (by omega)

end ReliableStream
