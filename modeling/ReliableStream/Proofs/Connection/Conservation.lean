import ReliableStream.Endpoint.InMemory
import ReliableStream.Proofs.Connection.Traffic

/-!
# What was read is never lost

Everything that a connection has read is in a segment that is retired, in flight or waiting, once
and in order (`Conserves`). What was sent for the first time is what is retired or in flight, in
that order, and what was sent again was sent before. The proof keeps a log of what was sent for the
first time (`Logged`): a packet enters the log when it is sent, what is in flight is the end of the
log, and the rest is retired.
-/

namespace ReliableStream

/-- The packet that is sent next is recorded, behind the others. -/
theorem Conveys.insert_recorded {t : Source} {o out : Outbound} {f : Inflight} {p : Packet}
    {sendWindow : Nat} (h : Conveys t o f) (hc : Counts t o f)
    (hp : o.pop? f sendWindow = some (p, out)) (now : Int) :
    (f.insert p now).1 = true ∧
      (f.insert p now).2.entries.toList = f.entries.toList ++ [{ p with sentAt := now }] := by
  obtain ⟨hlt, heq⟩ := h.insert_eq hc hp now
  constructor
  · unfold Inflight.insert at heq ⊢
    split
    next hplace =>
      rw [hplace] at heq
      have hsent : f.sent = p.stop := congrArg Inflight.sent heq
      omega
    next => rfl
  · rw [heq, Queue.toList_push]

namespace Connection

variable {σ : Type} [Endpoint σ] {c d : Connection (Recorded σ)} {t u : Source} {w : Traffic}
  {m : Move (Recorded σ)} {log : List Segment}

/-- The `log` has what was sent for the first time. -/
structure Logged (t : Source) (c : Connection (Recorded σ)) (w : Traffic) (log : List Segment) :
    Prop where
  tiles : Tiles Segment.start Segment.stop firstPosition log c.inflight.sent
  carries : ∀ s ∈ log, t.Carries s
  flying : c.inflight.segments <:+ log
  firsts : w.firsts = log.map Segment.encode
  resends : ∀ x ∈ w.resends, x ∈ w.firsts
  answers : ∀ x ∈ w.answers, Spoken (·.isBareAck = true) x

omit [Endpoint σ] in
/-- A packet enters the log when it is sent for the first time. -/
theorem Logged.send {p : Packet} {outbound : Outbound} (h : Logged t c w log) (hc : c.Sending t)
    (live : c.destroyed = false) (now : Int)
    (hp : c.outbound.pop? c.inflight c.config.sendWindow = some (p, outbound))
    (hd : d.inflight = (c.inflight.insert p now).2) :
    Logged t d { w with firsts := w.firsts ++ [p.wire] } (log ++ [p.segment]) := by
  have hconveys := hc.conveys live
  obtain ⟨-, hwire, -, hcarried⟩ := hconveys.speaks.pop hp now
  have hwaiting := hconveys.waiting
  rw [Outbound.queue_of_pop? hp] at hwaiting
  refine ⟨?_, fun s hs => ?_, ?_, ?_, fun x hx => ?_, h.answers⟩
  · rw [hd, (hconveys.insert_eq hc.counts hp now).2]
    exact h.tiles.push hwaiting.1
  · rcases List.mem_append.mp hs with hs | hs
    · exact h.carries s hs
    · obtain rfl := List.mem_singleton.mp hs
      exact hcarried
  · rw [hd, hconveys.segments_insert hc.counts hp now]
    obtain ⟨retired, hretired⟩ := h.flying
    exact ⟨retired, by rw [← hretired, List.append_assoc]⟩
  · rw [h.firsts, hwire, List.map_append]
    rfl
  · exact List.mem_append_left _ (h.resends x hx)

omit [Endpoint σ] in
/-- Nothing enters the log otherwise. -/
theorem Logged.keep (h : Logged t c w log) (hg : t.GrowsTo u)
    (hsent : d.inflight.sent = c.inflight.sent)
    (hflying : d.inflight.segments <:+ c.inflight.segments) : Logged u d w log where
  tiles := by
    rw [hsent]
    exact h.tiles
  carries s hs := (h.carries s hs).mono hg
  flying := hflying.trans h.flying
  firsts := h.firsts
  resends := h.resends
  answers := h.answers

theorem Step.logged (h : Step m.grant c d) (hc : c.Sending t) (hl : Logged t c w log) :
    ∃ u log, d.Sending u ∧ Logged u d (w.note m (c.sentUntil d)) log := by
  obtain ⟨u, hsends⟩ := h.sending hc
  cases h.utters with
  | nothing said sent flying =>
    rw [sentUntil_of_append [] (by rw [said, List.append_nil]), Traffic.note_nil]
    exact ⟨u, log, hsends.sending, hl.keep hsends.grows sent flying⟩
  | first now hg live hp said flying =>
    rw [sentUntil_of_append _ said, Traffic.note_of_sends hg]
    have hlogged := hl.send hc live now hp flying
    exact ⟨u, _, hsends.sending, hlogged.keep hsends.grows rfl List.suffix_rfl⟩
  | @again x hg live hx said flying =>
    rw [sentUntil_of_append _ said, Traffic.note_of_times hg]
    have hkept := hl.keep (d := d) hsends.grows (by rw [flying]) (by rw [flying])
    refine ⟨u, log, hsends.sending, { hkept with resends := fun y hy => ?_ }⟩
    rcases List.mem_append.mp hy with hy | hy
    · exact hl.resends y hy
    · obtain rfl := List.mem_singleton.mp hy
      have hmem : x.segment ∈ log := hl.flying.subset (List.mem_map_of_mem hx)
      rw [((hc.conveys live).speaks.flying x hx).1, hl.firsts]
      exact List.mem_map_of_mem hmem
  | @answer datagram hg bare said flying =>
    rw [sentUntil_of_append _ said, Traffic.note_of_answers hg]
    have hkept := hl.keep (d := d) hsends.grows (by rw [flying]) (by rw [flying])
    refine ⟨u, log, hsends.sending, { hkept with answers := fun y hy => ?_ }⟩
    rcases List.mem_append.mp hy with hy | hy
    · exact hl.answers y hy
    · obtain rfl := List.mem_singleton.mp hy
      exact bare

theorem Ran.logged (h : Ran c w) : ∃ t log, c.Sending t ∧ Logged t c w log := by
  refine h.rule (I := fun c w => ∃ t log, c.Sending t ∧ Logged t c w log)
    (fun id config valid inner => ⟨{}, [], sending_created id valid inner, ?_⟩)
    (fun hstep ⟨t, log, hc, hl⟩ => hstep.logged hc hl) ?_
  · exact ⟨rfl, fun s hs => (by cases hs), List.nil_suffix, rfl, fun x hx => (by cases hx),
      fun x hx => (by cases hx)⟩
  · intro c w inner ⟨t, log, hc, hl⟩
    exact ⟨t, log, hc.adjust inner, hl.keep (.refl t) rfl List.suffix_rfl⟩

/-- Everything that was read is `retired`, in flight or waiting, and everything that was sent for
the first time is `retired` or in flight. -/
structure Conserves (c : Connection (Recorded σ)) (w : Traffic) (retired : List Segment) :
    Prop where
  /-- There is no gap and no overlap, up to the next position. What is retired is acknowledged, and
  what waits begins where what was sent ends. -/
  tiles : ∃ lo ≤ c.inflight.acked, Tiles Segment.start Segment.stop firstPosition retired lo ∧
    Tiles Segment.start Segment.stop lo c.inflight.segments c.inflight.sent ∧
    Tiles Segment.start Segment.stop c.inflight.sent c.outbound.segments c.outbound.next
  increasing : (retired ++ c.inflight.segments ++ c.outbound.segments).Pairwise
    (·.start < ·.start)
  /-- Nothing comes after a FIN. -/
  fin_last : (retired ++ c.inflight.segments ++ c.outbound.segments).Pairwise
    fun a _ => a.hasFin = false
  wire_flying : ∀ e ∈ c.inflight.entries.toList, e.wire = e.segment.encode
  wire_waiting : ∀ p ∈ c.outbound.queue.toList, p.wire = p.segment.encode
  input : payloads (retired ++ c.inflight.segments ++ c.outbound.segments) = c.endpoint.input
  firsts : w.firsts = (retired ++ c.inflight.segments).map Segment.encode
  resends : ∀ x ∈ w.resends, x ∈ w.firsts
  answers : ∀ x ∈ w.answers, Spoken (·.isBareAck = true) x
  /-- What is sent next is recorded, behind all that is in flight. -/
  recorded : ∀ p outbound now,
    c.outbound.pop? c.inflight c.config.sendWindow = some (p, outbound) →
    (c.inflight.insert p now).1 = true ∧
      (c.inflight.insert p now).2.entries.toList =
        c.inflight.entries.toList ++ [{ p with sentAt := now }]

/-- Segments that lie behind one another and are carried are in order, and only the last of them can
be the FIN. -/
theorem ordered_of_tiles {p q : Nat} {l : List Segment}
    (h : Tiles Segment.start Segment.stop p l q) (hc : ∀ s ∈ l, t.Carries s) :
    l.Pairwise (·.start < ·.start) ∧ l.Pairwise fun a _ => a.hasFin = false := by
  have hpairwise := h.pairwise fun s hs => Nat.le_of_lt (Conveys.start_lt_stop (hc s hs))
  constructor
  · refine hpairwise.imp_of_mem fun {a b} ha _ hab => ?_
    exact Nat.lt_of_lt_of_le (Conveys.start_lt_stop (hc a ha)) hab
  · refine hpairwise.imp_of_mem fun {a b} ha hb hab => ?_
    cases hc a ha with
    | data _ _ hf => exact hf
    | fin he hs hp hf =>
      -- the stream goes no further than its FIN
      have hbounds := (hc b hb).bounds
      have hstop : a.stop = t.stream.next := by
        rw [Segment.stop, Segment.span, hs, hp, hf, Stream.next,
          show t.stream.ended = true from he]
        rfl
      omega

/-- As long as a connection is not given up, all that it has read is kept in order until it is
acknowledged, all that it sends is recorded, and it sends nothing new but what comes next. -/
theorem input_conserved (h : Ran c w) (hf : c.Fits) (live : c.destroyed = false) :
    ∃ retired, Conserves c w retired := by
  obtain ⟨t, log, hc, hl⟩ := h.logged
  obtain rfl := hc.source_eq hf
  have hconveys := hc.conveys live
  have hcounts := hc.counts
  obtain ⟨lo, hlo, hflying⟩ := hconveys.tiles_flying
  obtain ⟨retired, hlog⟩ := hl.flying
  have htiles := hl.tiles
  rw [← hlog] at htiles
  obtain ⟨lo', hretired, hflying'⟩ := tiles_append.mp htiles
  obtain rfl := hflying.begin_unique hflying'
  have hall : Tiles Segment.start Segment.stop firstPosition
      (retired ++ c.inflight.segments ++ c.outbound.segments) c.outbound.next :=
    tiles_append.mpr ⟨_, htiles, hconveys.tiles_waiting⟩
  have hcarries : ∀ s ∈ retired ++ c.inflight.segments ++ c.outbound.segments,
      c.source.Carries s := by
    intro s hs
    rcases List.mem_append.mp hs with hs | hs
    · rw [hlog] at hs
      exact hl.carries s hs
    · exact hconveys.carries_waiting s hs
  obtain ⟨hincreasing, hfin⟩ := ordered_of_tiles hall hcarries
  refine ⟨retired, ⟨lo, hlo, hretired, hflying, hconveys.tiles_waiting⟩, hincreasing, hfin,
    fun e he => (hconveys.speaks.flying e he).1, fun p hp => (hconveys.speaks.waiting p hp).1, ?_,
    by rw [hlog, hl.firsts], hl.resends, hl.answers,
    fun p outbound now hp => hconveys.insert_recorded hcounts hp now⟩
  have hbytes := Source.before_append_payloads hall hcarries
  rw [hcounts.next_eq, Stream.before_stop (show c.source.stream.stop ≤ c.source.stream.next from
    Nat.le_add_right _ _)] at hbytes
  simpa [Stream.before, Source.stream, source, Recorded.input] using hbytes

/-! ### Three letters

Each letter needs a packet of its own, and the send window has room for two. Both are sent twice,
and then the first is acknowledged. -/

def narrow : Config := { maxPayload := 1, sendWindow := 2 }

theorem valid_narrow : narrow.Valid := Config.check_eq_ok_iff.mp (by decide)

def speller : Connection (Recorded InMemory) :=
  ((((created 1 narrow valid_narrow
    { inner := { input := [97, 98, 99], inputClosed := true } }).move
      (.deed (.read 0 true))).move (.deed (.senderTurn 0))).move
        (.deed (.timerPass 300000000 false))).move
          (.deed (.receive (Segment.sealed 1 2 .ack 1440 []).encode 300000000))

theorem ran_speller : ∃ w, Ran speller w :=
  ⟨_, .move (.move (.move (.move (.created 1 valid_narrow _) trivial) trivial) trivial) trivial⟩

theorem letters_conserved : speller.endpoint.sent.length = 4 ∧
    ∃ w retired, Conserves speller w retired ∧ payloads retired = [97] := by
  have hfits : speller.Fits := by
    unfold Fits
    decide +kernel
  obtain ⟨w, hran⟩ := ran_speller
  obtain ⟨retired, hretired⟩ := input_conserved hran hfits (by decide +kernel)
  refine ⟨by decide +kernel, w, retired, hretired, ?_⟩
  have hinput := hretired.input
  rw [payloads_append, payloads_append,
    show payloads speller.inflight.segments = [98] by decide +kernel,
    show payloads speller.outbound.segments = [99] by decide +kernel,
    show speller.endpoint.input = [97] ++ [98] ++ [99] by decide +kernel] at hinput
  exact List.append_cancel_right (List.append_cancel_right hinput)

end Connection

end ReliableStream
