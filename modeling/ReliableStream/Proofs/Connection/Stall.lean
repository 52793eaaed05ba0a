import ReliableStream.Endpoint.InMemory
import ReliableStream.Proofs.Connection.Orderly
import ReliableStream.Proofs.Connection.Timer
import ReliableStream.Proofs.Sending.Resends

/-!
# Peers whose window is closed

A peer whose application takes nothing closes its window, and answers each packet that is resent to
it by saying so. `Answered` are the runs of a connection with such a peer. The answer excuses the
oldest packet in flight and no other (`Fresh.noteClosed`), so such a peer is waited for without
end if and only if the timer finds at most one packet in flight (`spared_iff_one_in_flight`).
-/

namespace ReliableStream

namespace Connection

variable {σ : Type} [Endpoint σ] {g : Grant} {c d e : Connection σ}

/-! ## Resends -/

/-- As long as the timer does not pass, no packet is resent. -/
theorem Step.fresh {t : Source} {owed : Bool} (h : Step g c d) (hg : ¬ g.times)
    (hc : c.Numbered t) (hf : Fresh owed c.outbound c.inflight) :
    Fresh owed d.outbound d.inflight := by
  cases h with
  | setWindow => exact ⟨hf.waiting, hf.flying⟩
  | queue live hread hne hq =>
    obtain ⟨-, -, -, rfl⟩ := Outbound.queueData_eq_ok hq
    exact hf.push _ _
  | finish live hread hend hq =>
    obtain ⟨-, -, rfl⟩ := Outbound.queueFin_eq_ok hq
    exact hf.push _ _
  | send live _ now hp =>
    obtain ⟨-, hinsert⟩ := (hc.conveys live).insert_eq hc.counts hp now
    exact hf.pop hp (by rw [hinsert])
  | resend _ htimes => exact absurd htimes hg
  | restamp _ htimes => exact absurd htimes hg
  | acknowledge => exact (hf.acknowledge _).noteWindow _ _
  | deliver =>
    obtain ⟨received, endpoint, ackno, window, heq⟩ := c.deliver_eq
    rw [heq]
    exact hf
  | destroy =>
    unfold Connection.destroy
    split
    · exact hf
    · exact ⟨fun p hp => (by cases hp), fun x hx => by
        have hx' := List.mem_of_mem_drop hx
        cases hx'⟩
  | _ => exact hf

/-! ## Answers that close the window -/

/-- The datagram acknowledges what is acknowledged already, and says that there is no room. -/
def HearsClosed (c : Connection σ) (datagram : Bytes) : Prop :=
  ∃ s, Segment.decode datagram = .ok s ∧ s.flags.contains .ack = true ∧
    s.ackno.toNat = c.inflight.acked ∧ s.window = 0

/-- The connection has taken note that the window is closed. -/
def closed (c : Connection σ) : Connection σ :=
  { c with inflight := (c.inflight.noteWindow c.inflight.acked 0).2 }

/-- Such a datagram does nothing else, unless it has payload. -/
theorem receive_closed {datagram : Bytes} {s : Segment} (hd : c.destroyed = false)
    (hs : Segment.decode datagram = .ok s) (hack : s.flags.contains .ack = true)
    (hacked : s.ackno.toNat = c.inflight.acked) (hle : c.inflight.acked ≤ c.inflight.sent)
    (hwindow : s.window = 0) (now : Int) :
    c.receive datagram now =
      if s.isBareAck then (.ok (), c.closed) else c.closed.handleData s now := by
  have hstale : c.inflight.acknowledge c.inflight.acked = (.stale, c.inflight) := by
    unfold Inflight.acknowledge
    rw [if_neg (by omega), if_pos (Nat.le_refl _)]
  have hclosed : (c.inflight.noteWindow c.inflight.acked 0).1 = false := by
    unfold Inflight.noteWindow
    rw [if_neg (by omega)]
    rfl
  have hhandle : c.handleAck s.ackno.toNat s.window now = (.ok (), c.closed) := by
    unfold handleAck
    rw [hacked, hwindow, hstale]
    simp only [hclosed]
    rfl
  have hlive : c.closed.destroyed = false := hd
  unfold receive
  rw [if_neg (by simp [hd]), hs]
  simp only
  rw [if_pos hack, hhandle]
  simp only [hlive, Bool.or_false]

theorem step_closed {s : Segment} (hg : g.heeds) (hd : c.destroyed = false) (hs : g.hears s)
    (hack : s.flags.contains .ack = true) (hacked : s.ackno.toNat = c.inflight.acked)
    (hwindow : s.window = 0) : Step g c c.closed := by
  have hstep : Step g c _ := .acknowledge hd hs hack hg
  have hstale : (c.inflight.acknowledge s.ackno.toNat).2 = c.inflight := by
    rcases c.inflight.acknowledge_cases s.ackno.toNat with heq | ⟨hlt, -⟩
    · exact heq
    · omega
  rw [hstale, hacked, hwindow] at hstep
  exact hstep

theorem Steps.fresh {owed : Bool} (h : Steps g c d) (hg : ¬ g.times) (hc : c.Orderly)
    (hf : Fresh owed c.outbound c.inflight) : Fresh owed d.outbound d.inflight := by
  have hkeeps : d.Orderly ∧ Fresh owed d.outbound d.inflight := by
    refine h.keeps (I := fun e => e.Orderly ∧ Fresh owed e.outbound e.inflight)
      (fun hstep he => ?_) ⟨hc, hf⟩
    obtain ⟨t, hnumbered⟩ := he.1.numbered
    exact ⟨hstep.orderly he.1, hstep.fresh hg hnumbered he.2⟩
  exact hkeeps.2

/-- The answer excuses the packet that was resent. -/
theorem HearsClosed.fresh {datagram : Bytes} {owed : Bool} (h : c.HearsClosed datagram)
    (hc : c.Orderly) (hf : Fresh owed c.outbound c.inflight) (now : Int) :
    Fresh false (c.receive datagram now).2.outbound (c.receive datagram now).2.inflight := by
  obtain ⟨s, hs, hack, hacked, hwindow⟩ := h
  obtain ⟨t, hnumbered⟩ := hc.numbered
  cases hd : c.destroyed with
  | true =>
    have hsame : (c.receive datagram now).2 = c := by rw [receive, if_pos hd]
    rw [hsame]
    exact ⟨hf.waiting, by rw [hnumbered.cleared hd]; simp⟩
  | false =>
    have hclosed : Fresh false c.closed.outbound c.closed.inflight :=
      hf.noteClosed (hnumbered.conveys hd) hnumbered.counts
    rw [receive_closed hd hs hack hacked hnumbered.counts.acked_le hwindow]
    split
    · exact hclosed
    next hbare =>
      let g : Grant := { hears := fun _ => True, sends := False, times := False }
      have hstep : Step g c c.closed := step_closed trivial hd trivial hack hacked hwindow
      have hsteps : Steps g c.closed (c.closed.handleData s now).2 :=
        handleData_steps (c := c.closed) trivial hd trivial (by simpa using hbare) now
      exact hsteps.fresh (fun h => h) (hstep.orderly hc) hclosed

/-! ## Runs -/

/-- What `may` be done to `c` makes `d` of it, where each pass of the timer that resends something
is answered, before the next pass, by a datagram that closes the window. An answer is `owed` after
such a pass. -/
inductive Answered (may : Connection σ → Deed σ → Prop) (c : Connection σ) :
    Bool → Connection σ → Prop
  | start : Answered may c false c
  | act {owed : Bool} {d : Connection σ} {x : Deed σ} : Answered may c owed d → may d x →
      x.isPass = false → Answered may c owed (d.perform x)
  | answer {owed : Bool} {d : Connection σ} {datagram : Bytes} {now : Int} :
      Answered may c owed d → d.HearsClosed datagram →
      Answered may c false (d.perform (.receive datagram now))
  | pass {d : Connection σ} {now : Int} {busy : Bool} : Answered may c false d →
      may d (.timerPass now busy) →
      Answered may c (d.timerPass now busy).1.hasResent (d.perform (.timerPass now busy))

/-- The timer passes only when there is at most one packet in flight. -/
def OneInFlight (c : Connection σ) (x : Deed σ) : Prop :=
  x.isPass = true → c.inflight.entries.toList.length ≤ 1

/-- Nothing is done but that the timer passes. -/
def Idle (_ : Connection σ) (x : Deed σ) : Prop := x.isPass = true

/-- The connection is never given up while its timer passes and each pass is answered. -/
def Spared (c : Connection σ) : Prop :=
  ∀ d, Answered Idle c false d → ∀ now busy, (d.timerPass now busy).1.isDead = false

variable {may : Connection σ → Deed σ → Prop} {owed : Bool}

theorem Answered.trans (h : Answered may c false d) (h' : Answered may d owed e) :
    Answered may c owed e := by
  induction h' with
  | start => exact h
  | act _ hmay hx ih => exact ih.act hmay hx
  | answer _ hears ih => exact ih.answer hears
  | pass _ hmay ih => exact ih.pass hmay

theorem Answered.orderly (h : Answered may c owed d) (hc : c.Orderly) : d.Orderly := by
  induction h with
  | start => exact hc
  | act _ _ _ ih => exact ih.perform _
  | answer _ _ ih => exact ih.perform _
  | pass _ _ ih => exact ih.perform _

theorem Answered.config_eq (h : Answered may c owed d) : d.config = c.config := by
  induction h with
  | start => rfl
  | act _ _ _ ih => exact (config_perform _ _).trans ih
  | answer _ _ ih => exact (config_perform _ _).trans ih
  | pass _ _ ih => exact (config_perform _ _).trans ih

/-! ## One packet in flight -/

/-- The only packet in flight may be resent once more, and then an answer is owed. -/
theorem Orderly.pass (hc : c.Orderly) (hf : Fresh false c.outbound c.inflight)
    (hone : c.inflight.entries.toList.length ≤ 1) (hmax : 1 ≤ c.config.maxResends) (now : Int)
    (busy : Bool) : (c.timerPass now busy).1.isDead = false ∧
      Fresh (c.timerPass now busy).1.hasResent (c.timerPass now busy).2.outbound
        (c.timerPass now busy).2.inflight := by
  rcases c.timerPass_rest_or now busy with ⟨hresent, halive, heq | heq⟩ | ⟨hd, hl, rfl⟩
  · rw [hresent, heq]
    exact ⟨halive, hf⟩
  · rw [hresent, heq]
    refine ⟨halive, ?_⟩
    let g : Grant := { hears := fun _ => True, times := False }
    exact Steps.fresh (destroy_steps c : Steps g c c.destroy) (fun h => h) hc hf
  · rcases timerPass_cases hd hl with ⟨-, endpoint, halive, hresent, heq⟩ | ⟨x, hx, hexhausted, -⟩
    · rw [hresent, heq]
      refine ⟨halive, hf.waiting, fun x hx => ?_⟩
      simp only [Queue.toList_ofList] at hx
      cases hover : c.inflight.entries.toList.any (·.isOverdue now c.config) with
      | true =>
        -- there is nothing behind the packet that was resent
        rw [hover, List.drop_eq_nil_of_le (by simpa using hone)] at hx
        cases hx
      | false =>
        rw [hover] at hx
        obtain ⟨y, hy, rfl⟩ := List.mem_map.mp hx
        have hnot : y.isOverdue now c.config = false := by
          simpa using List.any_eq_false.mp hover y hy
        rw [SentPacket.restamped_of_not_overdue hnot]
        exact hf.flying y hy
    · have hzero : x.resends = 0 := hf.flying x hx
      unfold SentPacket.isExhausted at hexhausted
      rw [decide_eq_true_eq] at hexhausted
      omega

/-- As long as the timer finds at most one packet in flight, packets stay fresh. -/
theorem Answered.fresh (h : Answered OneInFlight c owed d) (hc : c.Orderly)
    (hf : Fresh false c.outbound c.inflight) (hmax : 1 ≤ c.config.maxResends) :
    Fresh owed d.outbound d.inflight := by
  induction h with
  | start => exact hf
  | @act owed d x hd _ hx ih =>
    rcases perform_steps d x with hsteps | ⟨change, rfl⟩
    · exact hsteps.fresh (by rw [show x.grant.times = (x.isPass = true) from rfl, hx]; simp)
        (hd.orderly hc) ih
    · exact ⟨ih.waiting, ih.flying⟩
  | answer hd hears ih => exact hears.fresh (hd.orderly hc) ih _
  | pass hd hmay ih =>
    exact ((hd.orderly hc).pass ih (hmay rfl) (by rw [hd.config_eq]; exact hmax) _ _).2

/-- While the timer passes, no packet comes to the one in flight. -/
theorem Answered.oneInFlight (h : Answered Idle c owed d)
    (hone : c.inflight.entries.toList.length ≤ 1) :
    Answered OneInFlight c owed d ∧ d.inflight.entries.toList.length ≤ 1 := by
  induction h with
  | start => exact ⟨.start, hone⟩
  | act _ hmay hx =>
    rw [hmay] at hx
    cases hx
  | answer _ hears ih => exact ⟨ih.1.answer hears, Nat.le_trans (length_perform_le _ rfl) ih.2⟩
  | pass _ _ ih => exact ⟨ih.1.pass fun _ => ih.2, Nat.le_trans (length_perform_le _ rfl) ih.2⟩

/-! ## Several packets in flight -/

/-- What a peer without room answers. -/
def closing (c : Connection σ) : Segment :=
  (Numbering.start 0 0).ack (UInt32.ofNat c.inflight.acked)

omit [Endpoint σ] in
theorem decode_closing (c : Connection σ) : Segment.decode c.closing.encode = .ok c.closing :=
  Segment.decode_encode (Segment.sound_sealed (Nat.zero_le _))

omit [Endpoint σ] in
theorem Orderly.ackno_closing (h : c.Orderly) : c.closing.ackno.toNat = c.inflight.acked := by
  obtain ⟨⟨t, hnumbered⟩, -⟩ := h
  have hcounts := hnumbered.counts
  have hle : c.inflight.acked ≤ lastPosition :=
    Nat.le_trans hcounts.acked_le (Nat.le_trans hcounts.sent_le hcounts.next_le)
  unfold lastPosition at hle
  show (UInt32.ofNat c.inflight.acked).toNat = c.inflight.acked
  rw [UInt32.toNat_ofNat']
  exact Nat.mod_eq_of_lt (by omega)

omit [Endpoint σ] in
theorem entries_closed (h : c.inflight.acked ≤ c.inflight.sent) :
    c.closed.inflight.entries.toList =
      c.inflight.entries.toList.modifyHead (·.excused c.inflight.acked 0) := by
  unfold closed Inflight.noteWindow
  rw [if_neg (by omega)]
  exact Queue.toList_modifyHead _ _

/-- A peer without room can always answer. -/
theorem Answered.closed (h : Answered may c owed d) (hd : d.Orderly) (live : d.destroyed = false) :
    Answered may c false d.closed := by
  obtain ⟨t, hnumbered⟩ := hd.numbered
  have hack : d.closing.flags.contains .ack = true := show Flags.ack.contains .ack = true by decide
  have hbare : d.closing.isBareAck = true := by
    show ([] : Bytes).isEmpty && !d.closing.hasFin
    rw [show d.closing.hasFin = false from ((Numbering.start 0 0).span_data _ []).1]
    rfl
  have hanswer : Answered may c false (d.perform (.receive d.closing.encode 0)) :=
    h.answer ⟨_, d.decode_closing, hack, hd.ackno_closing, rfl⟩
  have hclosed : d.perform (.receive d.closing.encode 0) = d.closed := by
    show (d.receive d.closing.encode 0).2 = d.closed
    rw [receive_closed live d.decode_closing hack hd.ackno_closing hnumbered.counts.acked_le rfl,
      if_pos hbare]
  rwa [hclosed] at hanswer

/-- With two packets in flight there is a pass that gives the connection up, or one that resends
both, and the answer then excuses only the first. -/
theorem Orderly.resends_grow {a b : SentPacket} {l : List SentPacket} (hc : c.Orderly)
    (live : c.destroyed = false) (hl : c.inflight.entries.toList = a :: b :: l) :
    (∃ now, (c.timerPass now false).1.isDead = true) ∨
      b.resends < c.config.maxResends ∧ ∃ d a' b' l', Answered Idle c false d ∧
        d.destroyed = false ∧ d.inflight.entries.toList = a' :: b' :: l' ∧
        b'.resends = b.resends + 1 := by
  obtain ⟨now, hover⟩ := SentPacket.exists_overdue c.config c.inflight.entries.toList
  have hopen : c.hasLingered now = false := hc.hasLingered_eq_false live (by simp [hl]) now
  have hb : b ∈ c.inflight.entries.toList := by simp [hl]
  rcases timerPass_cases live hopen with ⟨hall, endpoint, -, -, heq⟩ | ⟨x, -, -, hdead, -⟩
  · right
    have hless : b.resends < c.config.maxResends := by
      have hfine := hall b hb (hover b hb)
      unfold SentPacket.isExhausted at hfine
      simpa using hfine
    have hpass : Answered Idle c _ (c.perform (.timerPass now false)) := .pass .start rfl
    have horderly : (c.perform (.timerPass now false)).Orderly := hc.perform _
    have hd : c.perform (.timerPass now false) = _ := heq
    rw [hd] at hpass horderly
    obtain ⟨t, hnumbered⟩ := horderly.numbered
    have hanswer := hpass.closed horderly live
    refine ⟨hless, _, (a.restamped now c.config).excused c.inflight.acked 0,
      b.restamped now c.config, l.map (·.restamped now c.config), hanswer, live, ?_, ?_⟩
    · rw [entries_closed hnumbered.counts.acked_le]
      simp only [Queue.toList_ofList, hl, List.map_cons, List.modifyHead_cons]
    · rw [SentPacket.restamped_of_overdue (hover b hb)]
      rfl
  · left
    exact ⟨now, by rw [hdead]; rfl⟩

/-- With two packets in flight the connection is given up in the end. The second is resent again and
again, as often as it may be. -/
theorem Orderly.not_spared {a b : SentPacket} {l : List SentPacket} {k : Nat} (hc : c.Orderly)
    (live : c.destroyed = false) (hl : c.inflight.entries.toList = a :: b :: l)
    (hk : c.config.maxResends ≤ b.resends + k) :
    ∃ d, Answered Idle c false d ∧ ∃ now, (d.timerPass now false).1.isDead = true := by
  induction k generalizing c a b l with
  | zero =>
    rcases hc.resends_grow live hl with hdead | ⟨hless, -⟩
    · exact ⟨c, .start, hdead⟩
    · omega
  | succ k ih =>
    rcases hc.resends_grow live hl with hdead | ⟨-, d, a', b', l', hd, hlive, hdl, hb'⟩
    · exact ⟨c, .start, hdead⟩
    · obtain ⟨e, he, hdead⟩ := ih (hd.orderly hc) hlive hdl (by rw [hd.config_eq]; omega)
      exact ⟨e, hd.trans he, hdead⟩

/-! ## The two together -/

/-- Where the timer has found at most one packet in flight until now, a peer whose window stays
closed is waited for without end if and only if there is at most one packet in flight now. -/
theorem spared_iff_one_in_flight {id : Nat} {config : Config} {valid : config.Valid} {endpoint : σ}
    (hmax : 1 ≤ config.maxResends)
    (h : Answered OneInFlight (created id config valid endpoint) false c) :
    c.Spared ↔ c.inflight.entries.toList.length ≤ 1 := by
  have hcreated := orderly_created id valid endpoint
  have hc : c.Orderly := h.orderly hcreated
  have hfresh : Fresh false (created id config valid endpoint).outbound
      (created id config valid endpoint).inflight :=
    ⟨fun p hp => (by cases hp), fun x hx => by cases hx⟩
  constructor
  · intro hspared
    by_contra hmany
    match hl : c.inflight.entries.toList with
    | [] => exact hmany (by simp [hl])
    | [_] => exact hmany (by simp [hl])
    | a :: b :: l =>
      obtain ⟨t, hnumbered⟩ := hc.numbered
      have live : c.destroyed = false := by
        by_contra hdead
        rw [hnumbered.cleared (by simpa using hdead)] at hl
        cases hl
      obtain ⟨d, hd, now, hdead⟩ :=
        hc.not_spared live hl (Nat.le_add_left c.config.maxResends b.resends)
      rw [hspared d hd now false] at hdead
      cases hdead
  · intro hone d hd now busy
    obtain ⟨hrun, hle⟩ := hd.oneInFlight hone
    have hall := h.trans hrun
    exact ((hall.orderly hcreated).pass (hall.fresh hcreated hfresh hmax) hle
      (by rw [hall.config_eq]; exact hmax) now busy).1

/-! ### One letter and two

Each letter is a packet of its own, and may be resent once. -/

def hasty : Config := { maxPayload := 1, sendWindow := 10, maxResends := 1 }

theorem valid_hasty : hasty.Valid := Config.check_eq_ok_iff.mp (by decide)

/-- The connection has read the input and sent it. -/
def uttered (input : Bytes) : Connection InMemory :=
  ((created 1 hasty valid_hasty { input }).perform (.read 0 true)).perform (.senderTurn 0)

theorem answered_uttered {may : Connection InMemory → Deed InMemory → Prop}
    (hmay : ∀ c x, x.isPass = false → may c x) (input : Bytes) :
    Answered may (created 1 hasty valid_hasty { input }) false (uttered input) :=
  (Answered.start.act (hmay _ _ rfl) rfl).act (hmay _ _ rfl) rfl

theorem letters_spared : (uttered [97]).Spared ∧ ¬ (uttered [97, 98]).Spared := by
  have hone (input : Bytes) : Answered OneInFlight (created 1 hasty valid_hasty { input }) false
      (uttered input) := answered_uttered (fun c x hx hpass => by simp [hx] at hpass) input
  constructor
  · exact (spared_iff_one_in_flight (by decide) (hone [97])).mpr (by decide +kernel)
  · intro h
    have hle := (spared_iff_one_in_flight (by decide) (hone [97, 98])).mp h
    have hlength : (uttered [97, 98]).inflight.entries.toList.length = 2 := by decide +kernel
    omega

/-- When the answer comes both letters have been resent. It excuses the first only, so the second
ends the connection at the next pass. -/
theorem not_always_spared : ¬ ∀ (config : Config) (valid : config.Valid) (endpoint : InMemory)
    (d : Connection InMemory), 1 ≤ config.maxResends →
      Answered (fun _ _ => True) (created 1 config valid endpoint) false d →
      ∀ now busy, (d.timerPass now busy).1.isDead = false := by
  intro h
  let late : Int := Duration.ofMillis 201
  let resent := (uttered [97, 98]).perform (.timerPass late false)
  let answered := resent.perform (.receive (uttered [97, 98]).closing.encode late)
  have hresent : Answered (fun _ _ => True) (created 1 hasty valid_hasty { input := [97, 98] }) _
      resent := (answered_uttered (fun _ _ _ => trivial) [97, 98]).pass trivial
  have hanswered : Answered (fun _ _ => True)
      (created 1 hasty valid_hasty { input := [97, 98] }) false answered :=
    hresent.answer ⟨_, decode_closing _, by decide, by decide +kernel, rfl⟩
  have halive := h hasty valid_hasty _ answered (by decide) hanswered (late + late) false
  have hdead : (answered.timerPass (late + late) false).1.isDead = true := by decide +kernel
  rw [hdead] at halive
  cases halive

end Connection

end ReliableStream
