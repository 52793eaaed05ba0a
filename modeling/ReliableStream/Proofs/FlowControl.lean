import ReliableStream.Proofs.Connection.Windows
import ReliableStream.Proofs.Transfer

/-!
# Flow control between two connections

`a` sends data to `b`, over a network that loses, repeats and reorders what it carries. What `a`
knows about the window of `b` may be long out of date, and the acknowledgments that it was told may
come in any order. But it has it all from one datagram of `b`, and the end of the window of `b`
never moves back. So once `a` has taken note of an acknowledgment and the window that came with it,
the window ends at `b` no earlier than `a` believes (`Controlled`).

* `Paced.left`, `Paced.right`, `Controlled.left`, `Controlled.right`: each step on either side keeps
  the agreement.
* `flow_controlled`: what follows for the windows, and for the data that `a` sends from then on.
-/

namespace ReliableStream

/-- Where the window of the peer ends, as far as we know. -/
def Inflight.peerEdge (f : Inflight) : Nat := f.believed.1 + f.believed.2

namespace Connection

variable {σ τ : Type} [Endpoint σ] [Endpoint τ] {g : Grant} {t : Source}
  {a a' a₀ : Connection (Recorded σ)} {b b' b₀ : Connection (Recorded τ)}

/-! ## Pace -/

/-- The two agree about the source `t`, and the number of bytes in flight is right. -/
structure Paced (t : Source) (a : Connection (Recorded σ)) (b : Connection (Recorded τ)) : Prop
    extends Transfer t a b where
  metered : Metered a.inflight a.config.sendWindow

omit [Endpoint σ] [Endpoint τ] in
theorem Paced.accounted (h : Paced t a b) : a.Accounted t := ⟨h.sending, h.metered⟩

omit [Endpoint τ] in
theorem Paced.left (h : Paced t a b) (hg : ∀ s, g.hears s → SentAs b.endpoint.sent s)
    (hs : Step g a a') : ∃ u, Paced u a' b := by
  obtain ⟨u, htransfer⟩ := h.toTransfer.left hg hs
  exact ⟨u, htransfer, hs.metered h.accounted.toNumbered h.metered⟩

omit [Endpoint σ] in
theorem Paced.right (h : Paced t a b) (hg : ∀ s, g.hears s → SentAs a.endpoint.sent s)
    (hs : Step g b b') : Paced t a b' ∧ b.received.Advances b'.received := by
  obtain ⟨htransfer, hadvances⟩ := h.toTransfer.right hg hs
  exact ⟨⟨htransfer, h.metered⟩, hadvances⟩

omit [Endpoint σ] [Endpoint τ] in
theorem Paced.adjust_left (h : Paced t a b) (inner : σ) :
    Paced t { a with endpoint := { a.endpoint with inner } } b :=
  ⟨h.toTransfer.adjust_left inner, h.metered⟩

omit [Endpoint σ] [Endpoint τ] in
theorem Paced.adjust_right (h : Paced t a b) (inner : τ) :
    Paced t a { b with endpoint := { b.endpoint with inner } } :=
  ⟨h.toTransfer.adjust_right inner, h.metered⟩

theorem Linked.paced (h : Linked a b) : ∃ t, Paced t a b := by
  obtain ⟨id, id', valid, valid', inner, inner', hexchange⟩ := h
  refine hexchange.rule (I := fun a b => ∃ t, Paced t a b)
    (fun hg hs ⟨_, hp⟩ => hp.left hg hs) (fun hg hs ⟨t, hp⟩ => ⟨t, (hp.right hg hs).1⟩)
    (fun inner ⟨t, hp⟩ => ⟨t, hp.adjust_left inner⟩)
    (fun inner ⟨t, hp⟩ => ⟨t, hp.adjust_right inner⟩) ⟨{}, ?_⟩
  exact ⟨transfer_created id id' valid valid' inner inner', rfl, Nat.zero_le _⟩

/-- In the course of an exchange nothing that was sent is forgotten, and the window does not move
back. -/
theorem Exchange.lasts (h : Exchange a b a' b') (hp : Paced t a b) :
    (∃ u, Paced u a' b') ∧ a.endpoint.sent <+: a'.endpoint.sent ∧
      b.received.windowEnd ≤ b'.received.windowEnd := by
  refine h.rule (I := fun a' b' => (∃ u, Paced u a' b') ∧
    a.endpoint.sent <+: a'.endpoint.sent ∧ b.received.windowEnd ≤ b'.received.windowEnd)
    ?_ ?_ ?_ ?_ ⟨⟨t, hp⟩, List.prefix_rfl, Nat.le_refl _⟩
  · intro g a₁ a₂ b₁ hg hs ⟨⟨u, hpaced⟩, hprefix, hle⟩
    exact ⟨hpaced.left hg hs, hprefix.trans hs.utters.prefix, hle⟩
  · intro g a₁ b₁ b₂ hg hs ⟨⟨u, hpaced⟩, hprefix, hle⟩
    obtain ⟨hnext, hadvances⟩ := hpaced.right hg hs
    exact ⟨⟨u, hnext⟩, hprefix, Nat.le_trans hle hadvances.windowEnd_le⟩
  · intro a₁ b₁ inner ⟨⟨u, hpaced⟩, hprefix, hle⟩
    exact ⟨⟨u, hpaced.adjust_left inner⟩, hprefix, hle⟩
  · intro a₁ b₁ inner ⟨⟨u, hpaced⟩, hprefix, hle⟩
    exact ⟨⟨u, hpaced.adjust_right inner⟩, hprefix, hle⟩

/-! ## Control -/

/-- The window of `b` ends no earlier than `a` believes. -/
structure Controlled (t : Source) (a : Connection (Recorded σ)) (b : Connection (Recorded τ)) :
    Prop extends Paced t a b where
  within : a.inflight.peerEdge ≤ b.received.edge

omit [Endpoint σ] [Endpoint τ] in
/-- What `b` has said it keeps. -/
theorem Transfer.kept {s : Segment} (h : Transfer t a b) (hs : SentAs b.endpoint.sent s) :
    s.ackno.toNat + s.window.toNat ≤ b.received.edge := by
  obtain ⟨datagram, hmem, hdecode⟩ := hs
  exact ((h.acking.sent datagram hmem).of_decode hdecode).2

omit [Endpoint τ] in
theorem Controlled.left (h : Controlled t a b) (hg : ∀ s, g.hears s → SentAs b.endpoint.sent s)
    (hs : Step g a a') : ∃ u, Controlled u a' b := by
  obtain ⟨u, hpaced⟩ := h.toPaced.left hg hs
  refine ⟨u, hpaced, ?_⟩
  rcases hs.believed_cases with heq | ⟨s, hears, -, -, -, -, heq⟩
  · rw [Inflight.peerEdge, heq]
    exact h.within
  · rw [Inflight.peerEdge, heq]
    exact h.kept (hg s hears)

omit [Endpoint σ] in
theorem Controlled.right (h : Controlled t a b) (hg : ∀ s, g.hears s → SentAs a.endpoint.sent s)
    (hs : Step g b b') : Controlled t a b' := by
  obtain ⟨hpaced, hadvances⟩ := h.toPaced.right hg hs
  exact ⟨hpaced, Nat.le_trans h.within hadvances.edge_le⟩

theorem Exchange.controlled (h : Exchange a b a' b') (hc : Controlled t a b) :
    ∃ u, Controlled u a' b' :=
  h.rule (I := fun a b => ∃ t, Controlled t a b) (fun hg hs ⟨_, hc⟩ => hc.left hg hs)
    (fun hg hs ⟨t, hc⟩ => ⟨t, hc.right hg hs⟩)
    (fun inner ⟨t, hc⟩ => ⟨t, hc.toPaced.adjust_left inner, hc.within⟩)
    (fun inner ⟨t, hc⟩ => ⟨t, hc.toPaced.adjust_right inner, hc.within⟩) ⟨t, hc⟩

omit [Endpoint τ] in
/-- Control begins with the first note. -/
theorem Paced.controlled {datagram : Bytes} (h : Paced t a b) (hsent : datagram ∈ b.endpoint.sent)
    (hnote : a.TakesNote datagram) (now : Int) :
    ∃ u, Controlled u (a.perform (.receive datagram now)) b := by
  have htakes := hnote
  obtain ⟨-, s, hdecode, -⟩ := htakes
  let g : Grant := { hears := fun s => Segment.decode datagram = .ok s }
  have hsteps : Steps g a (a.perform (.receive datagram now)) :=
    receive_steps trivial trivial a datagram now fun s hs => hs
  obtain ⟨u, hpaced⟩ := hsteps.keeps (I := fun a => ∃ u, Paced u a b)
    (fun hstep ⟨_, hp⟩ => hp.left (fun s hs => ⟨datagram, hsent, hs⟩) hstep) ⟨t, h⟩
  refine ⟨u, hpaced, ?_⟩
  have hword : (a.perform (.receive datagram now)).inflight.believed =
      (s.ackno.toNat, s.window.toNat) := believed_receive hnote hdecode now
  rw [Inflight.peerEdge, hword]
  exact h.kept ⟨datagram, hsent, hdecode⟩

/-! ## Room -/

omit [Endpoint σ] [Endpoint τ] in
/-- What `a` sends next, and has to lie within the window that it knows of, lies within that of
`b`. -/
theorem Controlled.le_windowEnd {n : Nat} (h : Controlled t a b) (hsent : a.inflight.sent < n)
    (hn : n ≤ a.inflight.acked + a.inflight.peerWindow) : n ≤ b.received.windowEnd := by
  have hcap : b.received.capacity ≤ 65535 := by
    rw [h.receiving.capacity_eq]
    exact b.valid.receiveWindow_le
  have hedge := Reassembly.edge_eq h.receiving.follows.delivered_le hcap
  have hwithin := h.within
  have hexp := h.expected_le_sent
  unfold Inflight.peerEdge Inflight.believed at hwithin
  omega

omit [Endpoint σ] [Endpoint τ] in
/-- What was sent before the end of the window is taken in as a whole. -/
theorem Transfer.fits {s : Segment} (h : Transfer t a b) (hs : SentAs a.endpoint.sent s)
    (hne : s.payload ≠ []) (hroom : s.start + s.payload.length ≤ b.received.windowEnd) :
    b.received.isBeyondWindow s = false ∧ s.start + s.payload.length ≤ b.received.limit := by
  refine ⟨Reassembly.not_isBeyondWindow hroom, ?_⟩
  obtain ⟨datagram, hmem, hdecode⟩ := hs
  rcases (h.sending.sent datagram hmem).of_decode hdecode with hbare | ⟨hcarried, -⟩
  · simp only [Segment.isBareAck, Bool.and_eq_true, List.isEmpty_iff] at hbare
    exact absurd hbare.1 hne
  · exact h.receiving.follows_stream.toConsistent.le_limit hcarried.payload_le hroom

/-- The datagram brings a data segment that the window of the peer had to have room for: something
was in flight, or that window was large enough for it. -/
structure Pressed (f : Inflight) (datagram : Bytes) (s : Segment) : Prop where
  decoded : Segment.decode datagram = .ok s
  data : s.payload ≠ []
  pressed : f.entries.toList = [] → s.payload.length ≤ f.peerWindow

/-- Once `a` has taken note of an acknowledgment of `b` and the window that came with it, the window
of `b` ends no earlier than `a` believes, as far as the two may go from there. So whatever data `a`
sends for the first time, apart from a segment that is sent while nothing is in flight and exceeds
the window of `b`, is never found to be beyond that window whenever it arrives, and nothing that `b`
has not received yet is cut off it. -/
theorem flow_controlled {datagram : Bytes} {now : Int} (hlinked : Linked a₀ b₀)
    (hsent : datagram ∈ b₀.endpoint.sent) (hnote : a₀.TakesNote datagram)
    (h : Exchange (a₀.perform (.receive datagram now)) b₀ a b) :
    a.inflight.acked + a.inflight.peerWindow ≤
      b.received.expected + b.received.window.toNat ∧
    ∀ m : Move (Recorded σ), m.isTurn = true → ∀ x ∈ a.sentUntil (a.move m),
      (∃ now d, SentAt now a d x) ∧
      ∀ now d s, SentAt now a d x → Pressed d.inflight x s →
        ∀ a' b', Exchange (a.move m) b a' b' →
          (b'.received.insert s).1 ≠ .outOfWindow ∧
          b'.received.usable? s =
            if b'.received.expected < s.start + s.payload.length then
              some ⟨max s.start b'.received.expected,
                s.payload.drop (max s.start b'.received.expected - s.start)⟩
            else none := by
  obtain ⟨t₀, hpaced⟩ := hlinked.paced
  obtain ⟨t₁, hbegin⟩ := hpaced.controlled hsent hnote now
  obtain ⟨t, hc⟩ := h.controlled hbegin
  refine ⟨hc.within, fun m hturn x hx => ⟨exists_sentAt hturn hx, ?_⟩⟩
  intro now d s hat hs a' b' hlater
  -- at `d`, where the datagram is sent, the two are still under control
  let g : Grant := { hears := fun _ => False }
  have hsteps : Steps g a d := hat.steps trivial
  obtain ⟨u, hd⟩ : ∃ u, Controlled u d b :=
    hsteps.keeps (I := fun a => ∃ u, Controlled u a b)
      (fun hstep ⟨_, hc⟩ => hc.left (g := g) (fun s hears => hears.elim) hstep) ⟨t, hc⟩
  obtain ⟨hstart, hadmits⟩ := (hat.admitted hc.accounted).of_decode hs.decoded
  have hpos := List.length_pos_iff.mpr hs.data
  have hroom : s.start + s.payload.length ≤ b.received.windowEnd := by
    refine hd.le_windowEnd (by omega) ?_
    rcases hadmits with hnil | ⟨hnil, hsmall⟩ | hle
    · exact absurd hnil hs.data
    · have := hs.pressed hnil
      omega
    · exact hle
  -- and whenever it arrives, it was sent, and the window has not moved back
  obtain ⟨⟨v, hmoved⟩, -, -⟩ :=
    (Exchange.start.left (Move.allowed_of_isTurn hturn b.endpoint.sent)).lasts hc.toPaced
  obtain ⟨⟨v', harrives⟩, hprefix, hend⟩ := hlater.lasts hmoved
  have hsaid : SentAs a'.endpoint.sent s :=
    ⟨x, hprefix.subset (List.mem_of_mem_drop hx), hs.decoded⟩
  obtain ⟨hbeyond, hlimit⟩ := harrives.fits hsaid hs.data (by omega)
  exact ⟨Reassembly.insert_ne_outOfWindow hbeyond, Reassembly.usable?_of_room hs.data hlimit⟩

/-! ### The third letter

The first letter has arrived, the third is sent when its acknowledgment does. -/

def asker : Connection (Recorded InMemory) :=
  ((created 1 narrow valid_narrow { inner := { input := [97, 98, 99] } }).move
    (.deed (.read 0 true))).move (.deed (.senderTurn 0))

def keeper : Connection (Recorded InMemory) :=
  (created 2 narrow valid_narrow { inner := {} }).move (.deed (.receive (asker.said 0) 0))

/-- The one that asked has got an answer. -/
def knower : Connection (Recorded InMemory) := asker.perform (.receive (keeper.said 0) 0)

theorem linked_asker_keeper : Linked asker keeper := by
  refine .right (.left (.left (.created 1 2 valid_narrow valid_narrow _ _) ?_) ?_) ?_
  · trivial
  · trivial
  · exact .inl (by decide +kernel)

theorem third_letter_has_room :
    knower.inflight.acked + knower.inflight.peerWindow ≤
      keeper.received.expected + keeper.received.window.toNat ∧
    Segment.decode ((knower.move (.sendNext 0)).said 2) =
      .ok (Segment.sealed 3 1 .ack 1440 [99]) ∧
    (keeper.received.insert (Segment.sealed 3 1 .ack 1440 [99])).1 ≠ .outOfWindow := by
  have hnote : asker.TakesNote (keeper.said 0) :=
    ⟨by decide +kernel, Segment.sealed 1 2 .ack 1440 [], by decide +kernel, by decide +kernel,
      by decide +kernel, by decide +kernel⟩
  have hstart : Exchange knower keeper knower keeper := .start
  obtain ⟨hwithin, hroom⟩ := flow_controlled linked_asker_keeper (by decide +kernel) hnote hstart
  have hsaid : (knower.move (.sendNext 0)).said 2 ∈
      knower.sentUntil (knower.move (.sendNext 0)) := by decide +kernel
  obtain ⟨e, he⟩ := Option.isSome_iff_exists.mp
    (show (knower.sendNext? 0).isSome = true by decide +kernel)
  have hmove : knower.move (.sendNext 0) = e := by
    show (knower.sendNext? 0).getD knower = e
    rw [he, Option.getD_some]
  have hat : SentAt 0 knower knower ((knower.move (.sendNext 0)).said 2) :=
    .of_sendNext? he (by rw [← hmove]; exact hsaid)
  have hpressed : Pressed knower.inflight ((knower.move (.sendNext 0)).said 2)
      (Segment.sealed 3 1 .ack 1440 [99]) :=
    ⟨by decide +kernel, by decide, by decide +kernel⟩
  exact ⟨hwithin, hpressed.decoded,
    ((hroom (.sendNext 0) rfl _ hsaid).2 0 knower _ hat hpressed _ _ .start).1⟩

end Connection

end ReliableStream
