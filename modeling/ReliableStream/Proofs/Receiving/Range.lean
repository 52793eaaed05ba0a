import ReliableStream.Proofs.Receiving.Bounds
import ReliableStream.Proofs.Segment.Decoding

/-!
# Numbers of a machine

Positions have 32 bits, and lengths and the sums of positions and lengths 64. Here each operation of
a buffer is done again by sums and differences that fail where the result has no such number, and by
`Bytes.slice?`, which fails where the bytes are not there. On a `Bounded` buffer none of them fails
(`Bounded.checkedInsert_eq`, `Bounded.checkedDeliver_eq`, `Bounded.checkedWindow_eq`).

`window_discipline` is what a buffer promises to any peer.
-/

namespace ReliableStream

/-- The largest number of 64 bits. -/
def maxWord : Nat := 0xFFFFFFFFFFFFFFFF

/-- The longest that bytes in memory can be. -/
def maxBytes : Nat := 0x7FFFFFFFFFFFFFFF

/-- `m + n`, unless it is above `top`. -/
def sum? (top m n : Nat) : Option Nat := if m + n ≤ top then some (m + n) else none

/-- `m - n`, unless it is below zero. -/
def difference? (m n : Nat) : Option Nat := if n ≤ m then some (m - n) else none

/-- `n` as a narrower number, unless it is above `top`. -/
def narrow? (top n : Nat) : Option Nat := if n ≤ top then some n else none

theorem sum?_eq {top m n : Nat} (h : m + n ≤ top) : sum? top m n = some (m + n) := if_pos h

theorem difference?_eq {m n : Nat} (h : n ≤ m) : difference? m n = some (m - n) := if_pos h

theorem narrow?_eq {top n : Nat} (h : n ≤ top) : narrow? top n = some n := if_pos h

/-- As `Fragment.stop`. -/
def Fragment.stop? (f : Fragment) : Option Nat := do
  let length ← narrow? lastPosition f.bytes.length
  sum? lastPosition f.start length

theorem Fragment.stop?_eq {f : Fragment} (h : f.stop ≤ lastPosition) : f.stop? = some f.stop := by
  unfold Fragment.stop at h
  rw [Fragment.stop?, narrow?_eq (by omega)]
  exact sum?_eq h

/-- As `drain`, with the number of bytes that the sink took before. -/
def checkedDrain {σ : Type} (take : σ → Bytes → Nat × σ) (pending : Queue Fragment)
    (position bytes : Nat) (s : σ) : Option (Drained σ × Nat) :=
  match _h : pending.popIf? (·.start ≤ position) with
  | none => some (⟨pending, position, false, s⟩, bytes)
  | some (f, rest) => do
    let skip ← difference? position f.start
    if f.bytes.length ≤ skip then checkedDrain take rest position bytes s
    else
      let offered ← f.bytes.slice? skip f.bytes.length
      let (answer, s) := take s offered
      let taken := min answer offered.length
      let position ← sum? lastPosition position (← narrow? lastPosition taken)
      let bytes ← sum? maxWord bytes taken
      if taken < offered.length then
        let left ← offered.slice? taken offered.length
        some (⟨Fragment.putIfAbsent ⟨position, left⟩ rest, position, true, s⟩, bytes)
      else checkedDrain take rest position bytes s
termination_by pending.toList.length
decreasing_by
  all_goals
    rw [(Queue.popIf?_eq_some _h).2]
    simp

/-! ## Deliveries -/

section Drain

variable {σ : Type} {take : σ → Bytes → Nat × σ} {pending rest : Queue Fragment} {f : Fragment}
  {position bytes : Nat} {s : σ}

theorem checkedDrain_of_none (h : pending.popIf? (·.start ≤ position) = none) :
    checkedDrain take pending position bytes s = some (⟨pending, position, false, s⟩, bytes) := by
  unfold checkedDrain
  split
  · rfl
  next hsome =>
    rw [h] at hsome
    cases hsome

/-- What `checkedDrain` does with the first fragment, if its end is a position. -/
theorem checkedDrain_of_some (h : pending.popIf? (·.start ≤ position) = some (f, rest))
    (hf : f.stop ≤ lastPosition) (hp : position ≤ lastPosition)
    (hb : bytes + (lastPosition - position) ≤ maxWord) :
    checkedDrain take pending position bytes s =
      let offered := f.bytes.drop (position - f.start)
      if offered.isEmpty then checkedDrain take rest position bytes s
      else
        let (answer, s) := take s offered
        let taken := min answer offered.length
        if taken < offered.length then
          let left : Fragment := ⟨position + taken, offered.drop taken⟩
          some (⟨left.putIfAbsent rest, position + taken, true, s⟩, bytes + taken)
        else checkedDrain take rest (position + taken) (bytes + taken) s := by
  obtain ⟨hstart, -⟩ := Queue.popIf?_eq_some h
  simp only [decide_eq_true_eq] at hstart
  conv_lhs => unfold checkedDrain
  split
  next hnone =>
    rw [h] at hnone
    cases hnone
  next hsome =>
    rw [h] at hsome
    obtain ⟨rfl, rfl⟩ := Prod.mk.inj (Option.some.inj hsome)
    simp only [difference?_eq hstart, Option.bind_eq_bind, Option.bind_some]
    unfold Fragment.stop at hf
    by_cases hused : f.bytes.length ≤ position - f.start
    · have hempty : (f.bytes.drop (position - f.start)).isEmpty = true := by
        simpa using hused
      rw [if_pos hused, if_pos hempty]
    · have hrest : (f.bytes.drop (position - f.start)).isEmpty = false := by
        simpa using hused
      have hlen : (f.bytes.drop (position - f.start)).length =
          f.bytes.length - (position - f.start) := List.length_drop
      rw [if_neg hused, hrest, if_neg (by simp), Bytes.slice?_length (by omega)]
      simp only [Option.bind_some]
      generalize f.bytes.drop (position - f.start) = offered at *
      obtain ⟨answer, s'⟩ := take s offered
      simp only
      have htaken : min answer offered.length ≤ offered.length := Nat.min_le_right _ _
      generalize min answer offered.length = taken at *
      rw [narrow?_eq (by omega), Option.bind_some, sum?_eq (by omega), Option.bind_some,
        sum?_eq (by omega), Option.bind_some, Bytes.slice?_length htaken]
      rfl

/-- No number is too large if the ends of the fragments are positions, and the sink can not take
more bytes than there are positions. -/
theorem checkedDrain_eq (take : σ → Bytes → Nat × σ) (pending : Queue Fragment)
    (position bytes : Nat) (s : σ) (hf : ∀ f ∈ pending.toList, f.stop ≤ lastPosition)
    (hp : position ≤ lastPosition) (hb : bytes + (lastPosition - position) ≤ maxWord) :
    checkedDrain take pending position bytes s = some (drain take pending position s,
      bytes + ((drain take pending position s).position - position)) := by
  fun_induction drain take pending position s generalizing bytes with
  | case1 pending position s hnone =>
    rw [checkedDrain_of_none hnone]
    simp
  | case2 pending position s f rest hpop offered hempty ih =>
    obtain ⟨-, hq⟩ := Queue.popIf?_eq_some hpop
    rw [checkedDrain_of_some hpop (hf f (by simp [hq])) hp hb]
    simp only [offered] at hempty
    simp only [hempty, if_true]
    exact ih bytes (fun g hg => hf g (by simp [hq, hg])) hp hb
  | case3 pending position s f rest hpop offered hne answer s' hs taken htaken left =>
    obtain ⟨-, hq⟩ := Queue.popIf?_eq_some hpop
    rw [checkedDrain_of_some hpop (hf f (by simp [hq])) hp hb]
    refine (if_neg hne).trans ?_
    rw [hs]
    refine (if_pos htaken).trans ?_
    rw [Nat.add_sub_cancel_left]
  | case4 pending position s f rest hpop offered hne answer s' hs taken htaken ih =>
    obtain ⟨hstart, hq⟩ := Queue.popIf?_eq_some hpop
    have hstop := hf f (by simp [hq])
    rw [checkedDrain_of_some hpop hstop hp hb]
    refine (if_neg hne).trans ?_
    rw [hs]
    refine (if_neg htaken).trans ?_
    have hlen : offered.length = f.bytes.length - (position - f.start) := List.length_drop
    have hle : taken ≤ offered.length := Nat.min_le_right _ _
    unfold Fragment.stop at hstop
    simp only [decide_eq_true_eq] at hstart
    have hpos := (drain_spec take rest (position + taken) s').le
    rw [ih (bytes + taken) (fun g hg => hf g (by simp [hq, hg])) (by omega) (by omega)]
    simp only [Option.some.injEq, Prod.mk.injEq, true_and]
    omega

end Drain

namespace Reassembly

variable {r : Reassembly} {s : Segment} {gap : Nat}

/-- As `windowEnd`. -/
def checkedWindowEnd (r : Reassembly) : Option Nat := do
  let stop ← sum? maxWord r.delivered r.capacity
  some (min stop lastPosition)

/-- As `window`. -/
def checkedWindow (r : Reassembly) : Option UInt16 := do
  let windowEnd ← r.checkedWindowEnd
  let free ← narrow? 65535 (min (windowEnd - r.expected) 65535)
  some (UInt16.ofNat free)

/-- As `newFin?`. -/
def checkedNewFin (r : Reassembly) (s : Segment) : Option (Option Nat) := do
  let windowEnd ← r.checkedWindowEnd
  let stop ← sum? maxWord s.start s.payload.length
  if s.hasFin ∧ r.fin.isNone ∧ stop ≤ windowEnd then
    let fin ← narrow? lastPosition stop
    some (if r.expected ≤ fin then some fin else none)
  else some none

/-- As `limit`. -/
def checkedLimit (r : Reassembly) : Option Nat := do
  let windowEnd ← r.checkedWindowEnd
  match r.fin with
  | some fin => some (min windowEnd fin)
  | none => some windowEnd

/-- As `usable?`. -/
def checkedUsable (r : Reassembly) (s : Segment) : Option (Option Fragment) := do
  let limit ← r.checkedLimit
  let payloadEnd ← sum? maxWord s.start s.payload.length
  let stop ← narrow? lastPosition (min payloadEnd limit)
  if r.expected < stop ∧ s.start < stop then
    let start := max s.start r.expected
    let skip ← difference? start s.start
    let length ← difference? stop s.start
    let bytes ← s.payload.slice? skip length
    some (some ⟨start, bytes⟩)
  else some none

/-- As `closeGap`. Each time the ends of all fragments that begin up to the gap are computed. -/
def checkedCloseGap (r : Reassembly) : Option Reassembly := do
  let _ ← (r.pending.filter (·.start ≤ r.expected)).mapM Fragment.stop?
  match _h : r.ahead.popIf? (·.start ≤ r.expected) with
  | none => some r
  | some (f, ahead) =>
    let stop ← f.stop?
    checkedCloseGap { r with acked := r.acked.push f, ahead, expected := max r.expected stop }
termination_by r.ahead.toList.length
decreasing_by
  rw [(Queue.popIf?_eq_some _h).2]
  simp

/-- As `advance`. -/
def checkedAdvance (r : Reassembly) : Option Reassembly := do
  let r ← r.checkedCloseGap
  some { r with
    expected := if r.fin = some r.expected then nextPosition r.expected else r.expected }

/-- As `insert`. -/
def checkedInsert (r : Reassembly) (s : Segment) : Option (Arrival × Reassembly) := do
  let windowEnd ← r.checkedWindowEnd
  if windowEnd < s.start || (s.start == windowEnd && !s.payload.isEmpty) then
    some (.outOfWindow, r)
  else
    let newFin ← r.checkedNewFin s
    let withFin := { r with fin := newFin.or r.fin }
    let usable ← withFin.checkedUsable s
    match usable.bind withFin.store? with
    | some stored => some (.fresh, ← stored.checkedAdvance)
    | none =>
      if newFin.isSome then some (.fresh, ← withFin.checkedAdvance) else some (.duplicate, r)

/-- As `offer`, with the number of bytes that the sink took. -/
def checkedOffer {σ : Type} (r : Reassembly) (take : σ → Bytes → Nat × σ) (s : σ) :
    Option (Bool × Reassembly × σ × Nat) := do
  let (d, bytes) ← checkedDrain take r.acked r.delivered 0 s
  let r := { r with acked := d.pending, delivered := d.position }
  if d.blocked || !d.pending.isEmpty then some (d.blocked, r, d.sink, bytes)
  else
    let (d, bytes) ← checkedDrain take r.ahead r.delivered bytes d.sink
    some (d.blocked, { r with ahead := d.pending, delivered := d.position }, d.sink, bytes)

/-- As `deliver`. -/
def checkedDeliver {σ : Type} (r : Reassembly) (take : σ → Bytes → Nat × σ) (s : σ) :
    Option (Delivery × Reassembly × σ) := do
  let (blocked, after, s, bytes) ← r.checkedOffer take s
  if blocked then some ({ bytes, blocked := true }, after, s)
  else if !after.finished && after.fin == some after.delivered then
    some ({ bytes, eof := true },
      { after with delivered := nextPosition after.delivered, finished := true }, s)
  else some ({ bytes }, after, s)

/-! ## Each operation -/

theorem checkedWindowEnd_eq (hd : r.delivered ≤ lastPosition) (hcap : r.capacity ≤ 65535) :
    r.checkedWindowEnd = some r.windowEnd := by
  have hfits : r.delivered + r.capacity ≤ maxWord := by
    unfold lastPosition at hd
    unfold maxWord
    omega
  rw [checkedWindowEnd, sum?_eq hfits]
  rfl

theorem checkedWindow_eq (hd : r.delivered ≤ lastPosition) (hcap : r.capacity ≤ 65535) :
    r.checkedWindow = some r.window := by
  rw [checkedWindow, checkedWindowEnd_eq hd hcap, Option.bind_eq_bind, Option.bind_some,
    narrow?_eq (Nat.min_le_right _ _)]
  rfl

/-- The end of a payload is a number of 64 bits. -/
theorem payloadEnd_le_maxWord (hs : s.payload.length ≤ maxBytes) :
    s.start + s.payload.length ≤ maxWord := by
  have hlt := s.seqno.toNat_lt
  unfold maxBytes at hs
  unfold maxWord Segment.start
  omega

theorem checkedNewFin_eq (hd : r.delivered ≤ lastPosition) (hcap : r.capacity ≤ 65535)
    (hs : s.payload.length ≤ maxBytes) : r.checkedNewFin s = some (r.newFin? s) := by
  rw [checkedNewFin, checkedWindowEnd_eq hd hcap, sum?_eq (payloadEnd_le_maxWord hs)]
  simp only [Option.bind_eq_bind, Option.bind_some]
  unfold newFin?
  by_cases hroom : s.start + s.payload.length ≤ r.windowEnd
  · rw [narrow?_eq (Nat.le_trans hroom r.windowEnd_le_lastPosition), Option.bind_some]
    simp only [hroom, and_true, true_and, ← and_assoc, ite_and, apply_ite some]
  · simp [hroom]

theorem checkedLimit_eq (hd : r.delivered ≤ lastPosition) (hcap : r.capacity ≤ 65535) :
    r.checkedLimit = some r.limit := by
  rw [checkedLimit, checkedWindowEnd_eq hd hcap, limit]
  cases r.fin <;> rfl

theorem checkedUsable_eq (hd : r.delivered ≤ lastPosition) (hcap : r.capacity ≤ 65535)
    (hs : s.payload.length ≤ maxBytes) : r.checkedUsable s = some (r.usable? s) := by
  have hlimit := Nat.le_trans r.limit_le r.windowEnd_le_lastPosition
  rw [checkedUsable, checkedLimit_eq hd hcap, sum?_eq (payloadEnd_le_maxWord hs), usable?]
  simp only [Option.bind_eq_bind, Option.bind_some]
  rw [narrow?_eq (Nat.le_trans (Nat.min_le_right _ _) hlimit), Option.bind_some]
  generalize hstop : min (s.start + s.payload.length) r.limit = stop
  split
  next hlt =>
    rw [difference?_eq (Nat.le_max_left _ _), difference?_eq (Nat.le_of_lt hlt.2),
      Option.bind_some, Option.bind_some, Bytes.slice?, if_pos (by omega), Option.bind_some]
  next => rfl

theorem mapM_stop? {l : List Fragment} (h : ∀ f ∈ l, f.stop ≤ lastPosition) :
    l.mapM Fragment.stop? = some (l.map Fragment.stop) := by
  induction l with
  | nil => rfl
  | cons f l ih =>
    rw [List.mapM_cons, Fragment.stop?_eq (h f (.head l)), ih fun g hg => h g (.tail f hg)]
    rfl

theorem checkedCloseGap_eq (h : ∀ f ∈ r.pending, f.stop ≤ lastPosition) :
    r.checkedCloseGap = some r.closeGap := by
  fun_induction closeGap r with
  | case1 r hnone =>
    unfold checkedCloseGap
    rw [mapM_stop? fun f hf => h f (List.mem_of_mem_filter hf), Option.bind_eq_bind,
      Option.bind_some]
    split
    · rfl
    next hsome =>
      rw [hnone] at hsome
      cases hsome
  | case2 r f ahead hpop ih =>
    obtain ⟨-, hq⟩ := Queue.popIf?_eq_some hpop
    unfold checkedCloseGap
    rw [mapM_stop? fun f hf => h f (List.mem_of_mem_filter hf), Option.bind_eq_bind,
      Option.bind_some]
    split
    next hnone =>
      rw [hpop] at hnone
      cases hnone
    next hsome =>
      rw [hpop] at hsome
      obtain ⟨rfl, rfl⟩ := Prod.mk.inj (Option.some.inj hsome)
      rw [Fragment.stop?_eq (h f (by simp [pending, hq])), Option.bind_eq_bind, Option.bind_some]
      refine ih fun g hg => h g ?_
      simpa [pending, hq] using hg

theorem checkedAdvance_eq (h : ∀ f ∈ r.pending, f.stop ≤ lastPosition) :
    r.checkedAdvance = some r.advance := by
  rw [checkedAdvance, checkedCloseGap_eq h]
  rfl

/-- Whatever arrives, all its positions and lengths are numbers of a machine. -/
theorem Bounded.checkedInsert_eq (h : r.Bounded gap) (hcap : r.capacity ≤ 65535)
    (hs : s.payload.length ≤ maxBytes) : r.checkedInsert s = some (r.insert s) := by
  have hpending : ∀ f ∈ r.pending, f.stop ≤ lastPosition := fun f hf =>
    Nat.le_trans (h.pending f hf).2 r.windowEnd_le_lastPosition
  rw [checkedInsert, checkedWindowEnd_eq h.delivered_le hcap, Reassembly.insert]
  simp only [Option.bind_eq_bind, Option.bind_some]
  rw [isBeyondWindow]
  split
  · rfl
  next =>
    have husable := checkedUsable_eq (r := { r with fin := (r.newFin? s).or r.fin })
      h.delivered_le hcap hs
    rw [checkedNewFin_eq h.delivered_le hcap hs, Option.bind_some, husable, Option.bind_some]
    cases hbind : (({ r with fin := (r.newFin? s).or r.fin } : Reassembly).usable? s).bind
        ({ r with fin := (r.newFin? s).or r.fin } : Reassembly).store? with
    | some stored =>
      obtain ⟨f, hf, hst⟩ := Option.bind_eq_some_iff.mp hbind
      obtain ⟨ahead, hstored, rfl⟩ := stored_of_store? hst
      have hadvance := checkedAdvance_eq
        (r := { r with fin := (r.newFin? s).or r.fin, ahead }) fun g hg => ?_
      · simp only [hadvance, Option.bind_some]
      · rcases List.mem_append.mp hg with hg | hg
        · exact hpending g (List.mem_append_left _ hg)
        · rcases hstored.mem h.ahead_sorted g hg with rfl | hg
          · exact Nat.le_trans (usable_of_usable? hf).stop_le r.windowEnd_le_lastPosition
          · exact hpending g (List.mem_append_right _ hg)
    | none =>
      have hadvance := checkedAdvance_eq (r := { r with fin := (r.newFin? s).or r.fin }) hpending
      simp only [hadvance, Option.bind_some, apply_ite some]

section Deliver

variable {σ : Type} (take : σ → Bytes → Nat × σ) (sink : σ)

theorem Bounded.checkedOffer_eq (h : r.Bounded gap) :
    let after := (r.offer take sink).2.1
    r.checkedOffer take sink = some ((r.offer take sink).1, after, (r.offer take sink).2.2,
      after.delivered - r.delivered) := by
  have hpending : ∀ f ∈ r.pending, f.stop ≤ lastPosition := fun f hf =>
    Nat.le_trans (h.pending f hf).2 r.windowEnd_le_lastPosition
  have hacked : ∀ f ∈ r.acked.toList, f.stop ≤ lastPosition := fun f hf =>
    hpending f (List.mem_append_left _ hf)
  have hahead : ∀ f ∈ r.ahead.toList, f.stop ≤ lastPosition := fun f hf =>
    hpending f (List.mem_append_right _ hf)
  have hspec := drain_spec take r.acked r.delivered sink
  have hpos := hspec.le
  have hlast := hspec.position_le h.delivered_le hacked
  have hword : lastPosition ≤ maxWord := by decide
  intro after
  rw [checkedOffer,
    checkedDrain_eq take r.acked r.delivered 0 sink hacked h.delivered_le (by omega)]
  simp only [Option.bind_eq_bind, Option.bind_some, after]
  unfold Reassembly.offer
  generalize drain take r.acked r.delivered sink = d at *
  simp only [Nat.zero_add]
  split
  · rfl
  · have hpos' := (drain_spec take r.ahead d.position d.sink).le
    rw [checkedDrain_eq take r.ahead d.position _ d.sink hahead hlast (by omega)]
    simp only [Option.bind_some, Option.some.injEq, Prod.mk.injEq, true_and]
    omega

/-- Whatever the sink takes, it can be counted. -/
theorem Bounded.checkedDeliver_eq (h : r.Bounded gap) :
    r.checkedDeliver take sink = some (r.deliver take sink) := by
  rw [checkedDeliver, h.checkedOffer_eq take sink]
  unfold Reassembly.deliver
  generalize r.offer take sink = offered
  obtain ⟨blocked, after, sink'⟩ := offered
  simp only [Option.bind_eq_bind, Option.bind_some]
  split
  · rfl
  · split <;> rfl

end Deliver

/-! ## All calls -/

/-- What a buffer promises to any peer. Its counters and the edge of the window never move back.
What waits has bytes and lies in the window. All that is acknowledged lies in the window but for a
FIN at the very end. A segment that is not fresh changes nothing, and no number is too large. -/
theorem window_discipline (capacity : Nat) (hcap : capacity ≤ 65535) (calls : List Call) :
    let r := performAll { capacity } calls
    let last := min (r.delivered + capacity) lastPosition
    (∀ more, r.expected ≤ (r.performAll more).expected ∧
      r.delivered ≤ (r.performAll more).delivered ∧ r.edge ≤ (r.performAll more).edge) ∧
    (∀ f ∈ r.pending, f.bytes ≠ [] ∧ f.stop ≤ last) ∧
    (r.expected ≤ last ∨ r.expected = last + 1 ∧ r.fin = some last) ∧
    (∀ s, (r.insert s).1 ≠ .fresh → (r.insert s).2 = r) ∧
    (∀ s, s.payload.length ≤ maxBytes → r.checkedInsert s = some (r.insert s)) ∧
    (∀ {σ : Type} (take : σ → Bytes → Nat × σ) (sink : σ),
      r.checkedDeliver take sink = some (r.deliver take sink)) ∧
    r.checkedWindow = some r.window := by
  intro r last
  obtain ⟨gap, hbounded, hadvances⟩ := (bounded_start capacity).performAll calls
  have hcapacity : r.capacity = capacity := hadvances.capacity_eq
  have hlast : last = r.windowEnd := by
    rw [windowEnd, hcapacity]
  rw [hlast]
  have hcap' : r.capacity ≤ 65535 := by rw [hcapacity]; exact hcap
  refine ⟨fun more => ?_, hbounded.pending, hbounded.expected_le, fun s => insert_of_ne_fresh,
    fun s hs => hbounded.checkedInsert_eq hcap' hs, fun take sink =>
      hbounded.checkedDeliver_eq take sink, checkedWindow_eq hbounded.delivered_le hcap'⟩
  obtain ⟨-, -, hmore⟩ := hbounded.performAll more
  exact ⟨hmore.expected_le, hmore.delivered_le, hmore.edge_le⟩

/-! ### A letter at the last position

The sink has taken two of six letters when a letter at the last position of all arrives. -/

def lastLetter : Segment := { middle with seqno := 0xFFFFFFFF, payload := [122] }

theorem letters_disciplined :
    let r := performAll { capacity := 1440 } [.insert whole, taking 2]
    1440 ≤ 65535 ∧ r.checkedInsert lastLetter = some (.outOfWindow, r) ∧
      r.edge ≤ (r.performAll [taking 4]).edge ∧ r.checkedWindow = some 1436 := by
  intro r
  obtain ⟨hmore, -, -, -, hinsert, -, hwindow⟩ :=
    window_discipline 1440 (by decide) [.insert whole, taking 2]
  refine ⟨by decide, (hinsert lastLetter (by decide)).trans ?_, (hmore [taking 4]).2.2,
    hwindow.trans ?_⟩
  · decide +kernel
  · decide +kernel

end Reassembly

end ReliableStream
