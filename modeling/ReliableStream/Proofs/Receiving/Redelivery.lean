import ReliableStream.Proofs.Receiving.Bounds
import ReliableStream.Proofs.Receiving.Resequencing

/-!
# Segments that come again

Nothing is known of the peer, and the sink may take whatever it likes. A segment that lay in the
window when it arrived is `Absorbed` from then on: its FIN is recorded or of no use, and its payload
up to the FIN is acknowledged, or the rest of it waits in one fragment that begins right where the
rest does. Such a segment changes nothing when it comes again (`Bounded.insert_of_absorbed`).

* `Secures`: what waits of a piece of the stream begins where the piece does, or where the gap is.
  It stays so when a longer fragment takes the place of another, and when the gap closes
  (`Secures.advance`).
* `Bounded.absorbed_insert`: an arrival in the window makes a segment absorbed.
* `Absorbed.insert`, `Absorbed.deliver`: it stays so whatever else arrives or is delivered. After
  the news of the end nothing but the FIN counts (`Sound`), for deliveries may then reach beyond
  what is acknowledged.
-/

namespace ReliableStream

/-- Where the payload of a segment ends, when it is cut off at the FIN. -/
def Segment.cut (s : Segment) (fin : Option Nat) : Nat :=
  fin.elim (s.start + s.payload.length) (min (s.start + s.payload.length))

namespace Reassembly

variable {r r' : Reassembly} {s t : Segment} {f : Fragment} {gap p n : Nat}

/-! ## Pieces that are received -/

/-- Of the positions from `p` up to `n` all are acknowledged, or one fragment holds the others and
begins with the first of these. -/
def Secures (r : Reassembly) (p n : Nat) : Prop :=
  n ≤ max p r.expected ∨ Fragment.Spans r.ahead.toList (max p r.expected) n

theorem Secures.mono {n' : Nat} (h : r.Secures p n) (hle : n' ≤ n) : r.Secures p n' :=
  h.imp (Nat.le_trans hle) fun ⟨f, hf, hstart, hstop⟩ => ⟨f, hf, hstart, Nat.le_trans hle hstop⟩

theorem Stored.spans_iff {ahead : Queue Fragment} (h : r.Stored f ahead)
    (hs : Fragment.Sorted r.ahead.toList) :
    Fragment.Spans ahead.toList p n ↔
      (f.start = p ∧ n ≤ f.stop) ∨ Fragment.Spans r.ahead.toList p n := by
  cases h with
  | front _ =>
    unfold Fragment.Spans
    rw [Queue.toList_pushFront]
    simp only [List.mem_cons, exists_eq_or_imp]
  | behind _ hput =>
    have hp := Fragment.toList_put? (f := f) hs
    rw [hput, Option.map_some] at hp
    exact Fragment.spans_putInto? hp.symm

/-- What waits still does when more is stored. -/
theorem Secures.of_stored {ahead : Queue Fragment} {fin : Option Nat} (h : r.Secures p n)
    (hs : Fragment.Sorted r.ahead.toList) (hstored : ahead = r.ahead ∨ ∃ f, r.Stored f ahead) :
    ({ r with fin, ahead } : Reassembly).Secures p n := by
  rcases hstored with rfl | ⟨f, hst⟩
  · exact h
  · exact h.imp_right fun hspans => (hst.spans_iff hs).mpr (.inr hspans)

theorem expected_closeGap_le (hexp : r.expected ≤ n) (hstop : ∀ f ∈ r.ahead.toList, f.stop ≤ n) :
    r.closeGap.expected ≤ n := by
  obtain ⟨gone, hgap⟩ := closeGap_spec r
  rcases hgap.expected_eq with heq | ⟨f, hf, heq⟩
  · rw [heq]
    exact hexp
  · rw [heq]
    exact hstop f (by rw [hgap.ahead]; exact List.mem_append_left _ hf)

theorem expected_advance (hlast : r.closeGap.expected ≤ lastPosition) :
    r.closeGap.expected ≤ r.advance.expected ∧
      r.advance.expected ≤ r.closeGap.expected + 1 := by
  have hnext := le_nextPosition hlast
  have hsucc := nextPosition_le_succ r.closeGap.expected
  unfold Reassembly.advance
  simp only
  split <;> omega

/-- A fragment that is acknowledged with the gap is no longer needed. One that still waits begins
beyond the gap, and so at `p` itself. -/
theorem Secures.advance (h : r.Secures p n) (hs : Fragment.Sorted r.ahead.toList)
    (hlast : r.closeGap.expected ≤ lastPosition) : r.advance.Secures p n := by
  obtain ⟨gone, hgap⟩ := closeGap_spec r
  obtain ⟨hge, hle⟩ := expected_advance hlast
  have hlt := hgap.lt_start (List.pairwise_append.mp (hgap.ahead ▸ hs)).2.1
  have hmono := hgap.le
  rcases h with hn | ⟨f, hf, hstart, hstop⟩
  · exact .inl (by omega)
  · rw [hgap.ahead] at hf
    rcases List.mem_append.mp hf with hf | hf
    · have := hgap.stop_le f hf
      exact .inl (by omega)
    · have := hlt f hf
      exact .inr ⟨f, hf, by omega, hstop⟩

/-! ## What is stored of a segment -/

/-- Of a segment that lies in the window no more is cut off than what is behind the FIN. -/
theorem min_limit_eq_cut (hroom : s.start + s.payload.length ≤ r.windowEnd) :
    min (s.start + s.payload.length) r.limit = s.cut r.fin := by
  unfold limit Segment.cut
  cases r.fin <;> simp only [Option.elim] <;> omega

theorem usable?_bounds (hroom : s.start + s.payload.length ≤ r.windowEnd)
    (h : r.usable? s = some f) :
    f.start = max s.start r.expected ∧ f.stop = s.cut r.fin ∧ f.start < f.stop := by
  obtain ⟨hstart, hstop, hlt, -⟩ := usable?_eq_some h
  exact ⟨hstart, hstop.trans (min_limit_eq_cut hroom), hlt⟩

theorem usable?_eq_none_iff (hroom : s.start + s.payload.length ≤ r.windowEnd) :
    r.usable? s = none ↔ s.cut r.fin ≤ max s.start r.expected := by
  unfold usable?
  simp only [min_limit_eq_cut hroom]
  split
  · exact iff_of_false (by simp) (by omega)
  · exact iff_of_true rfl (by omega)

/-- A fragment is not stored if one that begins there reaches as far, and only then. -/
theorem store?_eq_none_iff (hs : Fragment.Sorted r.ahead.toList)
    (hgap : ∀ g ∈ r.ahead.toList, r.expected < g.start) :
    r.store? f = none ↔ Fragment.Spans r.ahead.toList f.start f.stop := by
  unfold store?
  split
  next hle =>
    refine iff_of_false (by simp) ?_
    rintro ⟨g, hg, hstart, -⟩
    have := hgap g hg
    omega
  next =>
    rw [← Fragment.putInto?_eq_none_iff hs, ← Fragment.toList_put? hs, Option.map_eq_none_iff,
      Option.map_eq_none_iff]

/-- Nothing of a segment in the window is stored exactly if its payload is received. -/
theorem stores_nothing_iff (hs : Fragment.Sorted r.ahead.toList)
    (hgap : ∀ g ∈ r.ahead.toList, r.expected < g.start)
    (hroom : s.start + s.payload.length ≤ r.windowEnd) :
    (r.usable? s).bind r.store? = none ↔ r.Secures s.start (s.cut r.fin) := by
  unfold Secures
  cases hu : r.usable? s with
  | none => exact iff_of_true rfl (.inl ((usable?_eq_none_iff hroom).mp hu))
  | some f =>
    obtain ⟨hstart, hstop, hlt⟩ := usable?_bounds hroom hu
    rw [Option.bind_some, store?_eq_none_iff hs hgap, hstart, hstop]
    exact (or_iff_right (by omega)).symm

/-- When some of it is stored, its payload is received. -/
theorem secures_of_stores (hs : Fragment.Sorted r.ahead.toList)
    (hroom : s.start + s.payload.length ≤ r.windowEnd)
    (h : (r.usable? s).bind r.store? = some r') : r'.Secures s.start (s.cut r.fin) := by
  obtain ⟨f, hu, hst⟩ := Option.bind_eq_some_iff.mp h
  obtain ⟨ahead, hstored, rfl⟩ := stored_of_store? hst
  obtain ⟨hstart, hstop, -⟩ := usable?_bounds hroom hu
  exact .inr ((hstored.spans_iff hs).mpr (.inl ⟨hstart, Nat.le_of_eq hstop.symm⟩))

/-! ## Segments that are received -/

/-- `s` lies in the window, its payload is received up to the FIN, and its own FIN is recorded or
lies before what is acknowledged. -/
structure Absorbed (r : Reassembly) (s : Segment) : Prop where
  room : s.start + s.payload.length ≤ r.windowEnd
  payload : r.Secures s.start (s.cut r.fin)
  fin : s.hasFin = true → r.fin = none → s.start + s.payload.length < r.expected

/-- All before the FIN is acknowledged, so there is nothing left of any segment. -/
theorem absorbed_of_fin_le {fin : Nat} (hroom : s.start + s.payload.length ≤ r.windowEnd)
    (hfin : r.fin = some fin) (hle : fin ≤ r.expected) : r.Absorbed s where
  room := hroom
  payload := .inl (by rw [hfin]; simp only [Segment.cut, Option.elim]; omega)
  fin := by simp [hfin]

theorem Absorbed.advance (h : r.Absorbed s) (hs : Fragment.Sorted r.ahead.toList)
    (hlast : r.closeGap.expected ≤ lastPosition) : r.advance.Absorbed s := by
  have hsecures := h.payload.advance hs hlast
  have hfin : r.advance.fin = r.fin := fin_closeGap r
  obtain ⟨gone, hgap⟩ := closeGap_spec r
  have hwindow : r.advance.windowEnd = r.windowEnd := by
    unfold Reassembly.advance
    rw [hgap.eq_rest]
    rfl
  refine ⟨by rw [hwindow]; exact h.room, by rw [hfin]; exact hsecures, fun hf hnone => ?_⟩
  have := h.fin hf (hfin ▸ hnone)
  have := hgap.le
  have := (expected_advance hlast).1
  omega

/-- A FIN that lies in the window is recorded, unless more than it is acknowledged. -/
theorem lt_expected_of_newFin? (hroom : s.start + s.payload.length ≤ r.windowEnd)
    (hf : s.hasFin = true) (h : (r.newFin? s).or r.fin = none) :
    s.start + s.payload.length < r.expected := by
  obtain ⟨hnew, hfin⟩ := Option.or_eq_none_iff.mp h
  unfold newFin? at hnew
  simp only [hf, hfin, Option.isNone_none, hroom, true_and] at hnew
  split at hnew
  · cases hnew
  · omega

/-- Up to the FIN, what waits ahead lies behind a gap. -/
theorem Bounded.expected_lt_start (h : r.Bounded gap) (hend : r.fin ≠ some gap) :
    ∀ g ∈ r.ahead.toList, r.expected < g.start := by
  rw [h.expected_eq, if_neg hend]
  exact fun g hg => (h.ahead g hg).2.1

/-- A segment that changes nothing when it comes again. -/
theorem Bounded.insert_of_absorbed (h : r.Bounded gap) (ha : r.Absorbed s) :
    r.insert s = (.duplicate, r) := by
  have hbeyond := not_isBeyondWindow ha.room
  by_cases hend : r.fin = some gap
  · obtain ⟨hfresh, hsame⟩ := insert_of_fin_le (s := s) hend h.gap_le_expected
    have hout := insert_ne_outOfWindow hbeyond
    refine Prod.ext ?_ hsame
    cases hkind : (r.insert s).1 with
    | fresh => exact absurd hkind hfresh
    | duplicate => rfl
    | outOfWindow => exact absurd hkind hout
  · have hnew : r.newFin? s = none := by
      refine if_neg ?_
      rintro ⟨hf, hnone, -, hle⟩
      exact Nat.not_lt.mpr hle (ha.fin hf (Option.isNone_iff_eq_none.mp hnone))
    have hnothing :=
      (stores_nothing_iff h.ahead_sorted (h.expected_lt_start hend) ha.room).mpr ha.payload
    unfold Reassembly.insert
    rw [if_neg (by simp [hbeyond])]
    simp only [hnew, Option.none_or]
    rw [hnothing]
    rfl

/-! ## Arrivals -/

/-- No fragment reaches beyond the last position. -/
theorem Bounded.closeGap_le {fin : Option Nat} {ahead : Queue Fragment} (h : r.Bounded gap)
    (hahead : ∀ f ∈ ahead.toList, f.stop ≤ r.windowEnd) :
    ({ r with fin, ahead } : Reassembly).closeGap.expected ≤ lastPosition :=
  expected_closeGap_le h.expected_le_lastPosition fun f hf =>
    Nat.le_trans (hahead f hf) r.windowEnd_le_lastPosition

/-- A segment that arrives in the window is received. -/
theorem Bounded.absorbed_insert (h : r.Bounded gap)
    (hroom : s.start + s.payload.length ≤ r.windowEnd) : (r.insert s).2.Absorbed s := by
  by_cases hend : r.fin = some gap
  · rw [(insert_of_fin_le hend h.gap_le_expected).2]
    exact absorbed_of_fin_le hroom hend h.gap_le_expected
  have hexp : r.expected = gap := h.expected_eq.trans (if_neg hend)
  have hfin := lt_expected_of_newFin? (s := s) hroom
  unfold Reassembly.insert
  rw [if_neg (by simp [not_isBeyondWindow hroom])]
  simp only
  generalize hrec : (r.newFin? s).or r.fin = fin at hfin ⊢
  split
  next stored hsome =>
    have hsecures := secures_of_stores (r := { r with fin }) h.ahead_sorted hroom hsome
    obtain ⟨ahead, hstored, rfl⟩ := stored_of_bind hsome
    obtain ⟨hsorted, hahead⟩ := h.stored hexp (.inr hstored)
    have hstays : ({ r with fin, ahead } : Reassembly).Absorbed s := ⟨hroom, hsecures, hfin⟩
    exact hstays.advance hsorted (h.closeGap_le fun f hf => (hahead f hf).2.2)
  next hnone =>
    have hsecures := (stores_nothing_iff (r := { r with fin }) h.ahead_sorted
      (h.expected_lt_start hend) hroom).mp hnone
    have hstays : ({ r with fin } : Reassembly).Absorbed s := ⟨hroom, hsecures, hfin⟩
    split
    · exact hstays.advance h.ahead_sorted (h.closeGap_le fun f hf => (h.ahead f hf).2.2)
    next hnew =>
      rw [Option.not_isSome_iff_eq_none.mp hnew, Option.none_or] at hrec
      rwa [← hrec] at hstays

/-- Less of a segment counts when a FIN is recorded. -/
theorem RecordsFin.cut_le {fin : Option Nat} (h : r.RecordsFin t fin) :
    s.cut fin ≤ s.cut r.fin := by
  rcases h with rfl | ⟨hnone, -, rfl, -⟩
  · exact Nat.le_refl _
  · rw [hnone]
    exact Nat.min_le_left _ _

/-- It stays received whatever arrives. -/
theorem Absorbed.insert (h : r.Bounded gap) (ha : r.Absorbed s) (t : Segment) :
    (r.insert t).2.Absorbed s := by
  by_cases hend : r.fin = some gap
  · rw [(insert_of_fin_le hend h.gap_le_expected).2]
    exact ha
  have hexp : r.expected = gap := h.expected_eq.trans (if_neg hend)
  rcases r.insert_cases t with heq | ⟨fin, ahead, hfin, hstored, heq⟩
  · rw [heq]
    exact ha
  rw [heq]
  obtain ⟨hsorted, hahead⟩ := h.stored hexp hstored
  have hstays : ({ r with fin, ahead } : Reassembly).Absorbed s := by
    refine ⟨ha.room, ?_, fun hf hnone => ha.fin hf ?_⟩
    · exact (ha.payload.mono hfin.cut_le).of_stored h.ahead_sorted
        (hstored.imp_right fun ⟨f, _, hst⟩ => ⟨f, hst⟩)
    · rcases hfin with rfl | ⟨hfin, -⟩
      · exact hnone
      · exact hfin
  exact hstays.advance hsorted (h.closeGap_le fun f hf => (hahead f hf).2.2)

/-! ## Deliveries -/

/-- As `Bounded`, and the application is told of the end only when all before the FIN is
acknowledged. -/
structure Sound (gap : Nat) (r : Reassembly) : Prop extends Bounded gap r where
  ended : r.finished = true → ∃ fin, r.fin = some fin ∧ fin ≤ r.expected

section Deliver

variable {σ : Type} (take : σ → Bytes → Nat × σ) (sink : σ)

/-- What is delivered has no part in what is acknowledged. -/
theorem deliver_eq (r : Reassembly) : ∃ acked ahead delivered finished,
    (r.deliver take sink).2.1 = { r with acked, ahead, delivered, finished } := by
  have hoffer : ∃ acked ahead delivered,
      (r.offer take sink).2.1 = { r with acked, ahead, delivered } := by
    rcases r.offer_cases take sink with heq | ⟨-, -, heq⟩
    · exact ⟨_, r.ahead, _, by rw [heq]⟩
    · exact ⟨_, _, _, by rw [heq]⟩
  obtain ⟨acked, ahead, delivered, hoffer⟩ := hoffer
  obtain ⟨-, ⟨-, heq⟩ | ⟨-, -, -, -, heq⟩⟩ := r.deliver_cases take sink
  · exact ⟨acked, ahead, delivered, r.finished, by rw [heq, hoffer]⟩
  · exact ⟨acked, ahead, _, true, by rw [heq, hoffer]⟩

/-- Up to the news of the end, what waits behind the gap is out of reach of a delivery, and the news
comes only when there is no gap before the FIN. -/
theorem Bounded.deliver_unfinished (h : r.Bounded gap) (hun : r.finished = false) :
    (r.deliver take sink).2.1.ahead = r.ahead ∧
      ((r.deliver take sink).2.1.finished = true → ∃ fin, r.fin = some fin ∧ fin ≤ gap) := by
  obtain ⟨hle, hoffer⟩ := h.offer_eq take sink (h.unfinished hun)
  obtain ⟨-, hcases⟩ := r.deliver_cases take sink
  rw [hoffer] at hcases
  rcases hcases with ⟨-, heq⟩ | ⟨-, -, -, hfin, heq⟩
  · rw [heq]
    exact ⟨rfl, by simp [hun]⟩
  · rw [heq]
    exact ⟨rfl, fun _ => ⟨_, hfin, hle⟩⟩

theorem Sound.deliver (h : r.Sound gap) : (r.deliver take sink).2.1.Sound gap := by
  refine ⟨(h.toBounded.deliver take sink).1, fun hover => ?_⟩
  have hkept : (r.deliver take sink).2.1.fin = r.fin ∧
      (r.deliver take sink).2.1.expected = r.expected := by
    obtain ⟨acked, ahead, delivered, finished, heq⟩ := r.deliver_eq take sink
    rw [heq]
    exact ⟨rfl, rfl⟩
  rw [hkept.1, hkept.2]
  cases hun : r.finished with
  | true => exact h.ended hun
  | false =>
    obtain ⟨fin, hfin, hle⟩ := (h.toBounded.deliver_unfinished take sink hun).2 hover
    exact ⟨fin, hfin, Nat.le_trans hle h.gap_le_expected⟩

/-- It stays received whatever is delivered. -/
theorem Absorbed.deliver (h : r.Sound gap) (ha : r.Absorbed s) :
    (r.deliver take sink).2.1.Absorbed s := by
  have hroom := Nat.le_trans ha.room (h.toBounded.deliver take sink).2.windowEnd_le
  have hahead := h.toBounded.deliver_unfinished take sink
  obtain ⟨acked, ahead, delivered, finished, heq⟩ := r.deliver_eq take sink
  rw [heq] at hroom hahead ⊢
  cases hun : r.finished with
  | true =>
    obtain ⟨fin, hfin, hle⟩ := h.ended hun
    exact absorbed_of_fin_le hroom hfin hle
  | false =>
    obtain ⟨rfl, -⟩ := hahead hun
    exact ⟨hroom, ha.payload, ha.fin⟩

end Deliver

/-! ## All calls -/

theorem Sound.perform (h : r.Sound gap) (c : Call) : ∃ gap', (r.perform c).Sound gap' := by
  cases c with
  | insert t =>
    obtain ⟨gap', hbounded, -⟩ := h.toBounded.insert t
    refine ⟨gap', hbounded, fun hover => ?_⟩
    obtain ⟨fin, hfin, hle⟩ := h.ended (finished_insert r t ▸ hover)
    rw [Reassembly.perform, (insert_of_fin_le hfin hle).2]
    exact ⟨fin, hfin, hle⟩
  | deliver take sink => exact ⟨gap, h.deliver take sink⟩

theorem Sound.performAll (h : r.Sound gap) (calls : List Call) :
    ∃ gap', (r.performAll calls).Sound gap' := by
  induction calls generalizing r gap with
  | nil => exact ⟨gap, h⟩
  | cons c calls ih =>
    obtain ⟨gap', hsound⟩ := h.perform c
    exact ih hsound

theorem Absorbed.performAll (h : r.Sound gap) (ha : r.Absorbed s) (calls : List Call) :
    (r.performAll calls).Absorbed s := by
  induction calls generalizing r gap with
  | nil => exact ha
  | cons c calls ih =>
    obtain ⟨gap', hsound⟩ := h.perform c
    refine ih hsound ?_
    cases c with
    | insert t => exact ha.insert h.toBounded t
    | deliver take sink => exact ha.deliver take sink h

/-- A segment that lay in the window when it arrived changes nothing when it comes again, whatever
arrived before it and in between, and whatever was delivered. -/
theorem redelivered_changes_nothing (capacity : Nat) (before after : List Call) (s : Segment)
    (h : s.start + s.payload.length ≤ (performAll { capacity } before).windowEnd) :
    let r := performAll { capacity } (before ++ .insert s :: after)
    r.insert s = (.duplicate, r) := by
  have hstart : Sound firstPosition { capacity } := ⟨bounded_start capacity, by simp⟩
  obtain ⟨gap, hbefore⟩ := hstart.performAll before
  obtain ⟨gap', harrived⟩ := hbefore.perform (.insert s)
  have habsorbed : ((performAll { capacity } before).insert s).2.Absorbed s :=
    hbefore.toBounded.absorbed_insert h
  intro r
  have hr : r = (((performAll { capacity } before).insert s).2).performAll after :=
    performAll_append _ _ _
  obtain ⟨gap'', hend⟩ := harrived.performAll after
  rw [hr]
  exact hend.toBounded.insert_of_absorbed (habsorbed.performAll harrived after)

/-! ### The middle of a word

The two letters in the middle of `letters` arrive, then the whole with its FIN, and the sink takes
the first three letters. -/

def wholeWithFin : Segment := { whole with flags := .ack ||| .fin }

/-- The middle is acknowledged, and a letter of it delivered, when it comes again. -/
theorem middle_changes_nothing_again :
    middle.start + middle.payload.length ≤ (performAll { capacity := 1440 } []).windowEnd ∧
      let r := performAll { capacity := 1440 } [.insert middle, .insert wholeWithFin, taking 3]
      r.delivered = 4 ∧ r.fin = some 7 ∧ r.insert middle = (.duplicate, r) := by
  have hroom : middle.start + middle.payload.length ≤
      (performAll { capacity := 1440 } []).windowEnd := by decide
  exact ⟨hroom, by decide +kernel, by decide +kernel,
    redelivered_changes_nothing 1440 [] [.insert wholeWithFin, taking 3] middle hroom⟩

end Reassembly

end ReliableStream
