import ReliableStream.Proofs.Receiving.Window

/-!
# A buffer in the hands of any peer

Nothing is known here of the segments that arrive. They may overlap and contradict one another, lie
anywhere, and go on behind a FIN; the sink may take whatever it likes. A buffer is still `Bounded`:
its fragments are in order, none is empty or reaches beyond the window, those before the gap are
acknowledged and those behind it are not.

* `insert_of_fin_le`: when all before the FIN is acknowledged, nothing that arrives is stored.
* `offer_cases`: a delivery offers the acknowledged fragments, and those behind the gap only if none
  of the others is left.
* `Bounded.insert`, `Bounded.deliver`: what arrives and what is delivered keeps a buffer bounded,
  and the buffer only `Advances`.
-/

namespace ReliableStream

theorem le_nextPosition {p : Nat} (h : p ≤ lastPosition) : p ≤ nextPosition p := by
  unfold nextPosition
  omega

theorem nextPosition_le_succ (p : Nat) : nextPosition p ≤ p + 1 := Nat.min_le_left _ _

theorem nextPosition_le_lastPosition (p : Nat) : nextPosition p ≤ lastPosition :=
  Nat.min_le_right _ _

namespace Drained.Spec

variable {σ : Type} {d : Drained σ} {pending : List Fragment} {position : Nat}

theorem sorted (h : d.Spec pending position) (hs : Fragment.Sorted pending) :
    Fragment.Sorted d.pending.toList := by
  have hsub := List.dropWhile_sublist (l := pending) (·.stop ≤ d.position)
  cases hb : d.blocked with
  | false =>
    rw [(h.unblocked hb).1]
    exact hs.sublist hsub
  | true =>
    obtain ⟨f, rest, heq, -, hpending⟩ := h.blocked hb
    rw [heq] at hsub
    rw [hpending]
    exact Fragment.sorted_putIntoIfAbsent (List.pairwise_cons.mp (hs.sublist hsub)).2

/-- What waits after the offers has waited before, or it is what the sink left of a fragment. -/
theorem mem_pending (h : d.Spec pending position) (hs : Fragment.Sorted pending) {g : Fragment}
    (hg : g ∈ d.pending.toList) :
    g ∈ pending ∨ ∃ f ∈ pending, f.Covers d.position ∧ g = f.leftAt d.position := by
  have hsub := List.dropWhile_sublist (l := pending) (·.stop ≤ d.position)
  cases hb : d.blocked with
  | false =>
    rw [(h.unblocked hb).1] at hg
    exact .inl (hsub.subset hg)
  | true =>
    obtain ⟨f, rest, heq, hf, hpending⟩ := h.blocked hb
    rw [heq] at hsub
    rw [hpending] at hg
    have hrest := (List.pairwise_cons.mp (hs.sublist hsub)).2
    rcases (Fragment.mem_putIntoIfAbsent hrest).mp hg with hg | ⟨rfl, -⟩
    · exact .inl (hsub.subset (.tail f hg))
    · exact .inr ⟨f, hsub.subset (.head rest), hf, rfl⟩

/-- A fragment that begins beyond where the sink stopped still waits. -/
theorem mem_pending_of_lt (h : d.Spec pending position) (hs : Fragment.Sorted pending)
    {g : Fragment} (hg : g ∈ pending) (hlt : d.position < g.start) : g ∈ d.pending.toList := by
  have hdrop : g ∈ pending.dropWhile (·.stop ≤ d.position) :=
    Reassembly.mem_dropWhile_of_lt hg (Nat.lt_of_lt_of_le hlt g.start_le_stop)
  have hsub := List.dropWhile_sublist (l := pending) (·.stop ≤ d.position)
  cases hb : d.blocked with
  | false =>
    rw [(h.unblocked hb).1]
    exact hdrop
  | true =>
    obtain ⟨f, rest, heq, hf, hpending⟩ := h.blocked hb
    rw [heq] at hsub hdrop
    rw [hpending, Fragment.mem_putIntoIfAbsent (List.pairwise_cons.mp (hs.sublist hsub)).2]
    rcases List.mem_cons.mp hdrop with rfl | hmem
    · exact absurd hf.1 (Nat.not_le.mpr hlt)
    · exact .inl hmem

end Drained.Spec

namespace Reassembly

variable {r r' : Reassembly} {s : Segment} {f : Fragment} {gap : Nat}

/-- What is true of a buffer whoever its peer is. What is acknowledged ends where the gap begins,
but for the FIN. -/
structure Bounded (gap : Nat) (r : Reassembly) : Prop where
  expected_eq : r.expected = if r.fin = some gap then nextPosition gap else gap
  gap_le : gap ≤ r.windowEnd
  acked_sorted : Fragment.Sorted r.acked.toList
  ahead_sorted : Fragment.Sorted r.ahead.toList
  acked : ∀ f ∈ r.acked.toList, f.bytes ≠ [] ∧ f.stop ≤ gap
  ahead : ∀ f ∈ r.ahead.toList, f.bytes ≠ [] ∧ gap < f.start ∧ f.stop ≤ r.windowEnd
  fin_le : ∀ fin, r.fin = some fin → fin ≤ r.windowEnd
  delivered_le : r.delivered ≤ lastPosition
  /-- Until the application is told of the end it gets no more than is acknowledged. -/
  unfinished : r.finished = false → r.delivered ≤ gap

theorem bounded_start (capacity : Nat) : Bounded firstPosition { capacity } where
  expected_eq := rfl
  gap_le := by
    simp only [windowEnd, firstPosition, lastPosition]
    omega
  acked_sorted := .nil
  ahead_sorted := .nil
  acked := by simp
  ahead := by simp
  fin_le := by simp
  delivered_le := by simp [firstPosition, lastPosition]
  unfinished := fun _ => Nat.le_refl _

theorem windowEnd_le_lastPosition (r : Reassembly) : r.windowEnd ≤ lastPosition :=
  Nat.min_le_right _ _

namespace Bounded

theorem gap_le_lastPosition (h : r.Bounded gap) : gap ≤ lastPosition :=
  Nat.le_trans h.gap_le r.windowEnd_le_lastPosition

theorem gap_le_expected (h : r.Bounded gap) : gap ≤ r.expected := by
  rw [h.expected_eq]
  split
  · exact le_nextPosition h.gap_le_lastPosition
  · exact Nat.le_refl _

/-- Only the FIN is acknowledged beyond the window, and only if it is at its very end. -/
theorem expected_le (h : r.Bounded gap) :
    r.expected ≤ r.windowEnd ∨ r.expected = r.windowEnd + 1 ∧ r.fin = some r.windowEnd := by
  have hgap := h.gap_le
  have heq := h.expected_eq
  split at heq
  next hfin =>
    have := nextPosition_le_succ gap
    by_cases hle : r.expected ≤ r.windowEnd
    · exact .inl hle
    · have hend : gap = r.windowEnd := by omega
      exact .inr ⟨by omega, by rw [hfin, hend]⟩
  next => exact .inl (by omega)

theorem expected_le_lastPosition (h : r.Bounded gap) : r.expected ≤ lastPosition := by
  rw [h.expected_eq]
  split
  · exact nextPosition_le_lastPosition gap
  · exact h.gap_le_lastPosition

/-- Whatever waits lies in the window. -/
theorem pending (h : r.Bounded gap) :
    ∀ f ∈ r.pending, f.bytes ≠ [] ∧ f.stop ≤ r.windowEnd := by
  intro f hf
  rcases List.mem_append.mp hf with hf | hf
  · exact ⟨(h.acked f hf).1, Nat.le_trans (h.acked f hf).2 h.gap_le⟩
  · exact ⟨(h.ahead f hf).1, (h.ahead f hf).2.2⟩

/-- To drop what waits does no harm. -/
theorem clear (h : r.Bounded gap) : r.clear.Bounded gap :=
  { h with
    acked_sorted := .nil
    ahead_sorted := .nil
    acked := by simp [Reassembly.clear]
    ahead := by simp [Reassembly.clear] }

end Bounded

/-! ## Arrivals -/

/-- Nothing is stored once what is acknowledged reaches the FIN. -/
theorem insert_of_fin_le {fin : Nat} (hfin : r.fin = some fin) (hle : fin ≤ r.expected) :
    (r.insert s).1 ≠ .fresh ∧ (r.insert s).2 = r := by
  have hnone : r.newFin? s = none := by simp [newFin?, hfin]
  have husable : r.usable? s = none := by
    have hlimit : r.limit ≤ fin := by
      rw [limit, hfin]
      exact Nat.min_le_right _ _
    exact if_neg (by omega)
  unfold insert
  split
  · exact ⟨by simp, rfl⟩
  · simp only [hnone, Option.none_or]
    rw [husable]
    exact ⟨by simp, rfl⟩

/-- A segment that is not fresh changes nothing. -/
theorem insert_of_ne_fresh (h : (r.insert s).1 ≠ .fresh) : (r.insert s).2 = r := by
  revert h
  unfold insert
  split
  · exact fun _ => rfl
  · simp only
    split
    · exact fun h => absurd rfl h
    · split
      · exact fun h => absurd rfl h
      · exact fun _ => rfl

/-- The fragments behind the gap are acknowledged as far as they continue one another, and the FIN
with them if it is next. -/
theorem Bounded.advance {fin : Option Nat} {ahead : Queue Fragment} (h : r.Bounded gap)
    (hexp : r.expected = gap) (hfin : ∀ n, fin = some n → n ≤ r.windowEnd)
    (hsorted : Fragment.Sorted ahead.toList)
    (hahead : ∀ f ∈ ahead.toList, f.bytes ≠ [] ∧ gap ≤ f.start ∧ f.stop ≤ r.windowEnd) :
    ∃ gap', ({ r with fin, ahead } : Reassembly).advance.Bounded gap' ∧ gap ≤ gap' ∧
      r.Advances ({ r with fin, ahead } : Reassembly).advance := by
  obtain ⟨gone, hgap⟩ := closeGap_spec { r with fin, ahead }
  unfold Reassembly.advance
  generalize ({ r with fin, ahead } : Reassembly).closeGap = mid at hgap ⊢
  have hlt := hgap.lt_start
  have hreach := hgap.expected_eq
  obtain ⟨hacked, hsplit, hle, -, hstop, -, -, hrest⟩ := hgap
  simp only at hacked hsplit hle hreach
  obtain ⟨hmidfin, hdelivered, hfinished, hcapacity⟩ : mid.fin = fin ∧
      mid.delivered = r.delivered ∧ mid.finished = r.finished ∧ mid.capacity = r.capacity := by
    rw [hrest]
    exact ⟨rfl, rfl, rfl, rfl⟩
  have hwindow : mid.windowEnd = r.windowEnd := by
    rw [windowEnd, hdelivered, hcapacity, windowEnd]
  rw [hsplit] at hsorted hahead
  obtain ⟨hs_gone, hs_ahead, -⟩ := List.pairwise_append.mp hsorted
  have hroom : mid.expected ≤ mid.windowEnd := by
    rw [hwindow]
    rcases hreach with hsame | ⟨f, hf, hlast⟩
    · rw [hsame, hexp]
      exact h.gap_le
    · rw [hlast]
      exact (hahead f (List.mem_append_left _ hf)).2.2
  refine ⟨mid.expected, ⟨rfl, hroom, ?_, hs_ahead, fun f hf => ?_, fun f hf => ?_, fun n hn => ?_,
    ?_, fun hun => ?_⟩, by omega, ?_, Nat.le_of_eq hdelivered.symm, hcapacity⟩
  · show Fragment.Sorted mid.acked.toList
    rw [hacked]
    refine List.pairwise_append.mpr ⟨h.acked_sorted, hs_gone, fun f hf g hg => ?_⟩
    have := Fragment.start_lt_stop (h.acked f hf).1
    have := (h.acked f hf).2
    have := (hahead g (List.mem_append_left _ hg)).2.1
    omega
  · rw [show f ∈ mid.acked.toList ↔ _ from Iff.rfl, hacked] at hf
    rcases List.mem_append.mp hf with hf | hf
    · have := (h.acked f hf).2
      exact ⟨(h.acked f hf).1, by omega⟩
    · exact ⟨(hahead f (List.mem_append_left _ hf)).1, hstop f hf⟩
  · obtain ⟨hne, -, hend⟩ := hahead f (List.mem_append_right _ hf)
    exact ⟨hne, hlt hs_ahead f hf, Nat.le_trans hend (Nat.le_of_eq hwindow.symm)⟩
  · exact Nat.le_trans (hfin n (hmidfin.symm.trans hn)) (Nat.le_of_eq hwindow.symm)
  · exact Nat.le_trans (Nat.le_of_eq hdelivered) h.delivered_le
  · have := h.unfinished (hfinished.symm.trans hun)
    show mid.delivered ≤ mid.expected
    omega
  · have := le_nextPosition (Nat.le_trans hroom mid.windowEnd_le_lastPosition)
    simp only
    split
    · omega
    · exact hle

/-- What arrives is stored in order, behind the gap or right at it. -/
theorem Bounded.stored {ahead : Queue Fragment} (h : r.Bounded gap) (hexp : r.expected = gap)
    (hstored : ahead = r.ahead ∨ ∃ f, r.Usable s f ∧ r.Stored f ahead) :
    Fragment.Sorted ahead.toList ∧
      ∀ f ∈ ahead.toList, f.bytes ≠ [] ∧ gap ≤ f.start ∧ f.stop ≤ r.windowEnd := by
  have hold : ∀ g ∈ r.ahead.toList, g.bytes ≠ [] ∧ gap ≤ g.start ∧ g.stop ≤ r.windowEnd :=
    fun g hg => ⟨(h.ahead g hg).1, Nat.le_of_lt (h.ahead g hg).2.1, (h.ahead g hg).2.2⟩
  rcases hstored with rfl | ⟨f, hu, hst⟩
  · exact ⟨h.ahead_sorted, hold⟩
  · refine ⟨hst.sorted h.ahead_sorted fun g hg => ?_, fun g hg => ?_⟩
    · rw [hexp]
      exact (h.ahead g hg).2.1
    · rcases hst.mem h.ahead_sorted g hg with rfl | hg
      · have := hu.start_eq
        exact ⟨hu.ne_nil, by omega, hu.stop_le⟩
      · exact hold g hg

/-- Whatever arrives, the gap does not move back. -/
theorem Bounded.insert (h : r.Bounded gap) (s : Segment) :
    ∃ gap', (r.insert s).2.Bounded gap' ∧ gap ≤ gap' ∧ r.Advances (r.insert s).2 := by
  by_cases hend : r.fin = some gap
  · rw [(insert_of_fin_le hend h.gap_le_expected).2]
    exact ⟨gap, h, Nat.le_refl _, .refl r⟩
  have hexp : r.expected = gap := h.expected_eq.trans (if_neg hend)
  rcases r.insert_cases s with heq | ⟨fin, ahead, hfin, hstored, heq⟩
  · rw [heq]
    exact ⟨gap, h, Nat.le_refl _, .refl r⟩
  rw [heq]
  obtain ⟨hsorted, hahead⟩ := h.stored hexp hstored
  refine h.advance hexp ?_ hsorted hahead
  rcases hfin with rfl | ⟨-, -, rfl, -, hle⟩
  · exact h.fin_le
  · intro n hn
    exact Nat.le_trans (Nat.le_of_eq (Option.some.inj hn).symm) hle

/-! ## Deliveries -/

section Deliver

variable {σ : Type} (take : σ → Bytes → Nat × σ) (sink : σ)

/-- The acknowledged fragments are offered first, and the others only if none of these is left. -/
theorem offer_cases (r : Reassembly) :
    let d := drain take r.acked r.delivered sink
    let d' := drain take r.ahead d.position d.sink
    r.offer take sink =
        (d.blocked, { r with acked := d.pending, delivered := d.position }, d.sink) ∨
      d.blocked = false ∧ d.pending.toList = [] ∧ r.offer take sink =
        (d'.blocked, { r with acked := d.pending, ahead := d'.pending, delivered := d'.position },
          d'.sink) := by
  intro d d'
  unfold offer
  simp only
  split
  next => exact .inl rfl
  next hopen =>
    simp only [Queue.isEmpty_eq, Bool.or_eq_true, Bool.not_eq_true', not_or, Bool.not_eq_true,
      Bool.not_eq_false, List.isEmpty_iff] at hopen
    exact .inr ⟨hopen.1, hopen.2, rfl⟩

/-- A delivery is its offers, and the news of the end if they led there. -/
theorem deliver_cases (r : Reassembly) :
    let after := (r.offer take sink).2.1
    (r.deliver take sink).2.2 = (r.offer take sink).2.2 ∧
      ((r.deliver take sink).1.eof = false ∧ (r.deliver take sink).2.1 = after ∨
        (r.deliver take sink).1.eof = true ∧ (r.offer take sink).1 = false ∧
          after.finished = false ∧ after.fin = some after.delivered ∧
          (r.deliver take sink).2.1 =
            { after with delivered := nextPosition after.delivered, finished := true }) := by
  unfold deliver
  generalize r.offer take sink = offered
  obtain ⟨blocked, after, sink'⟩ := offered
  simp only
  split
  next => exact ⟨rfl, .inl ⟨rfl, rfl⟩⟩
  next hblocked =>
    split
    next hfin =>
      simp only [Bool.and_eq_true, Bool.not_eq_true', beq_iff_eq] at hfin
      exact ⟨rfl, .inr ⟨rfl, by simpa using hblocked, hfin.1, hfin.2, rfl⟩⟩
    next => exact ⟨rfl, .inl ⟨rfl, rfl⟩⟩

/-- What is left of a fragment that the sink stopped in. -/
theorem leftAt_spec {p : Nat} (h : f.Covers p) :
    (f.leftAt p).bytes ≠ [] ∧ f.start ≤ (f.leftAt p).start ∧ (f.leftAt p).stop = f.stop := by
  obtain ⟨hstart, hstop⟩ := h
  refine ⟨List.ne_nil_of_length_pos ?_, hstart, Fragment.leftAt_stop hstart (Nat.le_of_lt hstop)⟩
  simp only [Fragment.leftAt, List.length_drop, Fragment.stop] at hstop ⊢
  omega

/-- What holds of fragments with bytes, and then of what is left of them, holds of what waits after
the offers. -/
theorem forall_mem_drain {P : Fragment → Prop} {pending : Queue Fragment} (position : Nat)
    (hs : Fragment.Sorted pending.toList)
    (hP : ∀ f ∈ pending.toList, f.bytes ≠ [] ∧ P f)
    (hleft : ∀ f p, f.Covers p → P f → P (f.leftAt p)) :
    ∀ f ∈ (drain take pending position sink).pending.toList, f.bytes ≠ [] ∧ P f := by
  intro g hg
  rcases (drain_spec take pending position sink).mem_pending hs hg with hg | ⟨f, hf, hp, rfl⟩
  · exact hP g hg
  · exact ⟨(leftAt_spec hp).1, hleft f _ hp (hP f hf).2⟩

/-- Until the application is told of the end, it is offered acknowledged fragments alone. -/
theorem Bounded.offer_eq (h : r.Bounded gap) (hd : r.delivered ≤ gap) :
    let d := drain take r.acked r.delivered sink
    d.position ≤ gap ∧ r.offer take sink =
      (d.blocked, { r with acked := d.pending, delivered := d.position }, d.sink) := by
  intro d
  have hle : d.position ≤ gap :=
    (drain_spec take r.acked r.delivered sink).position_le hd fun f hf => (h.acked f hf).2
  refine ⟨hle, ?_⟩
  rcases r.offer_cases take sink with heq | ⟨hopen, -, heq⟩
  · exact heq
  · have hrest : drain take r.ahead d.position d.sink = ⟨r.ahead, d.position, false, d.sink⟩ :=
      drain_eq_of_lt fun f hf => Nat.lt_of_le_of_lt hle (h.ahead f hf).2.1
    rw [heq, hrest, hopen]

/-- A sink may take what it likes of the fragments. -/
theorem Bounded.handOver {acked ahead : Queue Fragment} {position : Nat} (h : r.Bounded gap)
    (hpos : r.delivered ≤ position) (hlast : position ≤ lastPosition)
    (hacked_sorted : Fragment.Sorted acked.toList) (hahead_sorted : Fragment.Sorted ahead.toList)
    (hacked : ∀ f ∈ acked.toList, f.bytes ≠ [] ∧ f.stop ≤ gap)
    (hahead : ∀ f ∈ ahead.toList, f.bytes ≠ [] ∧ gap < f.start ∧ f.stop ≤ r.windowEnd)
    (hunfinished : r.finished = false → position ≤ gap) :
    Bounded gap { r with acked, ahead, delivered := position } ∧
      r.Advances { r with acked, ahead, delivered := position } := by
  have hadvances : r.Advances { r with acked, ahead, delivered := position } :=
    ⟨Nat.le_refl _, hpos, rfl⟩
  have hend := hadvances.windowEnd_le
  refine ⟨⟨h.expected_eq, Nat.le_trans h.gap_le hend, hacked_sorted, hahead_sorted, hacked,
    fun f hf => ?_, fun fin hfin => ?_, hlast, hunfinished⟩, hadvances⟩
  · obtain ⟨hne, hlt, hstop⟩ := hahead f hf
    exact ⟨hne, hlt, Nat.le_trans hstop hend⟩
  · exact Nat.le_trans (h.fin_le fin hfin) hend

theorem Bounded.offer (h : r.Bounded gap) :
    (r.offer take sink).2.1.Bounded gap ∧ r.Advances (r.offer take sink).2.1 := by
  have hfirst := drain_spec take r.acked r.delivered sink
  have hlast := h.gap_le_lastPosition
  have hposition := hfirst.position_le h.delivered_le fun f hf =>
    Nat.le_trans (h.acked f hf).2 hlast
  have hunfinished (hun : r.finished = false) :=
    hfirst.position_le (h.unfinished hun) fun f hf => (h.acked f hf).2
  have hacked := forall_mem_drain (P := fun f => f.stop ≤ gap) take sink r.delivered
    h.acked_sorted h.acked fun f p hp hf => Nat.le_trans (Nat.le_of_eq (leftAt_spec hp).2.2) hf
  rcases r.offer_cases take sink with heq | ⟨-, -, heq⟩
  · rw [heq]
    exact h.handOver hfirst.le hposition (hfirst.sorted h.acked_sorted) h.ahead_sorted hacked
      h.ahead hunfinished
  · rw [heq]
    generalize drain take r.acked r.delivered sink = d at *
    have hsecond := drain_spec take r.ahead d.position d.sink
    have hposition' := hsecond.position_le hposition fun f hf =>
      Nat.le_trans (h.ahead f hf).2.2 r.windowEnd_le_lastPosition
    have hahead := forall_mem_drain (P := fun f => gap < f.start ∧ f.stop ≤ r.windowEnd)
      take d.sink d.position h.ahead_sorted h.ahead fun f p hp hf => by
        obtain ⟨-, hstart, hstop⟩ := leftAt_spec hp
        exact ⟨Nat.lt_of_lt_of_le hf.1 hstart, by rw [hstop]; exact hf.2⟩
    refine h.handOver (Nat.le_trans hfirst.le hsecond.le) hposition' (hfirst.sorted h.acked_sorted)
      (hsecond.sorted h.ahead_sorted) hacked hahead fun hun => ?_
    rw [drain_eq_of_lt fun f hf => Nat.lt_of_le_of_lt (hunfinished hun) (h.ahead f hf).2.1]
    exact hunfinished hun

/-- Whatever a sink takes, the gap stays where it is. -/
theorem Bounded.deliver (h : r.Bounded gap) :
    (r.deliver take sink).2.1.Bounded gap ∧ r.Advances (r.deliver take sink).2.1 := by
  obtain ⟨hbounded, hadvances⟩ := h.offer take sink
  obtain ⟨-, hcases⟩ := r.deliver_cases take sink
  generalize (r.offer take sink).2.1 = after at *
  rcases hcases with ⟨-, heq⟩ | ⟨-, -, -, -, heq⟩
  · rw [heq]
    exact ⟨hbounded, hadvances⟩
  · rw [heq]
    have hnext := le_nextPosition hbounded.delivered_le
    have hagain : after.Advances { after with delivered := nextPosition after.delivered } :=
      ⟨Nat.le_refl _, hnext, rfl⟩
    have hend := hagain.windowEnd_le
    refine ⟨⟨hbounded.expected_eq, Nat.le_trans hbounded.gap_le hend, hbounded.acked_sorted,
      hbounded.ahead_sorted, hbounded.acked, fun f hf => ?_, fun fin hfin => ?_,
      nextPosition_le_lastPosition _, by simp⟩, hadvances.expected_le,
      Nat.le_trans hadvances.delivered_le hnext, hadvances.capacity_eq⟩
    · obtain ⟨hne, hlt, hstop⟩ := hbounded.ahead f hf
      exact ⟨hne, hlt, Nat.le_trans hstop hend⟩
    · exact Nat.le_trans (hbounded.fin_le fin hfin) hend

end Deliver

/-! ## All calls -/

theorem Bounded.perform (h : r.Bounded gap) (c : Call) :
    ∃ gap', (r.perform c).Bounded gap' ∧ r.Advances (r.perform c) := by
  cases c with
  | insert s =>
    obtain ⟨gap', hbounded, -, hadvances⟩ := h.insert s
    exact ⟨gap', hbounded, hadvances⟩
  | deliver take sink => exact ⟨gap, h.deliver take sink⟩

theorem Bounded.performAll (h : r.Bounded gap) (calls : List Call) :
    ∃ gap', (r.performAll calls).Bounded gap' ∧ r.Advances (r.performAll calls) := by
  induction calls generalizing r gap with
  | nil => exact ⟨gap, h, .refl r⟩
  | cons c calls ih =>
    obtain ⟨gap', hbounded, hadvances⟩ := h.perform c
    obtain ⟨gap'', hbounded', hadvances'⟩ := ih hbounded
    exact ⟨gap'', hbounded', hadvances.trans hadvances'⟩

end Reassembly

end ReliableStream
