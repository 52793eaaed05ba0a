import ReliableStream.Proofs.Receiving.Delivery
import ReliableStream.Proofs.Tiling
import ReliableStream.Receiving.Reassembly

/-!
# What arrives and what is delivered

* `insert_cases`: a segment changes nothing, or a fragment of it is stored (`Stored`), its FIN
  recorded, or both, and then the gap is closed as far as can be (`closeGap_spec`).
* `Follows t`: all that the buffer holds is what the stream `t` has there, and its counters agree
  with `t`. It holds at the beginning, slices of `t` and deliveries keep it (`Follows.insert`,
  `Follows.deliver`), and so does the growth of `t` (`Follows.mono`).
* `Consistent.offer_eq`, `Follows.deliver_cases`: only acknowledged fragments are offered, and
  what a delivery does is what `drain` does with them.
-/

namespace ReliableStream.Reassembly

variable {r : Reassembly} {s : Segment} {f : Fragment} {t u : Stream}

/-! ## The gap -/

/-- What `r'` is when the fragments `gone`, which continue what `r` has acknowledged, are
acknowledged too, and no more can be. -/
structure ClosesGap (r r' : Reassembly) (gone : List Fragment) : Prop where
  acked : r'.acked.toList = r.acked.toList ++ gone
  ahead : r.ahead.toList = gone ++ r'.ahead.toList
  le : r.expected ≤ r'.expected
  covered : ∀ p, r.expected ≤ p → p < r'.expected → ∃ f ∈ gone, f.Covers p
  stop_le : ∀ f ∈ gone, f.stop ≤ r'.expected
  gap : ∀ f ∈ r'.ahead.toList.head?, r'.expected < f.start
  /-- Fragments that do not overlap leave none of their bytes out. -/
  tiles : r.ahead.toList.Pairwise (·.stop ≤ ·.start) →
    (∀ f ∈ r.ahead.toList, r.expected ≤ f.start) →
    Tiles Fragment.start Fragment.stop r.expected gone r'.expected
  eq_rest : r' = { r with acked := r'.acked, ahead := r'.ahead, expected := r'.expected }

theorem closeGap_spec (r : Reassembly) : ∃ gone, r.ClosesGap r.closeGap gone := by
  fun_induction closeGap r with
  | case1 r hnone =>
    have hhead := Queue.popIf?_eq_none_iff.mp hnone
    refine ⟨[], by simp, by simp, Nat.le_refl _, fun p _ _ => by omega, by simp, fun f hf => ?_,
      fun _ _ => rfl, rfl⟩
    simpa using hhead f hf
  | case2 r f ahead hpop ih =>
    obtain ⟨hf, hq⟩ := Queue.popIf?_eq_some hpop
    simp only [decide_eq_true_eq] at hf
    obtain ⟨gone, h⟩ := ih
    have hle := h.le
    refine ⟨f :: gone, by simpa using h.acked, by rw [hq]; simpa using h.ahead,
      Nat.le_trans (Nat.le_max_left _ _) hle, fun p hp₁ hp₂ => ?_, fun g hg => ?_, h.gap,
      fun hsep hstart => ?_, h.eq_rest⟩
    · by_cases hp : p < f.stop
      · exact ⟨f, .head gone, by omega, hp⟩
      · obtain ⟨g, hg, hgp⟩ := h.covered p (by simp only; omega) hp₂
        exact ⟨g, .tail f hg, hgp⟩
    · rcases List.mem_cons.mp hg with rfl | hg
      · exact Nat.le_trans (Nat.le_max_right _ _) hle
      · exact h.stop_le g hg
    · rw [hq] at hsep hstart
      obtain ⟨hnext, hsep⟩ := List.pairwise_cons.mp hsep
      have heq : f.start = r.expected := Nat.le_antisymm hf (hstart f (.head _))
      have hmax : max r.expected f.stop = f.stop := by
        rw [← heq]
        exact Nat.max_eq_right f.start_le_stop
      have hrest : ∀ g ∈ ahead.toList, max r.expected f.stop ≤ g.start := by
        rw [hmax]
        exact hnext
      have htiles := h.tiles hsep hrest
      generalize closeGap _ = r' at htiles ⊢
      simp only [hmax] at htiles
      exact ⟨heq, htiles⟩

/-- The gap closes up to the end of a fragment. -/
theorem ClosesGap.expected_eq {r' : Reassembly} {gone : List Fragment} (h : r.ClosesGap r' gone) :
    r'.expected = r.expected ∨ ∃ f ∈ gone, r'.expected = f.stop := by
  have hle := h.le
  by_cases heq : r'.expected = r.expected
  · exact .inl heq
  · obtain ⟨f, hf, hp⟩ := h.covered (r'.expected - 1) (by omega) (by omega)
    have := h.stop_le f hf
    have := hp.2
    exact .inr ⟨f, hf, by omega⟩

/-! ## Storing -/

/-- `f` is what the window of `r` lets through of the payload of `s`. -/
structure Usable (r : Reassembly) (s : Segment) (f : Fragment) : Prop where
  start_eq : f.start = max s.start r.expected
  isPrefix : f.bytes <+: s.payload.drop (f.start - s.start)
  ne_nil : f.bytes ≠ []
  stop_le : f.stop ≤ r.windowEnd

theorem limit_le (r : Reassembly) : r.limit ≤ r.windowEnd := by
  unfold limit
  split
  · exact Nat.min_le_left _ _
  · exact Nat.le_refl _

/-- What is usable of the payload begins with the first byte that is missing and ends at the
limit. -/
theorem usable?_eq_some (h : r.usable? s = some f) :
    f.start = max s.start r.expected ∧ f.stop = min (s.start + s.payload.length) r.limit ∧
      f.start < f.stop ∧ f.bytes <+: s.payload.drop (f.start - s.start) := by
  unfold usable? at h
  simp only at h
  split at h
  next hlt =>
    obtain rfl := Option.some.inj h
    simp only [Fragment.stop, List.length_drop, List.length_take]
    refine ⟨trivial, by omega, by omega, ?_⟩
    rw [List.drop_take]
    exact List.take_prefix _ _
  next => cases h

theorem usable_of_usable? (h : r.usable? s = some f) : r.Usable s f := by
  obtain ⟨hstart, hstop, hlt, hprefix⟩ := usable?_eq_some h
  have hlim := r.limit_le
  refine ⟨hstart, hprefix, fun hnil => ?_, by omega⟩
  rw [Fragment.stop, hnil] at hlt
  exact Nat.lt_irrefl _ hlt

/-- The fragments ahead of the gap once `f` is stored. -/
inductive Stored (r : Reassembly) (f : Fragment) : Queue Fragment → Prop
  /-- It closes the gap. -/
  | front : f.start ≤ r.expected → Stored r f (r.ahead.pushFront f)
  /-- It waits behind the gap. -/
  | behind {ahead : Queue Fragment} : r.expected < f.start → f.put? r.ahead = some ahead →
      Stored r f ahead

theorem stored_of_store? {r' : Reassembly} (h : r.store? f = some r') :
    ∃ ahead, r.Stored f ahead ∧ r' = { r with ahead } := by
  unfold store? at h
  split at h
  next hle =>
    obtain rfl := Option.some.inj h
    exact ⟨_, .front hle, rfl⟩
  next hgt =>
    obtain ⟨ahead, hput, rfl⟩ := Option.map_eq_some_iff.mp h
    exact ⟨ahead, .behind (by omega) hput, rfl⟩

theorem Stored.mem {ahead : Queue Fragment} (h : r.Stored f ahead)
    (hs : Fragment.Sorted r.ahead.toList) :
    ∀ g ∈ ahead.toList, g = f ∨ g ∈ r.ahead.toList := by
  cases h with
  | front _ => simp
  | behind _ hput =>
    have hp := Fragment.toList_put? (f := f) hs
    rw [hput, Option.map_some] at hp
    exact Fragment.mem_of_putInto? hp.symm

theorem Stored.sorted {ahead : Queue Fragment} (h : r.Stored f ahead)
    (hs : Fragment.Sorted r.ahead.toList) (hgap : ∀ g ∈ r.ahead.toList, r.expected < g.start) :
    Fragment.Sorted ahead.toList := by
  cases h with
  | front hle =>
    rw [Queue.toList_pushFront]
    refine List.pairwise_cons.mpr ⟨fun g hg => ?_, hs⟩
    have := hgap g hg
    omega
  | behind _ hput =>
    have hp := Fragment.toList_put? (f := f) hs
    rw [hput, Option.map_some] at hp
    exact Fragment.sorted_of_putInto? hs hp.symm

/-- The FIN that is recorded after the segment arrived. -/
def RecordsFin (r : Reassembly) (s : Segment) (fin : Option Nat) : Prop :=
  fin = r.fin ∨ r.fin = none ∧ s.hasFin = true ∧ fin = some (s.start + s.payload.length) ∧
    r.expected ≤ s.start + s.payload.length ∧ s.start + s.payload.length ≤ r.windowEnd

theorem recordsFin_newFin? (r : Reassembly) (s : Segment) :
    r.RecordsFin s ((r.newFin? s).or r.fin) := by
  unfold newFin?
  simp only
  split
  next h =>
    obtain ⟨hs, hn, hw, he⟩ := h
    exact .inr ⟨by simpa using hn, hs, rfl, he, hw⟩
  next => exact .inl rfl

/-- Something is stored of a segment, whatever FIN is recorded. -/
theorem stored_of_bind {r' : Reassembly} {fin : Option Nat}
    (hbind : (({ r with fin } : Reassembly).usable? s).bind ({ r with fin } : Reassembly).store? =
      some r') :
    ∃ ahead, (∃ f, r.Usable s f ∧ r.Stored f ahead) ∧ r' = { r with fin, ahead } := by
  obtain ⟨f, hus, hst⟩ := Option.bind_eq_some_iff.mp hbind
  obtain ⟨ahead, hstored, rfl⟩ := stored_of_store? hst
  have hu := usable_of_usable? hus
  refine ⟨ahead, ⟨f, ⟨hu.1, hu.2, hu.3, hu.4⟩, ?_⟩, rfl⟩
  cases hstored with
  | front h => exact .front h
  | behind h h' => exact .behind h h'

/-- All that an arriving segment can do. -/
theorem insert_cases (r : Reassembly) (s : Segment) :
    (r.insert s).2 = r ∨ ∃ fin ahead, r.RecordsFin s fin ∧
      (ahead = r.ahead ∨ ∃ f, r.Usable s f ∧ r.Stored f ahead) ∧
      (r.insert s).2 = { r with fin, ahead }.advance := by
  unfold insert
  split
  · exact .inl rfl
  next =>
    simp only
    split
    next r' hbind =>
      obtain ⟨ahead, hstored, rfl⟩ := stored_of_bind hbind
      exact .inr ⟨_, ahead, r.recordsFin_newFin? s, .inr hstored, rfl⟩
    next =>
      split
      · exact .inr ⟨_, r.ahead, r.recordsFin_newFin? s, .inl rfl, rfl⟩
      · exact .inl rfl

/-- What arrives has no part in what was delivered. -/
theorem insert_eq (r : Reassembly) (s : Segment) : ∃ acked ahead expected fin,
    (r.insert s).2 = { r with acked, ahead, expected, fin } := by
  rcases r.insert_cases s with heq | ⟨fin, ahead, -, -, heq⟩
  · exact ⟨r.acked, r.ahead, r.expected, r.fin, heq⟩
  · obtain ⟨gone, hgap⟩ := closeGap_spec { r with fin, ahead }
    rw [heq]
    unfold advance
    rw [hgap.eq_rest]
    exact ⟨_, _, _, _, rfl⟩

/-- The application learns nothing from what arrives. -/
theorem finished_insert (r : Reassembly) (s : Segment) :
    (r.insert s).2.finished = r.finished := by
  obtain ⟨acked, ahead, expected, fin, heq⟩ := r.insert_eq s
  rw [heq]

/-! ## Agreement with a stream -/

/-- All that the buffer holds and has recorded is what the stream has there. -/
structure Consistent (t : Stream) (r : Reassembly) : Prop where
  first_le : firstPosition ≤ r.delivered
  delivered_le : r.delivered ≤ r.expected
  fin_eq : ∀ fin, r.fin = some fin → t.ended = true ∧ fin = t.stop
  expected_le : r.expected ≤ t.stop ∨ r.fin = some t.stop ∧ r.expected = t.stop + 1
  finished_iff : r.finished = true ↔ t.stop < r.delivered
  acked_sorted : Fragment.Sorted r.acked.toList
  ahead_sorted : Fragment.Sorted r.ahead.toList
  acked : ∀ f ∈ r.acked.toList,
    f.bytes ≠ [] ∧ t.HoldsAt f.start f.bytes ∧ f.stop ≤ r.expected
  ahead : ∀ f ∈ r.ahead.toList,
    f.bytes ≠ [] ∧ t.HoldsAt f.start f.bytes ∧ r.expected < f.start

/-- As `Consistent`, and a FIN that is next is acknowledged. -/
structure Follows (t : Stream) (r : Reassembly) : Prop extends Consistent t r where
  settled : r.fin ≠ some r.expected

theorem follows_start (t : Stream) (capacity : Nat) : Follows t { capacity } where
  first_le := Nat.le_refl _
  delivered_le := Nat.le_refl _
  fin_eq := by simp
  expected_le := .inl (Nat.le_add_right _ _)
  finished_iff := by simp [Stream.stop]
  acked_sorted := .nil
  ahead_sorted := .nil
  acked := by simp
  ahead := by simp
  settled := by simp

theorem Follows.mono (h : r.Follows t) (hg : t.GrowsTo u) : r.Follows u := by
  cases hfin : r.fin with
  | some fin =>
    obtain rfl := hg.ended (h.fin_eq fin hfin).1
    exact h
  | none =>
    have hle := hg.stop_le
    have hexp := h.expected_le.resolve_right (by simp [hfin])
    have hdel := h.delivered_le
    have hunf := h.finished_iff
    refine ⟨⟨h.first_le, hdel, by simp [hfin], .inl (by omega), ?_, h.acked_sorted,
      h.ahead_sorted, fun f hf => ?_, fun f hf => ?_⟩, h.settled⟩
    · rw [hunf]
      omega
    · exact ⟨(h.acked f hf).1, (h.acked f hf).2.1.mono hg, (h.acked f hf).2.2⟩
    · exact ⟨(h.ahead f hf).1, (h.ahead f hf).2.1.mono hg, (h.ahead f hf).2.2⟩

/-- Nothing is acknowledged that the stream does not have. -/
theorem Consistent.expected_le_next (h : r.Consistent t) : r.expected ≤ t.next := by
  unfold Stream.next
  rcases h.expected_le with hle | ⟨hfin, heq⟩
  · exact Nat.le_trans hle (Nat.le_add_right _ _)
  · rw [heq, (h.fin_eq _ hfin).1]
    rfl

/-- Nothing waits behind the end of the stream. -/
theorem Consistent.ahead_eq_nil (h : r.Consistent t) (he : t.stop ≤ r.expected) :
    r.ahead.toList = [] := by
  refine List.eq_nil_iff_forall_not_mem.mpr fun f hf => ?_
  obtain ⟨hne, hat, hlt⟩ := h.ahead f hf
  have := hat.stop_le hne
  omega

theorem Follows.clear (h : r.Follows t) : r.clear.Follows t :=
  { h with
    acked_sorted := .nil
    ahead_sorted := .nil
    acked := by simp [Reassembly.clear]
    ahead := by simp [Reassembly.clear] }

/-! ## Arrivals -/

/-- What is left behind the gap when it is closed lies beyond what is acknowledged. -/
theorem ClosesGap.lt_start {r' : Reassembly} {gone : List Fragment} (h : r.ClosesGap r' gone)
    (hs : Fragment.Sorted r'.ahead.toList) : ∀ f ∈ r'.ahead.toList, r'.expected < f.start :=
  hs.lt_start h.gap

/-- The gap is closed with pieces of the stream. -/
theorem Consistent.closeGap {fin : Option Nat} {ahead : Queue Fragment} {mid : Reassembly}
    {gone : List Fragment} (h : r.Consistent t)
    (hfin : ∀ n, fin = some n → t.ended = true ∧ n = t.stop)
    (hkeep : ∀ n, r.fin = some n → fin = some n) (hsorted : Fragment.Sorted ahead.toList)
    (hahead : ∀ f ∈ ahead.toList,
      f.bytes ≠ [] ∧ t.HoldsAt f.start f.bytes ∧ r.expected ≤ f.start)
    (hgap : { r with fin, ahead }.ClosesGap mid gone) : mid.Consistent t := by
  have hacked : mid.acked.toList = r.acked.toList ++ gone := hgap.acked
  have hsplit : ahead.toList = gone ++ mid.ahead.toList := hgap.ahead
  have hle : r.expected ≤ mid.expected := hgap.le
  have hmid : mid.fin = fin ∧ mid.delivered = r.delivered ∧ mid.finished = r.finished := by
    rw [hgap.eq_rest]
    exact ⟨rfl, rfl, rfl⟩
  rw [hsplit] at hsorted hahead
  obtain ⟨hs_gone, hs_ahead, -⟩ := List.pairwise_append.mp hsorted
  refine ⟨?_, ?_, ?_, ?_, ?_, ?_, hs_ahead, fun f hf => ?_, fun f hf => ?_⟩
  · rw [hmid.2.1]
    exact h.first_le
  · rw [hmid.2.1]
    exact Nat.le_trans h.delivered_le hle
  · rw [hmid.1]
    exact hfin
  · rw [hmid.1]
    rcases hgap.expected_eq with heq | ⟨f, hf, heq⟩
    · rw [heq]
      exact h.expected_le.imp_right fun ⟨hr, he⟩ => ⟨hkeep _ hr, he⟩
    · obtain ⟨hne, hat, -⟩ := hahead f (List.mem_append_left _ hf)
      rw [heq]
      exact .inl (hat.stop_le hne)
  · rw [hmid.2.1, hmid.2.2]
    exact h.finished_iff
  · rw [hacked]
    refine List.pairwise_append.mpr ⟨h.acked_sorted, hs_gone, fun f hf g hg => ?_⟩
    have := Fragment.start_lt_stop (h.acked f hf).1
    have := (h.acked f hf).2.2
    have := (hahead g (List.mem_append_left _ hg)).2.2
    omega
  · rw [hacked] at hf
    rcases List.mem_append.mp hf with hf | hf
    · exact ⟨(h.acked f hf).1, (h.acked f hf).2.1, Nat.le_trans (h.acked f hf).2.2 hle⟩
    · obtain ⟨hne, hat, -⟩ := hahead f (List.mem_append_left _ hf)
      exact ⟨hne, hat, hgap.stop_le f hf⟩
  · obtain ⟨hne, hat, -⟩ := hahead f (List.mem_append_right _ hf)
    exact ⟨hne, hat, hgap.lt_start hs_ahead f hf⟩

theorem nextPosition_stop (ht : t.next ≤ lastPosition) (he : t.ended = true) :
    nextPosition t.stop = t.stop + 1 := by
  rw [Stream.next, he] at ht
  exact Nat.min_eq_left ht

/-- The FIN is acknowledged if it is next. -/
theorem Consistent.acknowledgeFin (h : r.Consistent t) (ht : t.next ≤ lastPosition) :
    Follows t { r with
      expected := if r.fin = some r.expected then nextPosition r.expected else r.expected } := by
  by_cases hreach : r.fin = some r.expected
  · obtain ⟨he, hstop⟩ := h.fin_eq _ hreach
    have hnext := nextPosition_stop ht he
    have hdel := h.delivered_le
    have hnil := h.ahead_eq_nil (Nat.le_of_eq hstop.symm)
    rw [if_pos hreach, hstop, hnext]
    rw [hstop] at hdel hreach
    refine ⟨⟨h.first_le, Nat.le_succ_of_le hdel, h.fin_eq, .inr ⟨hreach, rfl⟩, h.finished_iff,
      h.acked_sorted, h.ahead_sorted, fun f hf => ?_, by simp [hnil]⟩, ?_⟩
    · obtain ⟨hne, hat, -⟩ := h.acked f hf
      exact ⟨hne, hat, Nat.le_succ_of_le (hat.stop_le hne)⟩
    · rw [hreach]
      simp
  · rw [if_neg hreach]
    exact ⟨h, hreach⟩

/-- What is stored of a slice of the stream is a piece of the stream. -/
theorem Usable.holdsAt (hu : r.Usable s f) (hs : s.SliceOf t) : t.HoldsAt f.start f.bytes := by
  have hne : s.payload ≠ [] := by
    intro hnil
    have hlen := hu.isPrefix.length_le
    rw [hnil, List.drop_nil] at hlen
    exact hu.ne_nil (List.eq_nil_of_length_eq_zero (Nat.le_zero.mp hlen))
  have hd := (hs.payload hne).drop (f.start - s.start)
  have := hu.start_eq
  rw [show s.start + (f.start - s.start) = f.start by omega] at hd
  exact ⟨hd.1, hu.isPrefix.trans hd.2⟩

/-- The FIN that a slice of the stream brings is that of the stream. -/
theorem RecordsFin.fin_eq {fin : Option Nat} (hr : r.RecordsFin s fin) (h : r.Consistent t)
    (hs : s.SliceOf t) :
    (∀ n, fin = some n → t.ended = true ∧ n = t.stop) ∧ ∀ n, r.fin = some n → fin = some n := by
  rcases hr with rfl | ⟨hnone, hf, rfl, -⟩
  · exact ⟨h.fin_eq, fun _ hn => hn⟩
  · refine ⟨fun n hn => ?_, by simp [hnone]⟩
    rw [← Option.some.inj hn]
    exact hs.fin hf

/-- A slice of the stream that arrives keeps the agreement. -/
theorem Follows.insert (h : r.Follows t) (ht : t.next ≤ lastPosition) (hs : s.SliceOf t) :
    (r.insert s).2.Follows t := by
  rcases r.insert_cases s with heq | ⟨fin, ahead, hfin, hstored, heq⟩
  · rw [heq]
    exact h
  · rw [heq]
    obtain ⟨hfin_eq, hkeep⟩ := hfin.fin_eq h.toConsistent hs
    obtain ⟨gone, hgap⟩ := closeGap_spec { r with fin, ahead }
    refine Consistent.acknowledgeFin (h.closeGap hfin_eq hkeep ?_ ?_ hgap) ht
    · rcases hstored with rfl | ⟨f, -, hst⟩
      · exact h.ahead_sorted
      · exact hst.sorted h.ahead_sorted fun g hg => (h.ahead g hg).2.2
    · have hold : ∀ g ∈ r.ahead.toList,
          g.bytes ≠ [] ∧ t.HoldsAt g.start g.bytes ∧ r.expected ≤ g.start :=
        fun g hg => ⟨(h.ahead g hg).1, (h.ahead g hg).2.1, Nat.le_of_lt (h.ahead g hg).2.2⟩
      rcases hstored with rfl | ⟨f, hu, hst⟩
      · exact hold
      · intro g hg
        rcases hst.mem h.ahead_sorted g hg with rfl | hg
        · exact ⟨hu.ne_nil, hu.holdsAt hs, by rw [hu.start_eq]; exact Nat.le_max_right _ _⟩
        · exact hold g hg

/-! ## Deliveries -/

section Deliver

variable {σ : Type} (take : σ → Bytes → Nat × σ) (sink : σ)

/-- What each offer keeps of the sink, a delivery keeps. -/
theorem deliver_keeps {P : σ → Prop} (hP : ∀ s b, P s → P (take s b).2) (h : P sink) :
    P (r.deliver take sink).2.2 := by
  have hoffer : P (r.offer take sink).2.2 := by
    unfold offer
    simp only
    split
    · exact drain_keeps hP h
    · exact drain_keeps hP (drain_keeps hP h)
  unfold deliver
  generalize r.offer take sink = offered at hoffer
  obtain ⟨blocked, after, sink'⟩ := offered
  simp only
  split
  · exact hoffer
  · split
    · exact hoffer
    · exact hoffer

/-- The application is told of the end once. -/
theorem finished_deliver (r : Reassembly) :
    (r.deliver take sink).2.1.finished = (r.finished || (r.deliver take sink).1.eof) ∧
      ((r.deliver take sink).1.eof = true → r.finished = false) := by
  have hoffer : (r.offer take sink).2.1.finished = r.finished := by
    unfold offer
    simp only
    split <;> rfl
  unfold deliver
  generalize r.offer take sink = offered at hoffer
  obtain ⟨blocked, after, sink'⟩ := offered
  simp only at hoffer ⊢
  split
  · simp [hoffer]
  · split
    next hfin =>
      simp only [Bool.and_eq_true, Bool.not_eq_true'] at hfin
      simp [← hoffer, hfin.1]
    next => simp [hoffer]

/-- The sink gets no more than what is acknowledged, and nothing of the FIN. -/
theorem Consistent.drain_position_le (h : r.Consistent t) :
    (drain take r.acked r.delivered sink).position ≤ r.expected ∧
      (r.delivered ≤ t.stop → (drain take r.acked r.delivered sink).position ≤ t.stop) := by
  have hspec := drain_spec take r.acked r.delivered sink
  exact ⟨hspec.position_le h.delivered_le fun f hf => (h.acked f hf).2.2,
    fun hle => hspec.position_le hle fun f hf => (h.acked f hf).2.1.stop_le (h.acked f hf).1⟩

/-- What the sink left is in order, and still what the stream has there. -/
theorem Consistent.drain_pending (h : r.Consistent t) :
    Fragment.Sorted (drain take r.acked r.delivered sink).pending.toList ∧
      ∀ f ∈ (drain take r.acked r.delivered sink).pending.toList,
        f.bytes ≠ [] ∧ t.HoldsAt f.start f.bytes ∧ f.stop ≤ r.expected := by
  have hspec := drain_spec take r.acked r.delivered sink
  generalize drain take r.acked r.delivered sink = d at hspec
  have hsub := List.dropWhile_sublist (l := r.acked.toList) (·.stop ≤ d.position)
  cases hb : d.blocked with
  | false =>
    rw [(hspec.unblocked hb).1]
    exact ⟨h.acked_sorted.sublist hsub, fun f hf => h.acked f (hsub.subset hf)⟩
  | true =>
    obtain ⟨f, rest, heq, hf, hpending⟩ := hspec.blocked hb
    rw [heq] at hsub
    obtain ⟨-, hsorted⟩ := List.pairwise_cons.mp (h.acked_sorted.sublist hsub)
    rw [hpending]
    refine ⟨Fragment.sorted_putIntoIfAbsent hsorted, fun g hg => ?_⟩
    rcases (Fragment.mem_putIntoIfAbsent hsorted).mp hg with hg | ⟨rfl, -⟩
    · exact h.acked g (hsub.subset (.tail f hg))
    · obtain ⟨-, hat, hle⟩ := h.acked f (hsub.subset (.head rest))
      have hd := hat.drop (d.position - f.start)
      obtain ⟨hstart, hstop⟩ := hf
      rw [show f.start + (d.position - f.start) = d.position by omega] at hd
      refine ⟨?_, hd, by rw [Fragment.leftAt_stop hstart (Nat.le_of_lt hstop)]; exact hle⟩
      refine List.ne_nil_of_length_pos ?_
      simp only [Fragment.leftAt, List.length_drop, Fragment.stop] at hstop ⊢
      omega

/-- Only acknowledged fragments are offered: those behind the gap are out of reach. -/
theorem Consistent.offer_eq (h : r.Consistent t) :
    r.offer take sink =
      ((drain take r.acked r.delivered sink).blocked,
        { r with
          acked := (drain take r.acked r.delivered sink).pending
          delivered := (drain take r.acked r.delivered sink).position },
        (drain take r.acked r.delivered sink).sink) := by
  have hle := (h.drain_position_le take sink).1
  unfold offer
  simp only
  generalize drain take r.acked r.delivered sink = d at hle
  split
  · rfl
  next hopen =>
    have hb : d.blocked = false := by
      simp only [Bool.or_eq_true, not_or, Bool.not_eq_true] at hopen
      exact hopen.1
    rw [drain_eq_of_lt fun f hf => Nat.lt_of_le_of_lt hle (h.ahead f hf).2.2, hb]

/-- All that a delivery can do, said through what the sink took. -/
theorem Follows.deliver_cases (h : r.Follows t) (ht : t.next ≤ lastPosition) :
    let d := drain take r.acked r.delivered sink
    let after := { r with acked := d.pending, delivered := d.position }
    (r.deliver take sink).2.2 = d.sink ∧
      ((r.deliver take sink).1.eof = false ∧ (r.deliver take sink).2.1 = after ∧
          (d.blocked = false → r.finished = false → r.fin ≠ some d.position) ∨
        (r.deliver take sink).1.eof = true ∧ d.blocked = false ∧ r.finished = false ∧
          r.fin = some t.stop ∧ d.position = t.stop ∧ r.expected = t.stop + 1 ∧
          (r.deliver take sink).2.1 =
            { after with delivered := t.stop + 1, finished := true }) := by
  intro d after
  have hle := (h.drain_position_le take sink).1
  unfold deliver
  rw [h.offer_eq take sink]
  simp only
  split
  next hb => exact ⟨rfl, .inl ⟨rfl, rfl, fun hb' => by rw [hb] at hb'; cases hb'⟩⟩
  next hb =>
    split
    next hfin =>
      simp only [Bool.and_eq_true, Bool.not_eq_true', beq_iff_eq] at hfin
      obtain ⟨he, hpos⟩ := h.fin_eq _ hfin.2
      have hexp := h.expected_le
      have hset := h.settled
      rw [hfin.2] at hset
      refine ⟨rfl, .inr ⟨rfl, by simpa using hb, hfin.1, by rw [hfin.2, hpos], hpos, ?_, ?_⟩⟩
      · have : (drain take r.acked r.delivered sink).position ≠ r.expected :=
          fun heq => hset (by rw [heq])
        omega
      · rw [hpos, nextPosition_stop ht he]
    next hfin =>
      refine ⟨rfl, .inl ⟨rfl, rfl, fun _ hun hf => hfin ?_⟩⟩
      simp only [d] at hf
      simp [hun, hf]

/-- A delivery keeps the agreement. -/
theorem Follows.deliver (h : r.Follows t) (ht : t.next ≤ lastPosition) :
    (r.deliver take sink).2.1.Follows t := by
  obtain ⟨hle, hle_stop⟩ := h.drain_position_le take sink
  have hspec := drain_spec take r.acked r.delivered sink
  have hfirst := h.first_le
  have hpos := hspec.le
  have hunf := h.finished_iff
  have hexp := h.expected_le
  obtain ⟨-, hcases⟩ := h.deliver_cases take sink ht
  have hpending := h.drain_pending take sink
  simp only at hcases
  generalize drain take r.acked r.delivered sink = d at *
  rcases hcases with ⟨-, heq, -⟩ | ⟨-, -, hun, hfin, hstop, hexp', heq⟩
  · rw [heq]
    refine ⟨⟨Nat.le_trans hfirst hpos, hle, h.fin_eq, hexp, ?_, hpending.1, h.ahead_sorted,
      hpending.2, h.ahead⟩, h.settled⟩
    simp only
    rw [hunf]
    omega
  · rw [heq]
    refine ⟨⟨?_, Nat.le_of_eq hexp'.symm, h.fin_eq, hexp, by simp, hpending.1, h.ahead_sorted,
      hpending.2, h.ahead⟩, h.settled⟩
    simp only
    omega

end Deliver

end ReliableStream.Reassembly
