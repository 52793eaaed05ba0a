import ReliableStream.Proofs.Receiving.Retention
import ReliableStream.Proofs.Sending.Source

/-!
# A buffer that gets a stream in its sender's pieces

A sender always sends the same pieces, so the fragments that its segments leave behind do not
overlap: each of them begins where a piece does, or where the fragment before it ends. A buffer of
such fragments is `Aligned`. The acknowledged ones then lie end to end, and a sink never stops where
another fragment begins, so nothing is lost (`Aligned.keeps`).
-/

namespace ReliableStream.Reassembly

variable {r : Reassembly} {s : Segment} {f g : Fragment} {t u : Source}

/-- The fragment is the beginning of a piece. -/
def Begins (t : Source) (f : Fragment) : Prop := ∃ x, t.PieceAt f.start x ∧ f.bytes <+: x

/-- The fragment lies in a piece. -/
def Within (t : Source) (f : Fragment) : Prop :=
  ∃ p x, t.PieceAt p x ∧ p ≤ f.start ∧ f.stop ≤ p + x.length

structure Aligned (t : Source) (r : Reassembly) : Prop where
  acked : Tiles Fragment.start Fragment.stop (min r.delivered t.stream.stop) r.acked.toList
    (min r.expected t.stream.stop)
  ahead : ∀ f ∈ r.ahead.toList, Begins t f

theorem aligned_start (t : Source) (capacity : Nat) : Aligned t { capacity } where
  acked := rfl
  ahead := by simp

theorem Begins.within (h : Begins t f) : Within t f := by
  obtain ⟨x, hx, hpre⟩ := h
  exact ⟨f.start, x, hx, Nat.le_refl _, Nat.add_le_add_left hpre.length_le _⟩

/-- A fragment ends before another one that begins with a piece. -/
theorem Within.stop_le (hf : Within t f) (hg : Begins t g) (h : f.start < g.start) :
    f.stop ≤ g.start := by
  obtain ⟨p, x, hx, hle, hstop⟩ := hf
  obtain ⟨y, hy, -⟩ := hg
  have := hx.disjoint hy (Nat.lt_of_le_of_lt hle h)
  omega

/-- The stream grows behind what was received. -/
theorem Aligned.mono (h : r.Aligned t) (hr : r.Follows t.stream) (hg : t.GrowsTo u) :
    r.Aligned u := by
  refine ⟨?_, fun f hf => ?_⟩
  · cases he : t.ended with
    | true =>
      obtain rfl := hg.ended he
      exact h.acked
    | false =>
      have hexp : r.expected ≤ t.stream.stop := by
        refine hr.expected_le.resolve_right fun ⟨hfin, _⟩ => ?_
        have hended : t.ended = true := (hr.fin_eq _ hfin).1
        rw [he] at hended
        cases hended
      have hdel := hr.delivered_le
      have hstop := hg.stream.stop_le
      have hacked := h.acked
      rw [Nat.min_eq_left (by omega), Nat.min_eq_left (by omega)] at hacked ⊢
      exact hacked
  · obtain ⟨x, hx, hpre⟩ := h.ahead f hf
    exact ⟨x, hx.mono hg, hpre⟩

/-- What is stored of a segment lies in its piece, and begins with it unless it closes the gap. -/
theorem Usable.within (hu : r.Usable s f) (hs : t.Carries s) :
    Within t f ∧ (r.expected < f.start → Begins t f) := by
  have hlen := hu.isPrefix.length_le
  have hpos := List.length_pos_iff.mpr hu.ne_nil
  have hstart := hu.start_eq
  rw [List.length_drop] at hlen
  cases hs with
  | fin he hs hp hf =>
    rw [hp] at hlen
    simp only [List.length_nil] at hlen
    omega
  | data hp hne hf =>
    refine ⟨⟨s.start, s.payload, hp, by omega, ?_⟩, fun hlt => ⟨s.payload, ?_, ?_⟩⟩
    · unfold Fragment.stop
      omega
    · rw [show f.start = s.start by omega]
      exact hp
    · have hpre := hu.isPrefix
      rwa [show f.start - s.start = 0 by omega, List.drop_zero] at hpre

/-- Fragments in order, of which all but what closes the gap begin with a piece, do not overlap. -/
theorem pairwise_stop_le {l : List Fragment} {e : Nat} (hs : Fragment.Sorted l)
    (hstart : ∀ f ∈ l, e ≤ f.start) (hin : ∀ f ∈ l, Within t f ∧ (e < f.start → Begins t f)) :
    l.Pairwise (·.stop ≤ ·.start) := by
  refine List.Pairwise.imp_of_mem (fun {f g} hf hg hlt => ?_) hs
  have := hstart f hf
  exact (hin f hf).1.stop_le ((hin g hg).2 (by omega)) hlt

/-- What is stored is still in order and in pieces. -/
theorem Aligned.stored {ahead : Queue Fragment} (h : r.Aligned t) (hr : r.Follows t.stream)
    (hs : t.Carries s) (hst : ahead = r.ahead ∨ ∃ f, r.Usable s f ∧ r.Stored f ahead) :
    Fragment.Sorted ahead.toList ∧ ahead.toList.Pairwise (·.stop ≤ ·.start) ∧ ∀ f ∈ ahead.toList,
      r.expected ≤ f.start ∧ f.start < f.stop ∧ f.stop ≤ t.stream.stop ∧
        (r.expected < f.start → Begins t f) := by
  have hold : ∀ g ∈ r.ahead.toList, r.expected ≤ g.start ∧ g.start < g.stop ∧
      g.stop ≤ t.stream.stop ∧ Within t g ∧ (r.expected < g.start → Begins t g) := by
    intro g hg
    obtain ⟨hne, hat, hlt⟩ := hr.ahead g hg
    exact ⟨Nat.le_of_lt hlt, Fragment.start_lt_stop hne, hat.stop_le hne, (h.ahead g hg).within,
      fun _ => h.ahead g hg⟩
  have hall : Fragment.Sorted ahead.toList ∧ ∀ g ∈ ahead.toList, r.expected ≤ g.start ∧
      g.start < g.stop ∧ g.stop ≤ t.stream.stop ∧ Within t g ∧
      (r.expected < g.start → Begins t g) := by
    rcases hst with rfl | ⟨f, hu, hst⟩
    · exact ⟨hr.ahead_sorted, hold⟩
    · refine ⟨hst.sorted hr.ahead_sorted fun g hg => (hr.ahead g hg).2.2, fun g hg => ?_⟩
      rcases hst.mem hr.ahead_sorted g hg with rfl | hg
      · obtain ⟨hwithin, hbegins⟩ := hu.within hs
        obtain ⟨p, x, hx, hle, hstop⟩ := hwithin
        have := hx.stop_le
        refine ⟨?_, Fragment.start_lt_stop hu.ne_nil, by omega, ⟨p, x, hx, hle, hstop⟩, hbegins⟩
        rw [hu.start_eq]
        exact Nat.le_max_right _ _
      · exact hold g hg
  refine ⟨hall.1, pairwise_stop_le hall.1 (fun f hf => (hall.2 f hf).1)
    fun f hf => (hall.2 f hf).2.2.2, fun f hf => ?_⟩
  obtain ⟨hstart, hlt, hstop, -, hbegins⟩ := hall.2 f hf
  exact ⟨hstart, hlt, hstop, hbegins⟩

/-- A segment of the sender keeps the fragments aligned. -/
theorem Aligned.insert (h : r.Aligned t) (hr : r.Follows t.stream)
    (ht : t.stream.next ≤ lastPosition) (hs : t.Carries s) (hslice : s.SliceOf t.stream) :
    (r.insert s).2.Aligned t := by
  rcases r.insert_cases s with heq | ⟨fin, ahead, hfin, hst, heq⟩
  · rw [heq]
    exact h
  · obtain ⟨hsorted, hsep, hall⟩ := h.stored hr hs hst
    obtain ⟨hfin_eq, -⟩ := hfin.fin_eq hr.toConsistent hslice
    obtain ⟨gone, hgap⟩ := closeGap_spec { r with fin, ahead }
    have hstop := hgap.expected_eq
    have hrest := hgap.eq_rest
    have hacked : _ = r.acked.toList ++ gone := hgap.acked
    have hsplit : ahead.toList = gone ++ _ := hgap.ahead
    have hle : r.expected ≤ _ := hgap.le
    have htiles := hgap.tiles hsep fun f hf => (hall f hf).1
    have hlt : Fragment.Sorted _ → _ := hgap.lt_start
    rw [heq]
    unfold advance
    generalize ({ r with fin, ahead } : Reassembly).closeGap = mid at *
    have hmid : mid.fin = fin ∧ mid.delivered = r.delivered := by
      rw [hrest]
      exact ⟨rfl, rfl⟩
    rw [hsplit] at hall hsorted
    have hlt' := hlt (List.pairwise_append.mp hsorted).2.1
    -- the end of the stream bounds what the fragments can bring the buffer to acknowledge
    have htiles' : Tiles Fragment.start Fragment.stop (min r.expected t.stream.stop) gone
        (min mid.expected t.stream.stop) := by
      cases gone with
      | nil =>
        have heq' : r.expected = mid.expected := htiles
        rw [heq']
        rfl
      | cons f rest =>
        obtain ⟨h₁, h₂, h₃, -⟩ := hall f (.head _)
        have hmid_le : mid.expected ≤ t.stream.stop := by
          rcases hstop with heq' | ⟨g, hg, heq'⟩
          · have : mid.expected = r.expected := heq'
            omega
          · rw [heq']
            exact (hall g (List.mem_append_left _ hg)).2.2.1
        rw [Nat.min_eq_left (by omega), Nat.min_eq_left hmid_le]
        exact htiles
    have hmin : min (if mid.fin = some mid.expected then nextPosition mid.expected
        else mid.expected) t.stream.stop = min mid.expected t.stream.stop := by
      split
      next hreach =>
        obtain ⟨he, hend⟩ := hfin_eq _ (hmid.1.symm.trans hreach)
        rw [hend, nextPosition_stop ht he]
        omega
      next => rfl
    refine ⟨?_, fun f hf => ?_⟩
    · simp only [hmid.2, hmin, hacked]
      exact tiles_append.mpr ⟨_, h.acked, htiles'⟩
    · have := hlt' f hf
      exact (hall f (List.mem_append_right _ hf)).2.2.2 (by omega)

/-! ## Deliveries -/

/-- What lies end to end is offered to the end, and what is left of it lies end to end. -/
theorem drain_tiles {σ : Type} (take : σ → Bytes → Nat × σ) (sink : σ) {pending : Queue Fragment}
    {p q : Nat} (h : Tiles Fragment.start Fragment.stop p pending.toList q) :
    Tiles Fragment.start Fragment.stop (drain take pending p sink).position
      (drain take pending p sink).pending.toList q := by
  have hspec := drain_spec take pending p sink
  have hle := hspec.position_le (h.le fun f _ => f.start_le_stop)
    fun f hf => ((h.mem_bounds fun f _ => f.start_le_stop).2 f hf).2
  generalize drain take pending p sink = d at *
  obtain ⟨r, hr, htiles⟩ := h.dropWhile d.position hspec.le
  cases hb : d.blocked with
  | false =>
    obtain ⟨heq, hhead⟩ := hspec.unblocked hb
    rw [← heq] at htiles
    cases hq : d.pending.toList with
    | nil =>
      rw [hq] at htiles
      have hrq : r = q := htiles
      exact Nat.le_antisymm hle (hrq ▸ hr)
    | cons f rest =>
      rw [hq] at htiles hhead
      have hgap : d.position < f.start := hhead f rfl
      have := htiles.1
      omega
  | true =>
    obtain ⟨f, rest, heq, hf, hpending⟩ := hspec.blocked hb
    rw [heq] at htiles
    have hrest := htiles.2
    have hstop := Fragment.leftAt_stop hf.1 (Nat.le_of_lt hf.2)
    rw [hpending, Fragment.putIntoIfAbsent_of_lt]
    · exact ⟨rfl, by rw [hstop]; exact hrest⟩
    · intro x hx
      have := ((hrest.mem_bounds fun f _ => f.start_le_stop).2 x hx).1
      have := hf.2
      show d.position < x.start
      omega

/-- Whatever the sink takes, the fragments stay aligned. -/
theorem Aligned.deliver {σ : Type} {take : σ → Bytes → Nat × σ} {sink : σ} (h : r.Aligned t)
    (hr : r.Follows t.stream) (ht : t.stream.next ≤ lastPosition) :
    (r.deliver take sink).2.1.Aligned t := by
  have hcases := (hr.deliver_cases take sink ht).2
  simp only at hcases
  by_cases hdel : r.delivered ≤ t.stream.stop
  · have htiles := h.acked
    rw [Nat.min_eq_left hdel] at htiles
    have hrest := drain_tiles take sink htiles
    have hle := (hr.drain_position_le take sink).2 hdel
    rcases hcases with ⟨-, heq, -⟩ | ⟨-, -, -, -, hstop, -, heq⟩
    · rw [heq]
      refine ⟨?_, h.ahead⟩
      simp only
      rw [Nat.min_eq_left hle]
      exact hrest
    · rw [heq]
      refine ⟨?_, h.ahead⟩
      rw [hstop] at hrest
      simp only
      rw [Nat.min_eq_right (Nat.le_succ _)]
      exact hrest
  · -- all is delivered, and nothing waits
    have hexp := hr.delivered_le
    have htiles := h.acked
    rw [Nat.min_eq_right (by omega), Nat.min_eq_right (by omega)] at htiles
    have hnil : r.acked.toList = [] :=
      htiles.eq_nil (fun f hf => Fragment.start_lt_stop (hr.acked f hf).1) (Nat.le_refl _)
    have hdrain : drain take r.acked r.delivered sink = ⟨r.acked, r.delivered, false, sink⟩ :=
      drain_eq_of_lt (by simp [hnil])
    rcases hcases with ⟨-, heq, -⟩ | ⟨-, -, hun, -⟩
    · rw [heq, hdrain]
      exact h
    · have := hr.finished_iff.mpr (by omega)
      rw [hun] at this
      cases this

/-- An aligned buffer has all that is acknowledged and not delivered. -/
theorem Aligned.keeps (h : r.Aligned t) (hr : r.Follows t.stream) : r.Keeps t.stream := by
  rw [hr.keeps_iff]
  intro p hd he ht
  obtain ⟨f, hf, hfp⟩ := h.acked.exists_mem (Nat.le_trans (Nat.min_le_left _ _) hd)
    (Nat.lt_min.mpr ⟨he, ht⟩)
  exact ⟨f, hf, hfp⟩

end ReliableStream.Reassembly
