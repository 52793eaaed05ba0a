import Mathlib.Data.List.TakeWhile
import ReliableStream.Proofs.Receiving.Reassembly

/-!
# Acknowledged bytes that are kept and bytes that are lost

The peer drops what is acknowledged, so a byte from `delivered` up to `expected` that no fragment
holds cannot come again. A buffer that has them all `Keeps` the stream.

* `Follows.keeps_insert_iff`: an arriving segment neither loses such a byte nor brings one back.
* `Follows.keeps_deliver_iff`: a delivery loses one exactly if it stops inside of a fragment, where
  another one begins, and that byte is in no other fragment (`LosesAt`): the rest of the first
  fragment is not stored, because its position is taken.
* `keeps_iff_not_loses`, over all calls: a buffer keeps the stream, and a sink that takes all it is
  offered gets all that is acknowledged, exactly if no delivery was such.
-/

namespace ReliableStream.Reassembly

variable {r : Reassembly} {s : Segment} {t : Stream} {p q : Nat} {b : UInt8}

/-- A fragment that waits for delivery has the byte `b` at position `p`. -/
def Has (r : Reassembly) (p : Nat) (b : UInt8) : Prop :=
  ∃ f ∈ r.pending, f.start ≤ p ∧ f.bytes[p - f.start]? = some b

/-- What is at position `p` is a byte that waits for delivery, or the FIN that was recorded. -/
def Holds (r : Reassembly) (p : Nat) : Item → Prop
  | .byte b => r.Has p b
  | .fin => r.fin = some p

/-- Every byte of the stream that is acknowledged and not delivered waits for delivery. -/
def Keeps (t : Stream) (r : Reassembly) : Prop :=
  ∀ p b, r.delivered ≤ p → p < r.expected → t.byte? p = some b → r.Has p b

/-- If the sink stops at position `p`, a byte that it did not get is gone. -/
def LosesAt (r : Reassembly) (p : Nat) : Prop :=
  ∃ f, r.pending.find? (p < ·.stop) = some f ∧ (∃ g ∈ r.pending, g ≠ f ∧ g.start = p) ∧
    ∃ q, p ≤ q ∧ q < f.stop ∧ ∀ g ∈ r.pending, g.Covers q → g = f

/-! ## One call -/

/-- A byte is there if some fragment covers its position. -/
theorem Consistent.keeps_iff (h : r.Consistent t) :
    r.Keeps t ↔ ∀ p, r.delivered ≤ p → p < r.expected → p < t.stop →
      ∃ f ∈ r.acked.toList, f.Covers p := by
  have hfirst := h.first_le
  constructor
  · intro hk p hd he ht
    obtain ⟨b, hb⟩ := t.byte?_eq_some (Nat.le_trans hfirst hd) ht
    obtain ⟨f, hf, hle, hget⟩ := hk p b hd he hb
    have hlt := (List.getElem?_eq_some_iff.mp hget).1
    rcases List.mem_append.mp hf with hf | hf
    · refine ⟨f, hf, hle, ?_⟩
      unfold Fragment.stop
      omega
    · -- what lies behind the gap begins too late
      have := (h.ahead f hf).2.2
      omega
  · intro hc p b hd he hb
    obtain ⟨-, hlt⟩ := t.lt_stop_of_byte? hb
    obtain ⟨f, hf, hle, hstop⟩ := hc p hd he hlt
    refine ⟨f, List.mem_append_left _ hf, hle, ?_⟩
    unfold Fragment.stop at hstop
    rw [(h.acked f hf).2.1.getElem? (by omega), show f.start + (p - f.start) = p by omega, hb]

/-- So is the FIN, once it is acknowledged. -/
theorem Consistent.holds (h : r.Consistent t) (hk : r.Keeps t) {i : Item} (hi : t.item? p = some i)
    (hd : r.delivered ≤ p) (he : p < r.expected) : r.Holds p i := by
  by_cases hp : p < t.stop
  · rw [Stream.item?_of_lt hp] at hi
    obtain ⟨b, hb, rfl⟩ := Option.map_eq_some_iff.mp hi
    exact hk p b hd he hb
  · rcases h.expected_le with hle | ⟨hfin, heq⟩
    · omega
    · have hps : p = t.stop := by omega
      have hend : t.item? p = some .fin := if_pos ⟨(h.fin_eq _ hfin).1, hps⟩
      rw [hend] at hi
      obtain rfl := Option.some.inj hi
      rw [hps]
      exact hfin

/-- What an arriving slice of the stream adds to the acknowledged fragments covers all the bytes
that it brings the buffer to acknowledge. -/
theorem Follows.insert_acked (h : r.Follows t) (ht : t.next ≤ lastPosition) (hs : s.SliceOf t) :
    ∃ gone, (r.insert s).2.acked.toList = r.acked.toList ++ gone ∧
      (r.insert s).2.delivered = r.delivered ∧ r.expected ≤ (r.insert s).2.expected ∧
      (∀ f ∈ gone, r.expected ≤ f.start) ∧
      ∀ p, r.expected ≤ p → p < (r.insert s).2.expected → p < t.stop → ∃ f ∈ gone, f.Covers p := by
  rcases r.insert_cases s with heq | ⟨fin, ahead, hfin, hstored, heq⟩
  · rw [heq]
    exact ⟨[], (List.append_nil _).symm, rfl, Nat.le_refl _, by simp, fun p hp hp' => by omega⟩
  · obtain ⟨hfin_eq, -⟩ := hfin.fin_eq h.toConsistent hs
    have hstart : ∀ f ∈ ahead.toList, r.expected ≤ f.start := by
      intro f hf
      rcases hstored with rfl | ⟨g, hu, hst⟩
      · exact Nat.le_of_lt (h.ahead f hf).2.2
      · rcases hst.mem h.ahead_sorted f hf with rfl | hf
        · rw [hu.start_eq]
          exact Nat.le_max_right _ _
        · exact Nat.le_of_lt (h.ahead f hf).2.2
    obtain ⟨gone, hgap⟩ := closeGap_spec { r with fin, ahead }
    rw [heq]
    unfold advance
    obtain ⟨hacked, hsplit, hle, hcovered, -, -, -, hrest⟩ := hgap
    generalize ({ r with fin, ahead } : Reassembly).closeGap = mid at *
    simp only at hacked hsplit hle hcovered
    have hmid : mid.fin = fin ∧ mid.delivered = r.delivered := by
      rw [hrest]
      exact ⟨rfl, rfl⟩
    have hgone : ∀ f ∈ gone, r.expected ≤ f.start := fun f hf =>
      hstart f (by rw [hsplit]; exact List.mem_append_left _ hf)
    by_cases hreach : mid.fin = some mid.expected
    · obtain ⟨he, hstop⟩ := hfin_eq _ (hmid.1.symm.trans hreach)
      simp only [if_pos hreach]
      rw [hstop, nextPosition_stop ht he]
      rw [hstop] at hle hcovered
      exact ⟨gone, hacked, hmid.2, by omega, hgone, fun p hp _ hlt => hcovered p hp hlt⟩
    · simp only [if_neg hreach]
      exact ⟨gone, hacked, hmid.2, hle, hgone, fun p hp hlt _ => hcovered p hp hlt⟩

/-- An arriving segment neither loses a byte nor brings back one that was lost. -/
theorem Follows.keeps_insert_iff (h : r.Follows t) (ht : t.next ≤ lastPosition)
    (hs : s.SliceOf t) : (r.insert s).2.Keeps t ↔ r.Keeps t := by
  obtain ⟨gone, hacked, hdelivered, hle, hstart, hcovered⟩ := h.insert_acked ht hs
  rw [h.keeps_iff, (h.insert ht hs).keeps_iff, hacked, hdelivered]
  constructor
  · intro hk p hd he hp
    obtain ⟨f, hf, hfp⟩ := hk p hd (Nat.lt_of_lt_of_le he hle) hp
    rcases List.mem_append.mp hf with hf | hf
    · exact ⟨f, hf, hfp⟩
    · have := hstart f hf
      have := hfp.1
      omega
  · intro hk p hd he hp
    by_cases hnew : p < r.expected
    · obtain ⟨f, hf, hfp⟩ := hk p hd hnew hp
      exact ⟨f, List.mem_append_left _ hf, hfp⟩
    · obtain ⟨f, hf, hfp⟩ := hcovered p (by omega) he hp
      exact ⟨f, List.mem_append_right _ hf, hfp⟩

/-- What is not dropped from the front is still there. -/
theorem mem_dropWhile_of_lt {l : List Fragment} {f : Fragment} (hf : f ∈ l) (hp : p < f.stop) :
    f ∈ l.dropWhile (·.stop ≤ p) := by
  rw [← List.takeWhile_append_dropWhile (p := fun g : Fragment => decide (g.stop ≤ p)) (l := l)]
    at hf
  rcases List.mem_append.mp hf with hf | hf
  · have := List.mem_takeWhile_imp hf
    simp only [decide_eq_true_eq] at this
    omega
  · exact hf

/-- The first fragment that reaches beyond position `p`, and those after it. -/
theorem find?_eq_some_iff_dropWhile {l : List Fragment} {f : Fragment} :
    l.find? (p < ·.stop) = some f ↔ ∃ rest, l.dropWhile (·.stop ≤ p) = f :: rest := by
  have hnot : (fun g : Fragment => !decide (p < g.stop)) = fun g => decide (g.stop ≤ p) := by
    funext g
    rw [← decide_not, decide_eq_decide]
    exact Nat.not_lt
  rw [List.find?_eq_head?_dropWhile_not, hnot, List.head?_eq_some_iff]

/-- Only acknowledged fragments count for what is lost. -/
theorem Consistent.losesAt_iff (h : r.Consistent t) (hp : p ≤ r.expected) :
    r.LosesAt p ↔ ∃ f rest, r.acked.toList.dropWhile (·.stop ≤ p) = f :: rest ∧
      (∃ g ∈ rest, g.start = p) ∧ ∃ q, p ≤ q ∧ q < f.stop ∧ ∀ g ∈ rest, ¬ g.Covers q := by
  have hacked : ∀ g ∈ r.pending, g.start ≤ r.expected → g ∈ r.acked.toList := by
    intro g hg hle
    rcases List.mem_append.mp hg with hg | hg
    · exact hg
    · have := (h.ahead g hg).2.2
      omega
  have hafter : ∀ {f rest}, r.acked.toList.dropWhile (·.stop ≤ p) = f :: rest →
      f ∈ r.acked.toList ∧ ∀ g ∈ rest, g ∈ r.acked.toList ∧ f.start < g.start := by
    intro f rest heq
    have hsub := List.dropWhile_sublist (l := r.acked.toList) (·.stop ≤ p)
    rw [heq] at hsub
    have hsorted := List.pairwise_cons.mp (h.acked_sorted.sublist hsub)
    exact ⟨hsub.subset (.head rest), fun g hg => ⟨hsub.subset (.tail f hg), hsorted.1 g hg⟩⟩
  constructor
  · rintro ⟨f, hfind, ⟨g, hg, hne, rfl⟩, q, hpq, hqf, honly⟩
    have hga := hacked g hg hp
    have hmem := mem_dropWhile_of_lt hga (Fragment.start_lt_stop (h.acked g hga).1)
    obtain ⟨f', rest, heq⟩ := List.exists_cons_of_ne_nil (List.ne_nil_of_mem hmem)
    have hf' : f' = f := by
      rw [pending, List.find?_append, find?_eq_some_iff_dropWhile.mpr ⟨rest, heq⟩] at hfind
      exact Option.some.inj hfind
    subst hf'
    obtain ⟨-, hrest⟩ := hafter heq
    rw [heq] at hmem
    refine ⟨f', rest, heq, ⟨g, ?_, rfl⟩, q, hpq, hqf, fun x hx hxq => ?_⟩
    · exact (List.mem_cons.mp hmem).resolve_left hne
    · obtain ⟨hxa, hlt⟩ := hrest x hx
      have := honly x (List.mem_append_left _ hxa) hxq
      subst this
      omega
  · rintro ⟨f, rest, heq, ⟨g, hg, rfl⟩, q, hpq, hqf, hnone⟩
    obtain ⟨hf, hrest⟩ := hafter heq
    refine ⟨f, ?_, ⟨g, List.mem_append_left _ (hrest g hg).1, ?_, rfl⟩, q, hpq, hqf,
      fun x hx hxq => ?_⟩
    · rw [pending, List.find?_append, find?_eq_some_iff_dropWhile.mpr ⟨rest, heq⟩]
      rfl
    · rintro rfl
      have := (hrest g hg).2
      omega
    · have hxa : x ∈ r.acked.toList := by
        have := (h.acked f hf).2.2
        have := hxq.1
        exact hacked x hx (by omega)
      have hmem := mem_dropWhile_of_lt hxa (Nat.lt_of_le_of_lt hpq hxq.2)
      rw [heq] at hmem
      exact (List.mem_cons.mp hmem).resolve_right fun hx => hnone x hx hxq

section Deliver

variable {σ : Type} (take : σ → Bytes → Nat × σ) (sink : σ)

/-- What the sink left covers no more than what it was offered. -/
theorem drain_pending_covers {g : Fragment}
    (hs : Fragment.Sorted r.acked.toList)
    (hg : g ∈ (drain take r.acked r.delivered sink).pending.toList) (hp : g.Covers p) :
    ∃ f ∈ r.acked.toList, f.Covers p := by
  have hspec := drain_spec take r.acked r.delivered sink
  generalize drain take r.acked r.delivered sink = d at *
  have hsub := List.dropWhile_sublist (l := r.acked.toList) (·.stop ≤ d.position)
  cases hb : d.blocked with
  | false =>
    rw [(hspec.unblocked hb).1] at hg
    exact ⟨g, hsub.subset hg, hp⟩
  | true =>
    obtain ⟨f, rest, heq, hf, hpending⟩ := hspec.blocked hb
    rw [heq] at hsub
    rw [hpending] at hg
    rcases (Fragment.mem_putIntoIfAbsent (List.pairwise_cons.mp (hs.sublist hsub)).2).mp hg with
      hg | ⟨rfl, -⟩
    · exact ⟨g, hsub.subset (.tail f hg), hp⟩
    · have hstop := Fragment.leftAt_stop hf.1 (Nat.le_of_lt hf.2)
      rw [Fragment.Covers, hstop] at hp
      exact ⟨f, hsub.subset (.head rest), Nat.le_trans hf.1 hp.1, hp.2⟩

/-- Where the sink has stopped and all is still covered, no byte is lost. -/
theorem Consistent.not_losesAt_drain (h : r.Consistent t)
    (hk : ∀ p, (drain take r.acked r.delivered sink).position ≤ p → p < r.expected → p < t.stop →
      ∃ f ∈ (drain take r.acked r.delivered sink).pending.toList, f.Covers p) :
    ¬ r.LosesAt (drain take r.acked r.delivered sink).position := by
  have hspec := drain_spec take r.acked r.delivered sink
  have hle := (h.drain_position_le take sink).1
  generalize drain take r.acked r.delivered sink = d at hk hspec hle ⊢
  rw [h.losesAt_iff hle]
  rintro ⟨f, rest, heq, ⟨g, hg, hgs⟩, q, hpq, hqf, hnone⟩
  have hsub := List.dropWhile_sublist (l := r.acked.toList) (·.stop ≤ d.position)
  rw [heq] at hsub
  have hf := h.acked f (hsub.subset (.head rest))
  have hsorted := List.pairwise_cons.mp (h.acked_sorted.sublist hsub)
  cases hb : d.blocked with
  | false =>
    obtain ⟨hpending, hhead⟩ := hspec.unblocked hb
    rw [hpending, heq] at hhead
    have := hhead f rfl
    have := hsorted.1 g hg
    omega
  | true =>
    obtain ⟨f', rest', heq', -, hpending⟩ := hspec.blocked hb
    rw [heq] at heq'
    obtain ⟨rfl, rfl⟩ := List.cons.inj heq'
    obtain ⟨x, hx, hxq⟩ := hk q hpq (by omega) (Nat.lt_of_lt_of_le hqf (hf.2.1.stop_le hf.1))
    rw [hpending] at hx
    rcases (Fragment.mem_putIntoIfAbsent hsorted.2).mp hx with hx | ⟨-, hfree⟩
    · exact hnone x hx hxq
    · exact hfree g hg hgs

/-- What the sink did not get stays covered, unless the sink stopped where a byte is lost. -/
theorem Consistent.drain_covers {f : Fragment} (h : r.Consistent t)
    (hkept : ¬ r.LosesAt (drain take r.acked r.delivered sink).position)
    (hf : f ∈ r.acked.toList) (hfp : f.Covers p)
    (hd : (drain take r.acked r.delivered sink).position ≤ p) :
    ∃ g ∈ (drain take r.acked r.delivered sink).pending.toList, g.Covers p := by
  have hspec := drain_spec take r.acked r.delivered sink
  have hle := (h.drain_position_le take sink).1
  generalize drain take r.acked r.delivered sink = d at hkept hd hspec hle ⊢
  have hmem := mem_dropWhile_of_lt hf (Nat.lt_of_le_of_lt hd hfp.2)
  cases hb : d.blocked with
  | false =>
    rw [(hspec.unblocked hb).1]
    exact ⟨f, hmem, hfp⟩
  | true =>
    obtain ⟨e, rest, heq, he, hpending⟩ := hspec.blocked hb
    have hsub := List.dropWhile_sublist (l := r.acked.toList) (·.stop ≤ d.position)
    rw [heq] at hsub hmem
    have hsorted := (List.pairwise_cons.mp (h.acked_sorted.sublist hsub)).2
    rw [hpending]
    by_cases hother : ∃ x ∈ rest, x.Covers p
    · obtain ⟨x, hx, hxp⟩ := hother
      exact ⟨x, (Fragment.mem_putIntoIfAbsent hsorted).mpr (.inl hx), hxp⟩
    · rw [h.losesAt_iff hle] at hkept
      obtain rfl := (List.mem_cons.mp hmem).resolve_right fun hx => hother ⟨f, hx, hfp⟩
      refine ⟨f.leftAt d.position, (Fragment.mem_putIntoIfAbsent hsorted).mpr (.inr ⟨rfl, ?_⟩),
        hd, ?_⟩
      · intro x hx hxs
        exact hkept ⟨f, rest, heq, ⟨x, hx, hxs⟩, p, hd, hfp.2, fun y hy hyp => hother ⟨y, hy, hyp⟩⟩
      · rw [Fragment.leftAt_stop he.1 (Nat.le_of_lt he.2)]
        exact hfp.2

/-- After the sink has stopped, every byte that it did not get is covered exactly if it was so
before and the sink did not stop where a byte is lost. -/
theorem Consistent.drain_covers_iff (h : r.Consistent t) :
    let d := drain take r.acked r.delivered sink
    (∀ p, d.position ≤ p → p < r.expected → p < t.stop → ∃ f ∈ d.pending.toList, f.Covers p) ↔
      (∀ p, r.delivered ≤ p → p < r.expected → p < t.stop → ∃ f ∈ r.acked.toList, f.Covers p) ∧
        ¬ r.LosesAt d.position := by
  intro d
  have hspec : d.Spec r.acked.toList r.delivered := drain_spec take r.acked r.delivered sink
  constructor
  · intro hk
    refine ⟨fun p hd he ht => ?_, h.not_losesAt_drain take sink hk⟩
    by_cases hp : p < d.position
    · exact hspec.covered p hd hp
    · obtain ⟨g, hg, hgp⟩ := hk p (by omega) he ht
      exact drain_pending_covers take sink h.acked_sorted hg hgp
  · rintro ⟨hk, hkept⟩ p hd he ht
    obtain ⟨f, hf, hfp⟩ := hk p (Nat.le_trans hspec.le hd) he ht
    exact h.drain_covers take sink hkept hf hfp hd

/-- A delivery loses a byte exactly if the sink stops where one is lost, and brings none back. -/
theorem Follows.keeps_deliver_iff (h : r.Follows t) (ht : t.next ≤ lastPosition) :
    (r.deliver take sink).2.1.Keeps t ↔
      r.Keeps t ∧ ¬ r.LosesAt (r.deliver take sink).2.1.delivered := by
  have hiff := h.drain_covers_iff take sink
  have hcases := (h.deliver_cases take sink ht).2
  rw [(h.deliver take sink ht).keeps_iff, h.keeps_iff]
  simp only at hiff hcases
  rcases hcases with ⟨-, heq, -⟩ | ⟨-, -, -, -, hstop, hexp, heq⟩
  · rw [heq]
    exact hiff
  · rw [heq]
    -- the bytes are all delivered, and behind the FIN none can be lost
    have hend : ∀ n, t.stop ≤ n → ¬ r.LosesAt n := by
      rintro n hn ⟨f, hfind, -⟩
      have hlt := List.find?_some hfind
      simp only [decide_eq_true_eq] at hlt
      rcases List.mem_append.mp (List.mem_of_find?_eq_some hfind) with hf | hf
      · have : f.stop ≤ t.stop := (h.acked f hf).2.1.stop_le (h.acked f hf).1
        omega
      · have : f.stop ≤ t.stop := (h.ahead f hf).2.1.stop_le (h.ahead f hf).1
        omega
    rw [and_iff_left (hend _ (Nat.le_succ _))]
    rw [and_iff_left (hend _ (Nat.le_of_eq hstop.symm))] at hiff
    rw [← hiff, hstop]
    exact ⟨fun _ p hp _ hlt => by omega, fun _ p hp _ hlt => by simp only at hp; omega⟩

/-- A sink that takes all it is offered gets all the acknowledged bytes, and the end of the stream
if the FIN is acknowledged and the sink does not know of it yet. -/
def DeliversAll (r : Reassembly) : Prop :=
  ∀ {σ : Type} (take : σ → Bytes → Nat × σ) (sink : σ), (∀ s b, b.length ≤ (take s b).1) →
    (r.deliver take sink).2.1.delivered = r.expected ∧
      ((r.deliver take sink).1.eof = true ↔
        r.finished = false ∧ ∃ fin, r.fin = some fin ∧ fin < r.expected)

/-- A sink that takes all it is offered is only stopped by a gap. -/
theorem Consistent.le_drain_position (h : r.Consistent t) (hk : r.Keeps t)
    (hb : (drain take r.acked r.delivered sink).blocked = false) :
    r.expected ≤ (drain take r.acked r.delivered sink).position ∨
      t.stop ≤ (drain take r.acked r.delivered sink).position := by
  have hspec := drain_spec take r.acked r.delivered sink
  generalize drain take r.acked r.delivered sink = d at *
  rw [← Nat.not_lt, ← Nat.not_lt, ← not_and_or]
  rintro ⟨he, ht⟩
  obtain ⟨f, hf, hfp⟩ := h.keeps_iff.mp hk d.position hspec.le he ht
  obtain ⟨hpending, hhead⟩ := hspec.unblocked hb
  have hmem := mem_dropWhile_of_lt hf hfp.2
  have hsorted := h.acked_sorted.sublist (List.dropWhile_sublist (·.stop ≤ d.position))
  rw [hpending] at hhead
  cases hq : r.acked.toList.dropWhile (·.stop ≤ d.position) with
  | nil =>
    rw [hq] at hmem
    cases hmem
  | cons g rest =>
    rw [hq] at hhead hmem hsorted
    have hg : d.position < g.start := hhead g rfl
    have := hfp.1
    rcases List.mem_cons.mp hmem with rfl | hmem
    · omega
    · have := (List.pairwise_cons.mp hsorted).1 f hmem
      omega

/-- A buffer that keeps the stream can deliver it, and one that lost a byte cannot. -/
theorem Follows.deliversAll_iff (h : r.Follows t) (ht : t.next ≤ lastPosition) :
    r.DeliversAll ↔ r.Keeps t := by
  have hexp := h.expected_le
  have hunf := h.finished_iff
  constructor
  · intro hall
    rw [h.keeps_iff]
    intro p hd he hp
    let all : Unit → Bytes → Nat × Unit := fun s b => (b.length, s)
    obtain ⟨hdel, -⟩ := hall all () fun _ _ => Nat.le_refl _
    have hspec := drain_spec all r.acked r.delivered ()
    have hcases := (h.deliver_cases all () ht).2
    simp only at hcases
    refine hspec.covered p hd ?_
    rcases hcases with ⟨-, heq, -⟩ | ⟨-, -, -, -, hstop, -⟩
    · rw [heq] at hdel
      exact Nat.lt_of_lt_of_le he (Nat.le_of_eq hdel.symm)
    · rw [hstop]
      exact hp
  · intro hk σ take sink hfull
    have hb : (drain take r.acked r.delivered sink).blocked = false := drain_blocked_eq_false hfull
    have hend := h.le_drain_position take sink hk hb
    have hle := h.drain_position_le take sink
    have hpos := (drain_spec take r.acked r.delivered sink).le
    have hcases := (h.deliver_cases take sink ht).2
    simp only at hcases
    generalize drain take r.acked r.delivered sink = d at *
    rcases hcases with ⟨heof, heq, hnot⟩ | ⟨heof, -, hun, hfin, hstop, hexp', heq⟩
    · rw [heq, heof]
      have hdone : d.position = r.expected := by
        cases hf : r.finished with
        | true =>
          have := hunf.mp hf
          omega
        | false =>
          have hdel : r.delivered ≤ t.stop := by
            by_contra hlt
            rw [hunf.mpr (by omega)] at hf
            cases hf
          have := hle.2 hdel
          rcases hexp with hexp | ⟨hfin, hexp⟩
          · omega
          · -- the FIN is next, and the sink would have been told of it
            have := hnot hb hf
            rw [hfin, ne_eq, Option.some.injEq] at this
            omega
      refine ⟨hdone, by simp, ?_⟩
      rintro ⟨hun, fin, hfin, hlt⟩
      obtain ⟨-, rfl⟩ := h.fin_eq fin hfin
      have := hunf.not.mp (by simp [hun])
      have := hle.2 (by omega)
      omega
    · rw [heq, heof]
      exact ⟨hexp'.symm, by simp [hun, hfin, hexp']⟩

end Deliver

/-! ## All calls -/

/-- What is done with a buffer. -/
inductive Call : Type 1
  | insert (s : Segment)
  | deliver {σ : Type} (take : σ → Bytes → Nat × σ) (sink : σ)

def perform (r : Reassembly) : Call → Reassembly
  | .insert s => (r.insert s).2
  | .deliver take sink => (r.deliver take sink).2.1

def performAll (r : Reassembly) (calls : List Call) : Reassembly := calls.foldl perform r

/-- One of the deliveries stops where a byte is lost. -/
def Loses (r : Reassembly) : List Call → Prop
  | [] => False
  | .insert s :: calls => Loses (r.insert s).2 calls
  | .deliver take sink :: calls =>
    r.LosesAt (r.deliver take sink).2.1.delivered ∨ Loses (r.deliver take sink).2.1 calls

theorem Follows.perform (h : r.Follows t) (ht : t.next ≤ lastPosition) {c : Call}
    (hc : ∀ s, c = .insert s → s.SliceOf t) : (r.perform c).Follows t := by
  cases c with
  | insert s => exact h.insert ht (hc s rfl)
  | deliver take sink => exact h.deliver take sink ht

theorem Follows.performAll {calls : List Call} (h : r.Follows t) (ht : t.next ≤ lastPosition)
    (hc : ∀ s, Call.insert s ∈ calls → s.SliceOf t) : (r.performAll calls).Follows t := by
  induction calls generalizing r with
  | nil => exact h
  | cons c calls ih =>
    refine ih (h.perform ht ?_) fun s hs => hc s (.tail c hs)
    rintro s rfl
    exact hc s (.head calls)

/-- What holds after every call holds now, and after every call from the next one on. -/
theorem forall_prefix_cons {P : Reassembly → Prop} {c : Call} {calls : List Call} :
    (∀ done, done <+: c :: calls → P (r.performAll done)) ↔
      P r ∧ ∀ done, done <+: calls → P ((r.perform c).performAll done) := by
  constructor
  · intro h
    exact ⟨h [] List.nil_prefix, fun done hd => h (c :: done) (List.prefix_cons_inj c |>.mpr hd)⟩
  · rintro ⟨hr, hrest⟩ done hd
    rcases List.prefix_cons_iff.mp hd with rfl | ⟨rest, rfl, hr'⟩
    · exact hr
    · exact hrest rest hr'

theorem Follows.keeps_performAll_iff {calls : List Call} (h : r.Follows t) (hk : r.Keeps t)
    (ht : t.next ≤ lastPosition) (hc : ∀ s, Call.insert s ∈ calls → s.SliceOf t) :
    (∀ done, done <+: calls → (r.performAll done).Keeps t) ↔ ¬ r.Loses calls := by
  induction calls generalizing r with
  | nil =>
    simp only [List.prefix_nil, forall_eq, Loses, not_false_eq_true, iff_true]
    exact hk
  | cons c calls ih =>
    have hrest : ∀ s, Call.insert s ∈ calls → s.SliceOf t := fun s hs => hc s (.tail c hs)
    have hnext := h.perform ht (c := c) fun s hs => hc s (by simp [hs])
    rw [forall_prefix_cons, and_iff_right hk]
    cases c with
    | insert s =>
      have hs := hc s (.head calls)
      exact ih hnext ((h.keeps_insert_iff ht hs).mpr hk) hrest
    | deliver take sink =>
      have hiff := h.keeps_deliver_iff take sink ht
      rw [and_iff_right hk] at hiff
      rw [Loses, not_or, ← hiff]
      constructor
      · intro hall
        have hk' := hall [] List.nil_prefix
        exact ⟨hk', (ih hnext hk' hrest).mp hall⟩
      · rintro ⟨hk', hloses⟩
        exact (ih hnext hk' hrest).mpr hloses

/-- The bytes that are acknowledged and not delivered wait for delivery after every call, and a sink
that takes all can have them, exactly if no delivery stops where one is lost. -/
theorem keeps_iff_not_loses (t : Stream) (capacity : Nat) (calls : List Call)
    (ht : t.stop < lastPosition) (hc : ∀ s, Call.insert s ∈ calls → s.SliceOf t) :
    ((∀ done, done <+: calls → (performAll { capacity } done).Keeps t) ↔
        ¬ Loses { capacity } calls) ∧
      ((∀ done, done <+: calls → (performAll { capacity } done).DeliversAll) ↔
        ¬ Loses { capacity } calls) := by
  have hnext : t.next ≤ lastPosition := by
    have := t.ended.toNat_le
    unfold Stream.next
    omega
  have hstart := follows_start t capacity
  have hiff := hstart.keeps_performAll_iff (fun p _ hd he => by simp only at hd he; omega) hnext hc
  refine ⟨hiff, ?_⟩
  rw [← hiff]
  refine forall_congr' fun done => imp_congr_right fun hd => ?_
  exact (hstart.performAll hnext fun s hs => hc s (hd.subset hs)).deliversAll_iff hnext

/-! ### A fragment inside of another one

The two letters in the middle of `letters` arrive before the whole. -/

def letters : Stream := { bytes := [97, 98, 99, 100, 101, 102] }

def middle : Segment where
  seqno := 3
  ackno := 1
  flags := .ack
  window := 1440
  checksum := 0
  payload := [99, 100]

def whole : Segment := { middle with seqno := 1, payload := letters.bytes }

/-- The sink takes at most `n` bytes of each fragment. -/
def taking (n : Nat) : Call := .deliver (fun (_ : Unit) _ => (n, ())) ()

theorem sliceOf_letters (n : Nat) :
    ∀ s, Call.insert s ∈ [.insert middle, .insert whole, taking n] → s.SliceOf letters := by
  intro s hs
  have hcases : s = middle ∨ s = whole := by simpa [taking] using hs
  rcases hcases with rfl | rfl
  · exact ⟨fun _ => by decide, by decide⟩
  · exact ⟨fun _ => by decide, by decide⟩

/-- A sink that takes the whole leaves nothing to lose. -/
theorem keeps_letters :
    letters.stop < lastPosition ∧
      (∀ s, Call.insert s ∈ [.insert middle, .insert whole, taking 6] → s.SliceOf letters) ∧
      ∀ done, done <+: [.insert middle, .insert whole, taking 6] →
        (performAll { capacity := 1440 } done).Keeps letters := by
  have ht : letters.stop < lastPosition := by decide
  refine ⟨ht, sliceOf_letters 6, ?_⟩
  refine (keeps_iff_not_loses letters 1440 _ ht (sliceOf_letters 6)).1.mpr ?_
  rintro (⟨f, hf, -⟩ | h)
  · have hsome := Option.isSome_of_eq_some hf
    revert hsome
    decide +kernel
  · exact h

/-- A sink that takes the first two letters stops where the middle begins. The last two letters are
acknowledged, and gone. -/
theorem not_keeps_letters :
    letters.stop < lastPosition ∧
      (∀ s, Call.insert s ∈ [.insert middle, .insert whole, taking 2] → s.SliceOf letters) ∧
      ¬ (performAll { capacity := 1440 } [.insert middle, .insert whole, taking 2]).Keeps letters ∧
      ¬ (performAll { capacity := 1440 }
        [.insert middle, .insert whole, taking 2]).DeliversAll := by
  refine ⟨by decide, sliceOf_letters 2, fun hk => ?_, fun hall => ?_⟩
  · obtain ⟨f, hf, hle, hget⟩ := hk 5 101 (by decide +kernel) (by decide +kernel) (by decide)
    have hpending : (performAll { capacity := 1440 }
        [.insert middle, .insert whole, taking 2]).pending = [⟨3, [99, 100]⟩] := by decide +kernel
    rw [hpending, List.mem_singleton] at hf
    subst hf
    simp at hget
  · obtain ⟨hdel, -⟩ := hall (fun s b => (b.length, s)) () fun _ _ => Nat.le_refl _
    revert hdel
    decide +kernel

end ReliableStream.Reassembly
