import ReliableStream.Proofs.Receiving.Bounds
import ReliableStream.Proofs.Receiving.Resequencing

/-!
# The end of a stream

Nothing is known of the peer. It may send a FIN, and have sent data from behind it before. A segment
is cut off at the FIN that is known, but what waits already stays when a FIN is recorded. The news
of the end moves the next position to deliver over the FIN, and a fragment may begin there.

* `Overlooks`: a FIN is recorded, and a fragment that begins right behind it waits.
* `Tracks`: exactly if that has happened a fragment begins right behind the FIN, as long as nothing
  behind the FIN is delivered. Arrivals keep this, and so do deliveries up to the news of the end
  (`Tracks.insert`, `Tracks.deliver`).
* `Tracks.deliver_eq`, `Tracks.offers_ne_nil`: a later delivery does nothing, unless a fragment
  begins there; that one it offers to the sink.
* `end_final_iff_not_spills`, over all calls: nothing follows the news of the end, and no more is
  delivered than is acknowledged, exactly if no delivery was such.
-/

namespace ReliableStream

section Noting

variable {σ : Type}

/-- As `take`, for a sink that notes what it is offered. -/
def noting (take : σ → Bytes → Nat × σ) : σ × List Bytes → Bytes → Nat × (σ × List Bytes) :=
  observing take fun _ offered log => log ++ [offered]

theorem noting_ne_nil (take : σ → Bytes → Nat × σ) (m : σ × List Bytes) (offered : Bytes) :
    (noting take m offered).2.2 ≠ [] :=
  List.append_ne_nil_of_right_ne_nil m.2 (List.cons_ne_nil offered [])

/-- The first fragment is offered if the sink needs some of it. -/
theorem drain_noting_ne_nil {pending : Queue Fragment} {f : Fragment} {position : Nat}
    (take : σ → Bytes → Nat × σ) (m : σ × List Bytes) (hhead : pending.toList.head? = some f)
    (hf : f.Covers position) : (drain (noting take) pending position m).sink.2 ≠ [] := by
  cases hpop : pending.popIf? (·.start ≤ position) with
  | none =>
    have hlt := Queue.popIf?_eq_none_iff.mp hpop f hhead
    simp only [decide_eq_false_iff_not] at hlt
    exact absurd hf.1 hlt
  | some next =>
    obtain ⟨g, rest⟩ := next
    obtain ⟨-, hq⟩ := Queue.popIf?_eq_some hpop
    rw [hq, List.head?_cons] at hhead
    obtain rfl := Option.some.inj hhead
    have hne : (g.bytes.drop (position - g.start)).isEmpty = false := by
      obtain ⟨hstart, hstop⟩ := hf
      unfold Fragment.stop at hstop
      rw [List.isEmpty_eq_false_iff, List.ne_nil_iff_length_pos, List.length_drop]
      omega
    rw [drain_of_some hpop]
    simp only [hne, Bool.false_eq_true, if_false]
    split
    · exact noting_ne_nil take m _
    · exact drain_keeps (P := fun m => m.2 ≠ []) (fun m b _ => noting_ne_nil take m b)
        (noting_ne_nil take m _)

end Noting

/-- What begins beyond where the sink stopped still waits. -/
theorem Drained.Spec.begins_iff {σ : Type} {d : Drained σ} {pending : List Fragment}
    {position p : Nat} (h : d.Spec pending position) (hs : Fragment.Sorted pending)
    (hp : d.position < p) :
    (∃ f ∈ d.pending.toList, f.start = p) ↔ ∃ f ∈ pending, f.start = p := by
  constructor
  · rintro ⟨f, hf, rfl⟩
    rcases h.mem_pending hs hf with hf | ⟨g, -, -, rfl⟩
    · exact ⟨f, hf, rfl⟩
    · exact absurd hp (Nat.lt_irrefl _)
  · rintro ⟨f, hf, rfl⟩
    exact ⟨f, h.mem_pending_of_lt hs hf hp, rfl⟩

namespace Reassembly

variable {r : Reassembly} {s : Segment} {f : Fragment} {gap p : Nat} {overlooked : Prop}

/-- A fragment that waits begins at position `p`. -/
def WaitsAt (r : Reassembly) (p : Nat) : Prop := ∃ f ∈ r.pending, f.start = p

/-- The FIN of `s` is recorded, and a fragment that begins right behind it waits. -/
def Overlooks (r : Reassembly) (s : Segment) : Prop :=
  ∃ fin, r.newFin? s = some fin ∧ r.WaitsAt (fin + 1)

/-- What a delivery offers the sink, in order. -/
def offers {σ : Type} (r : Reassembly) (take : σ → Bytes → Nat × σ) (sink : σ) : List Bytes :=
  (r.deliver (noting take) (sink, [])).2.2.2

/-- Exactly if a FIN overlooked something, a fragment begins right behind it, until more than the
FIN is delivered. -/
structure Tracks (gap : Nat) (overlooked : Prop) (r : Reassembly) : Prop
    extends Bounded gap r where
  fin_of_overlooked : overlooked → r.fin ≠ none
  waitsAt_iff : ∀ fin, r.fin = some fin → r.finished = true ∨ r.delivered ≤ fin →
    (overlooked ↔ r.WaitsAt (fin + 1))
  /-- When the application is told of the end, all before the FIN is acknowledged and delivered. -/
  ended : r.finished = true → ∃ fin, r.fin = some fin ∧ r.delivered = nextPosition fin ∧
    fin ≤ gap ∧ ∀ f ∈ r.pending, fin < f.start

theorem tracks_start (capacity : Nat) : Tracks firstPosition False { capacity } where
  toBounded := bounded_start capacity
  fin_of_overlooked := False.elim
  waitsAt_iff := by simp
  ended := by simp

/-! ## Arrivals -/

theorem pending_advance (r : Reassembly) : r.advance.pending = r.pending := by
  obtain ⟨gone, hgap⟩ := closeGap_spec r
  show r.closeGap.acked.toList ++ r.closeGap.ahead.toList = r.acked.toList ++ r.ahead.toList
  rw [hgap.acked, hgap.ahead, List.append_assoc]

theorem start_lt_limit (h : r.usable? s = some f) : f.start < r.limit := by
  obtain ⟨-, hstop, hlt, -⟩ := usable?_eq_some h
  omega

/-- Nothing of what arrives is stored behind the FIN, and all that waits there stays. -/
theorem Bounded.waitsAt_insert {fin : Nat} (h : r.Bounded gap)
    (hfin : (r.insert s).2.fin = some fin) (hp : fin < p) :
    (r.insert s).2.WaitsAt p ↔ r.WaitsAt p := by
  rw [fin_insert] at hfin
  unfold Reassembly.insert
  split
  · exact Iff.rfl
  · simp only
    split
    next stored hbind =>
      obtain ⟨f, hf, hst⟩ := Option.bind_eq_some_iff.mp hbind
      obtain ⟨ahead, hstored, rfl⟩ := stored_of_store? hst
      have hbefore : f.start ≠ p := by
        have hlt := start_lt_limit hf
        rw [limit, hfin] at hlt
        have hle := Nat.min_le_right r.windowEnd fin
        exact Nat.ne_of_lt (Nat.lt_trans (Nat.lt_of_lt_of_le hlt hle) hp)
      have hbegins : (∃ g ∈ ahead.toList, g.start = p) ↔ ∃ g ∈ r.ahead.toList, g.start = p := by
        cases hstored with
        | front => simp [hbefore]
        | behind _ hput =>
          have hinto := Fragment.toList_put? (f := f) h.ahead_sorted
          rw [hput, Option.map_some] at hinto
          rw [Fragment.starts_putInto? hinto.symm, or_iff_right hbefore]
      unfold WaitsAt
      rw [pending_advance]
      simp only [Reassembly.pending, List.mem_append, or_and_right, exists_or]
      exact or_congr_right hbegins
    next =>
      split
      · unfold WaitsAt
        rw [pending_advance]
        exact Iff.rfl
      · exact Iff.rfl

/-- A FIN overlooks something when it is recorded, or never. -/
theorem Tracks.insert (h : r.Tracks gap overlooked) (s : Segment) :
    ∃ gap', (r.insert s).2.Tracks gap' (overlooked ∨ r.Overlooks s) := by
  have hfin := fin_insert r s
  have hold : ∀ fin, r.fin = some fin → ¬ r.Overlooks s := by
    rintro fin hfin ⟨n, hn, -⟩
    simp [newFin?, hfin] at hn
  cases hun : r.finished with
  | true =>
    obtain ⟨fin, hrec, -, hle, -⟩ := h.ended hun
    rw [(insert_of_fin_le hrec (Nat.le_trans hle h.gap_le_expected)).2,
      or_iff_left (hold fin hrec)]
    exact ⟨gap, h⟩
  | false =>
    obtain ⟨gap', hbounded, -, -⟩ := h.toBounded.insert s
    have hun' : (r.insert s).2.finished = false := by rw [finished_insert, hun]
    refine ⟨gap', hbounded, ?_, fun fin hrec hd => ?_, by simp [hun']⟩
    · rintro (ho | ⟨n, hn, -⟩)
      · simp [hfin, h.fin_of_overlooked ho]
      · simp [hfin, hn]
    · rw [h.toBounded.waitsAt_insert hrec (Nat.lt_succ_self fin)]
      rw [hun', delivered_insert] at hd
      rw [hfin] at hrec
      cases hfin' : r.fin with
      | some n =>
        rw [or_iff_left (hold n hfin')]
        have hnew : r.newFin? s = none := by simp [newFin?, hfin']
        rw [hnew, Option.none_or] at hrec
        exact h.waitsAt_iff fin hrec (hd.imp_left (by simp))
      | none =>
        rw [hfin', Option.or_none] at hrec
        rw [or_iff_right fun ho => h.fin_of_overlooked ho hfin']
        simp only [Overlooks, hrec, Option.some.injEq, exists_eq_left']

/-! ## Deliveries -/

section Deliver

variable {σ : Type} (take : σ → Bytes → Nat × σ) (sink : σ)

/-- Up to the news of the end no more than the FIN is passed over. -/
theorem Tracks.deliver (h : r.Tracks gap overlooked) (hun : r.finished = false) :
    (r.deliver take sink).2.1.Tracks gap overlooked := by
  have hbounded := (h.toBounded.deliver take sink).1
  have hdel := h.unfinished hun
  obtain ⟨hle, hoffer⟩ := h.toBounded.offer_eq take sink hdel
  obtain ⟨-, hcases⟩ := r.deliver_cases take sink
  have hspec := drain_spec take r.acked r.delivered sink
  have hpos := hspec.le
  rw [hoffer] at hcases
  generalize drain take r.acked r.delivered sink = d at *
  simp only at hcases
  -- what begins behind where the sink stopped is as before
  have hwaits : ∀ fin, r.fin = some fin → d.position ≤ fin →
      (overlooked ↔ ({ r with acked := d.pending } : Reassembly).WaitsAt (fin + 1)) := by
    intro fin hfin hd
    have hlt : d.position < fin + 1 := by omega
    have hbegins := hspec.begins_iff h.acked_sorted hlt
    rw [h.waitsAt_iff fin hfin (.inr (Nat.le_trans hpos hd))]
    unfold WaitsAt
    simp only [Reassembly.pending, List.mem_append, or_and_right, exists_or]
    exact or_congr_left hbegins.symm
  rcases hcases with ⟨-, heq⟩ | ⟨-, hb, -, hfin, heq⟩
  · rw [heq] at hbounded ⊢
    exact ⟨hbounded, h.fin_of_overlooked,
      fun fin hfin hd => hwaits fin hfin (hd.resolve_left (by simp [hun])), by simp [hun]⟩
  · rw [heq] at hbounded ⊢
    refine ⟨hbounded, h.fin_of_overlooked, fun fin hfin' _ => ?_, fun _ => ?_⟩
    · obtain rfl := Option.some.inj (hfin.symm.trans hfin')
      exact hwaits _ hfin (Nat.le_refl _)
    · refine ⟨d.position, hfin, rfl, hle, fun f hf => ?_⟩
      rcases List.mem_append.mp hf with hf | hf
      · exact (hspec.sorted h.acked_sorted).lt_start (hspec.unblocked hb).2 f hf
      · exact Nat.lt_of_le_of_lt hle (h.ahead f hf).2.1

/-- After the news of the end a delivery does nothing if no FIN overlooked anything. -/
theorem Tracks.deliver_eq (h : r.Tracks gap overlooked) (hover : r.finished = true)
    (hnone : ¬ overlooked) : r.deliver take sink = ({}, r, sink) := by
  obtain ⟨fin, hfin, hdel, -, hbehind⟩ := h.ended hover
  have hfree := (not_congr (h.waitsAt_iff fin hfin (.inl hover))).mp hnone
  have hnext := nextPosition_le_succ fin
  have hlt : ∀ f ∈ r.pending, r.delivered < f.start := by
    intro f hf
    have := hbehind f hf
    have : f.start ≠ fin + 1 := fun heq => hfree ⟨f, hf, heq⟩
    omega
  have hacked : drain take r.acked r.delivered sink = ⟨r.acked, r.delivered, false, sink⟩ :=
    drain_eq_of_lt fun f hf => hlt f (List.mem_append_left _ hf)
  have hahead : drain take r.ahead r.delivered sink = ⟨r.ahead, r.delivered, false, sink⟩ :=
    drain_eq_of_lt fun f hf => hlt f (List.mem_append_right _ hf)
  have hoffer : r.offer take sink = (false, r, sink) := by
    rcases r.offer_cases take sink with heq | ⟨-, -, heq⟩
    · rw [heq, hacked]
    · rw [heq, hacked, hahead]
  unfold Reassembly.deliver
  rw [hoffer]
  simp [hover]

/-- If a FIN overlooked something, that is what a delivery after the news of the end offers. -/
theorem Tracks.offers_ne_nil (h : r.Tracks gap overlooked) (hover : r.finished = true)
    (ho : overlooked) : r.offers take sink ≠ [] := by
  obtain ⟨fin, hfin, hdel, hle, hbehind⟩ := h.ended hover
  obtain ⟨f, hf, hstart⟩ := (h.waitsAt_iff fin hfin (.inl hover)).mp ho
  have hcovers : f.Covers r.delivered := by
    obtain ⟨hne, hend⟩ := h.pending f hf
    have hlast := r.windowEnd_le_lastPosition
    have := Fragment.start_lt_stop hne
    unfold Fragment.Covers nextPosition at *
    omega
  unfold offers
  rw [(r.deliver_cases (noting take) (sink, [])).1]
  have hfirst : ∀ g ∈ r.pending, f.start ≤ g.start := fun g hg => by
    have := hbehind g hg
    omega
  rcases List.mem_append.mp hf with hf | hf
  · have hhead := h.acked_sorted.head?_eq hf fun g hg => hfirst g (List.mem_append_left _ hg)
    have hnoted := drain_noting_ne_nil take (sink, []) hhead hcovers
    rcases r.offer_cases (noting take) (sink, []) with heq | ⟨-, -, heq⟩
    · rw [heq]
      exact hnoted
    · rw [heq]
      exact drain_keeps (P := fun m => m.2 ≠ []) (fun m b _ => noting_ne_nil take m b) hnoted
  · have hhead := h.ahead_sorted.head?_eq hf fun g hg => hfirst g (List.mem_append_right _ hg)
    -- the gap begins at the FIN, so no acknowledged fragment is left
    have hgap := (h.ahead f hf).2.1
    have hnil : r.acked.toList = [] := by
      refine List.eq_nil_iff_forall_not_mem.mpr fun g hg => ?_
      obtain ⟨hne, hend⟩ := h.acked g hg
      have := Fragment.start_lt_stop hne
      have := hbehind g (List.mem_append_left _ hg)
      omega
    have hacked : drain (noting take) r.acked r.delivered (sink, []) =
        ⟨r.acked, r.delivered, false, (sink, [])⟩ := drain_eq_of_lt (by simp [hnil])
    have hnoted := drain_noting_ne_nil take (sink, []) hhead hcovers
    unfold offer
    rw [hacked]
    simpa [hnil] using hnoted

end Deliver

/-! ## All calls -/

/-- After a FIN has overlooked something and the application was told of the end, there is another
delivery. -/
def Spills (r : Reassembly) (calls : List Call) : Prop :=
  ∃ (done : List Call) (σ : Type) (take : σ → Bytes → Nat × σ) (sink : σ),
    done ++ [.deliver take sink] <+: calls ∧ r.Arrives done Overlooks ∧ 0 < r.endings done

/-- The end of the stream is the end: once the application was told of it, it is offered nothing
and told of nothing. It never gets more than what is acknowledged. -/
structure EndFinal (r : Reassembly) (calls : List Call) : Prop where
  silent : ∀ (done : List Call) {σ : Type} (take : σ → Bytes → Nat × σ) (sink : σ),
    done ++ [.deliver take sink] <+: calls → 0 < r.endings done →
      (r.performAll done).offers take sink = [] ∧
        ((r.performAll done).deliver take sink).1.eof = false
  delivered_le : ∀ done, done <+: calls →
    (r.performAll done).delivered ≤ (r.performAll done).expected

theorem Tracks.delivered_le_expected (h : r.Tracks gap overlooked) :
    r.delivered ≤ r.expected := by
  cases hover : r.finished with
  | false => exact Nat.le_trans (h.unfinished hover) h.gap_le_expected
  | true =>
    obtain ⟨fin, hfin, hdel, hle, -⟩ := h.ended hover
    have hnext := nextPosition_le_succ fin
    have hexp := h.expected_eq
    split at hexp
    next hend =>
      obtain rfl := Option.some.inj (hfin.symm.trans hend)
      omega
    next hend =>
      have : fin ≠ gap := fun heq => hend (by rw [hfin, heq])
      omega

theorem finished_iff_endings_pos (capacity : Nat) (calls : List Call) :
    (performAll { capacity } calls).finished = true ↔ 0 < endings { capacity } calls := by
  have hends := finished_performAll { capacity } calls
  simp only [Bool.toNat_false, Nat.zero_add] at hends
  rw [← hends]
  cases (performAll { capacity } calls).finished <;> simp

theorem Spills.mono {calls calls' : List Call} (h : r.Spills calls) (hc : calls <+: calls') :
    r.Spills calls' := by
  obtain ⟨done, σ, take, sink, hdone, hspill⟩ := h
  exact ⟨done, σ, take, sink, hdone.trans hc, hspill⟩

theorem EndFinal.mono {calls calls' : List Call} (h : r.EndFinal calls') (hc : calls <+: calls') :
    r.EndFinal calls where
  silent done _ take sink hdone := h.silent done take sink (hdone.trans hc)
  delivered_le done hdone := h.delivered_le done (hdone.trans hc)

/-- As long as no delivery is such, a run keeps track of what a FIN has overlooked. -/
theorem tracks_performAll {capacity : Nat} {calls : List Call} (h : ¬ Spills { capacity } calls) :
    ∃ gap, (performAll { capacity } calls).Tracks gap (Arrives { capacity } calls Overlooks) := by
  induction calls using List.reverseRecOn with
  | nil =>
    have hnone : ¬ Arrives { capacity } [] Overlooks := by
      rintro ⟨done, s, rest, heq, -⟩
      simp at heq
    refine ⟨firstPosition, ?_⟩
    rw [eq_false hnone]
    exact tracks_start capacity
  | append_singleton calls c ih =>
    obtain ⟨gap, ht⟩ := ih fun hspills => h (hspills.mono (List.prefix_append calls [c]))
    rw [performAll_append, arrives_append_singleton]
    cases c with
    | insert s =>
      simp only [Call.insert.injEq, exists_eq_left']
      exact ht.insert s
    | deliver take sink =>
      simp only [reduceCtorEq, false_and, exists_false, or_false]
      refine ⟨gap, ?_⟩
      cases hover : (performAll { capacity } calls).finished with
      | false => exact ht.deliver take sink hover
      | true =>
        have hnone : ¬ Arrives { capacity } calls Overlooks := fun ho =>
          h ⟨calls, _, take, sink, List.prefix_rfl, ho,
            (finished_iff_endings_pos capacity calls).mp hover⟩
        show Tracks gap _ ((performAll { capacity } calls).deliver take sink).2.1
        rw [ht.deliver_eq take sink hover hnone]
        exact ht

theorem EndFinal.not_spills {capacity : Nat} {calls : List Call}
    (h : EndFinal { capacity } calls) : ¬ Spills { capacity } calls := by
  induction calls using List.reverseRecOn with
  | nil =>
    rintro ⟨done, σ, take, sink, hdone, -⟩
    simp at hdone
  | append_singleton calls c ih =>
    have hbefore := ih (h.mono (List.prefix_append calls [c]))
    rintro ⟨done, σ, take, sink, hdone, ho, hends⟩
    rcases List.prefix_concat_iff.mp hdone with heq | hdone
    · obtain ⟨rfl, -⟩ := List.append_inj' heq rfl
      obtain ⟨gap, ht⟩ := tracks_performAll hbefore
      have hover := (finished_iff_endings_pos capacity done).mpr hends
      exact ht.offers_ne_nil take sink hover ho (h.silent done take sink hdone hends).1
    · exact hbefore ⟨done, σ, take, sink, hdone, ho, hends⟩

theorem endFinal_of_not_spills {capacity : Nat} {calls : List Call}
    (h : ¬ Spills { capacity } calls) : EndFinal { capacity } calls where
  silent done _ take sink hdone hends := by
    obtain ⟨gap, ht⟩ := tracks_performAll fun hspills =>
      h (hspills.mono ((List.prefix_append done _).trans hdone))
    have hover := (finished_iff_endings_pos capacity done).mpr hends
    have hnone : ¬ Arrives { capacity } done Overlooks := fun ho =>
      h ⟨done, _, take, sink, hdone, ho, hends⟩
    refine ⟨?_, by rw [ht.deliver_eq take sink hover hnone]⟩
    unfold offers
    rw [ht.deliver_eq (noting take) (sink, []) hover hnone]
  delivered_le done hdone := by
    obtain ⟨gap, ht⟩ := tracks_performAll fun hspills => h (hspills.mono hdone)
    exact ht.delivered_le_expected

/-- Whoever the peer is, the end of its stream is final exactly if no delivery comes after the news
of the end where a FIN has overlooked something. The news comes at most once. -/
theorem end_final_iff_not_spills (capacity : Nat) (calls : List Call) :
    (EndFinal { capacity } calls ↔ ¬ Spills { capacity } calls) ∧
      endings { capacity } calls ≤ 1 := by
  have hends := finished_performAll { capacity } calls
  simp only [Bool.toNat_false, Nat.zero_add] at hends
  exact ⟨⟨EndFinal.not_spills, endFinal_of_not_spills⟩, hends ▸ Bool.toNat_le _⟩

/-! ### A letter behind the end

A letter comes first that lies right behind the FIN, then the FIN, and then the two letters before
it. The sink takes these two and is told of the end. -/

def stray : Segment := { middle with seqno := 4, payload := [120] }

def bareFin : Segment := { middle with seqno := 3, flags := .ack ||| .fin, payload := [] }

def twoLetters : Segment := { middle with seqno := 1, payload := [97, 98] }

def strayRun : List Call := [.insert stray, .insert bareFin, .insert twoLetters, taking 2]

/-- The next delivery offers the letter from behind the FIN to the sink, and the sink has got more
than what is acknowledged. -/
theorem not_end_final_strayRun :
    0 < endings { capacity := 1440 } strayRun ∧
      (performAll { capacity := 1440 } strayRun).offers (fun (_ : Unit) _ => (1, ())) () =
        [[120]] ∧
      (performAll { capacity := 1440 } (strayRun ++ [taking 1])).expected <
        (performAll { capacity := 1440 } (strayRun ++ [taking 1])).delivered ∧
      ¬ EndFinal { capacity := 1440 } (strayRun ++ [taking 1]) := by
  have hends : 0 < endings { capacity := 1440 } strayRun := by decide +kernel
  have hoffers : (performAll { capacity := 1440 } strayRun).offers
      (fun (_ : Unit) _ => (1, ())) () = [[120]] := by decide +kernel
  refine ⟨hends, hoffers, by decide +kernel, fun h => ?_⟩
  have hsilent := (h.silent strayRun _ () (List.prefix_rfl) hends).1
  rw [hoffers] at hsilent
  cases hsilent

end Reassembly

end ReliableStream
