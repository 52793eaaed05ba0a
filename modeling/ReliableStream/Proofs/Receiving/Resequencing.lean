import ReliableStream.Proofs.Receiving.Retention

/-!
# Reassembly is exact

A position is `Covered` if some segment brought it while it lay in the window. Whatever the order,
the overlaps and the deliveries in between, a buffer expects the first position that is not covered,
or the one after it if that is where the FIN is (`expects_first_missing`); a sink got exactly the
bytes before the next one to deliver.

* `Reached`: a position that is acknowledged or waits behind the gap. An arriving segment adds to
  these what the window lets through of it (`Follows.reached_insert_iff`), and a delivery changes
  nothing about them.
* `Arrives`: some segment of a run was such when it arrived. What single arrivals add up to is what
  `Arrives` in the run (`Follows.performAll_iff`).
* `taken`, `endings`: what the sinks of a run took, and how often one was told that the stream
  ended.
-/

namespace ReliableStream

/-! ## Sinks that keep a record -/

section Observe

variable {σ ω : Type}

/-- As `take`, for a sink that keeps a record besides; `note` adds to it what an offer is worth. -/
def observing (take : σ → Bytes → Nat × σ) (note : σ → Bytes → ω → ω) (m : σ × ω)
    (offered : Bytes) : Nat × (σ × ω) :=
  ((take m.1 offered).1, (take m.1 offered).2, note m.1 offered m.2)

/-- As `take`, for a sink that remembers what it took. -/
def remembering (take : σ → Bytes → Nat × σ) (m : σ × Bytes) (offered : Bytes) :
    Nat × (σ × Bytes) :=
  ((take m.1 offered).1, (take m.1 offered).2, m.2 ++ offered.take (take m.1 offered).1)

theorem remembering_eq (take : σ → Bytes → Nat × σ) :
    remembering take = observing take fun s offered got => got ++ offered.take (take s offered).1 :=
  rfl

/-- The record makes no difference. -/
theorem drain_observing (take : σ → Bytes → Nat × σ) (note : σ → Bytes → ω → ω)
    (pending : Queue Fragment) (position : Nat) (s : σ) (w : ω) :
    ∃ w', drain (observing take note) pending position (s, w) =
      ⟨(drain take pending position s).pending, (drain take pending position s).position,
        (drain take pending position s).blocked, (drain take pending position s).sink, w'⟩ := by
  fun_induction drain take pending position s generalizing w with
  | case1 pending position s hnone =>
    exact ⟨w, drain_of_none hnone⟩
  | case2 pending position s f rest hpop offered hempty ih =>
    obtain ⟨w', h⟩ := ih w
    exact ⟨w', by rw [drain_of_some hpop, ← h]; exact if_pos hempty⟩
  | case3 pending position s f rest hpop offered hne answer s' hs taken htaken left =>
    have hs' : observing take note (s, w) offered = (answer, s', note s offered w) := by
      rw [observing, hs]
    refine ⟨note s offered w, ?_⟩
    rw [drain_of_some hpop]
    exact (if_neg hne).trans (by rw [hs']; exact if_pos htaken)
  | case4 pending position s f rest hpop offered hne answer s' hs taken htaken ih =>
    have hs' : observing take note (s, w) offered = (answer, s', note s offered w) := by
      rw [observing, hs]
    obtain ⟨w', h⟩ := ih (note s offered w)
    refine ⟨w', ?_⟩
    rw [drain_of_some hpop, ← h]
    exact (if_neg hne).trans (by rw [hs']; exact if_neg htaken)

end Observe

namespace Reassembly

variable {r r' : Reassembly} {s : Segment} {f : Fragment} {t : Stream} {p : Nat}

theorem deliver_observing {σ ω : Type} (take : σ → Bytes → Nat × σ) (note : σ → Bytes → ω → ω)
    (sink : σ) (w : ω) : ∃ w', r.deliver (observing take note) (sink, w) =
      ((r.deliver take sink).1, (r.deliver take sink).2.1, (r.deliver take sink).2.2, w') := by
  have hoffer : ∃ w', r.offer (observing take note) (sink, w) =
      ((r.offer take sink).1, (r.offer take sink).2.1, (r.offer take sink).2.2, w') := by
    obtain ⟨w', h⟩ := drain_observing take note r.acked r.delivered sink w
    unfold offer
    simp only [h]
    split
    · exact ⟨w', rfl⟩
    · obtain ⟨w'', h'⟩ := drain_observing take note r.ahead
        (drain take r.acked r.delivered sink).position
        (drain take r.acked r.delivered sink).sink w'
      exact ⟨w'', by rw [h']⟩
  obtain ⟨w', h⟩ := hoffer
  refine ⟨w', ?_⟩
  unfold deliver
  rw [h]
  simp only
  split
  · rfl
  · split <;> rfl

section Remember

variable {σ : Type} (take : σ → Bytes → Nat × σ) (sink : σ)

/-- What a sink took in a delivery. -/
def takenBy (r : Reassembly) : Bytes := (r.deliver (remembering take) (sink, [])).2.2.2

/-- It comes right after what was delivered before. -/
theorem Follows.before_append_takenBy (h : r.Follows t) (ht : t.next ≤ lastPosition) :
    t.before r.delivered ++ r.takenBy take sink =
        t.before (r.deliver take sink).2.1.delivered := by
  have hdrained : t.before r.delivered ++
      (drain (remembering take) r.acked r.delivered (sink, [])).sink.2 =
        t.before (drain (remembering take) r.acked r.delivered (sink, [])).position := by
    let P : Nat → σ × Bytes → Prop := fun p m => t.before r.delivered ++ m.2 = t.before p
    refine drain_rule (P := P) (t := t) ?_ (fun f hf => (h.acked f hf).2.1) (List.append_nil _)
    rintro p offered m - hat hm
    show t.before r.delivered ++ (m.2 ++ offered.take (take m.1 offered).1) =
      t.before (p + min (take m.1 offered).1 offered.length)
    rw [← List.append_assoc, hm, ← List.length_take]
    by_cases hnil : offered.take (take m.1 offered).1 = []
    · rw [hnil, List.append_nil]
      rfl
    · exact Stream.before_append (hat.take _) hnil
  obtain ⟨hsink, hcases⟩ := h.deliver_cases (remembering take) (sink, []) ht
  obtain ⟨got', heq⟩ := deliver_observing (r := r) take
    (fun s offered got => got ++ offered.take (take s offered).1) sink []
  rw [← remembering_eq] at heq
  unfold takenBy
  rw [heq] at hsink hcases ⊢
  simp only at hsink hcases ⊢
  rw [← hsink] at hdrained
  rcases hcases with ⟨-, heq, -⟩ | ⟨-, -, -, -, hstop, -, heq⟩
  · rw [heq]
    exact hdrained
  · rw [heq, hdrained, hstop, Stream.before_stop (Nat.le_refl _),
      Stream.before_stop (Nat.le_succ _)]

end Remember

/-! ## One call -/

/-- Position `p` was received: it is acknowledged, or waits behind the gap. -/
def Reached (r : Reassembly) (p : Nat) : Prop :=
  p < r.expected ∨ ∃ f ∈ r.ahead.toList, f.Covers p

/-- Position `p` lies in the payload of `s` and in the window. -/
def Admits (r : Reassembly) (s : Segment) (p : Nat) : Prop :=
  (s.start ≤ p ∧ p < s.start + s.payload.length) ∧ r.delivered ≤ p ∧ p < r.windowEnd

/-- `s` has a FIN at position `p`, and the window does not end before it. -/
def AdmitsFin (r : Reassembly) (s : Segment) (p : Nat) : Prop :=
  s.hasFin = true ∧ p = s.start + s.payload.length ∧ p ≤ r.windowEnd

/-- Closing the gap turns what waits behind it into what is acknowledged. -/
theorem ClosesGap.reached_iff {gone : List Fragment} (h : r.ClosesGap r' gone) :
    r'.Reached p ↔ r.Reached p := by
  unfold Reached
  rw [h.ahead]
  constructor
  · rintro (hp | ⟨f, hf, hfp⟩)
    · by_cases hle : r.expected ≤ p
      · obtain ⟨f, hf, hfp⟩ := h.covered p hle hp
        exact .inr ⟨f, List.mem_append_left _ hf, hfp⟩
      · exact .inl (Nat.lt_of_not_le hle)
    · exact .inr ⟨f, List.mem_append_right _ hf, hfp⟩
  · rintro (hp | ⟨f, hf, hfp⟩)
    · exact .inl (Nat.lt_of_lt_of_le hp h.le)
    · rcases List.mem_append.mp hf with hf | hf
      · exact .inl (Nat.lt_of_lt_of_le hfp.2 (h.stop_le f hf))
      · exact .inr ⟨f, hf, hfp⟩

theorem fin_closeGap (r : Reassembly) : r.closeGap.fin = r.fin := by
  obtain ⟨gone, hgap⟩ := closeGap_spec r
  rw [hgap.eq_rest]

/-- The FIN has no part in what is received before it. -/
theorem reached_advance_iff (hfin : ∀ n, r.fin = some n → t.ended = true ∧ n = t.stop)
    (ht : t.next ≤ lastPosition) (hp : p < t.stop) : r.advance.Reached p ↔ r.Reached p := by
  obtain ⟨gone, hgap⟩ := closeGap_spec r
  rw [← hgap.reached_iff]
  unfold Reached advance
  simp only
  split
  next hreach =>
    obtain ⟨he, hstop⟩ := hfin _ ((fin_closeGap r).symm.trans hreach)
    rw [hstop, nextPosition_stop ht he]
    exact or_congr_left (by omega)
  next => rfl

/-- A stored fragment adds what it covers. -/
theorem reached_of_store? (h : r.store? f = some r') (hs : Fragment.Sorted r.ahead.toList) :
    r'.Reached p ↔ r.Reached p ∨ f.Covers p := by
  obtain ⟨ahead, hstored, rfl⟩ := stored_of_store? h
  unfold Reached
  cases hstored with
  | front _ =>
    simp only [Queue.toList_pushFront, List.mem_cons, exists_eq_or_imp]
    rw [or_assoc, or_comm (a := f.Covers p)]
  | behind _ hput =>
    have hp := Fragment.toList_put? (f := f) hs
    rw [hput, Option.map_some] at hp
    simp only
    rw [Fragment.covers_putInto? hp.symm, or_assoc, or_comm (a := f.Covers p)]

/-- One that is not stored would add nothing. -/
theorem reached_of_store?_eq_none (h : r.store? f = none) (hs : Fragment.Sorted r.ahead.toList)
    (hf : f.Covers p) : r.Reached p := by
  unfold store? at h
  split at h
  · cases h
  · have hput := Fragment.toList_put? (f := f) hs
    rw [Option.map_eq_none_iff.mp h, Option.map_none] at hput
    exact .inr (Fragment.covers_of_putInto?_eq_none hs hput.symm hf)

/-- What the limit lets through of a segment and is not acknowledged yet. -/
theorem usable?_covers : (∃ f, r.usable? s = some f ∧ f.Covers p) ↔
    (s.start ≤ p ∧ p < s.start + s.payload.length) ∧ r.expected ≤ p ∧ p < r.limit := by
  unfold usable?
  simp only
  split
  next h =>
    simp only [Option.some.injEq, exists_eq_left', Fragment.Covers, Fragment.stop, List.length_drop,
      List.length_take]
    omega
  next h =>
    simp only [reduceCtorEq, false_and, exists_false, false_iff]
    omega

/-- No byte of the stream is cut off because of the FIN. -/
theorem lt_limit_iff (hfin : ∀ n, r.fin = some n → t.ended = true ∧ n = t.stop)
    (hp : p < t.stop) : p < r.limit ↔ p < r.windowEnd := by
  unfold limit
  split
  next fin h =>
    rw [(hfin fin h).2]
    omega
  next => rfl

/-- An arriving slice of the stream adds the bytes of it that lie in the window. -/
theorem Follows.reached_insert_iff (h : r.Follows t) (ht : t.next ≤ lastPosition)
    (hs : s.SliceOf t) (hp : p < t.stop) :
    (r.insert s).2.Reached p ↔ r.Reached p ∨ r.Admits s p := by
  have hdel := h.delivered_le
  obtain ⟨hfin, -⟩ := (r.recordsFin_newFin? s).fin_eq h.toConsistent hs
  unfold Reassembly.insert
  split
  next hbeyond =>
    refine (or_iff_left ?_).symm
    rintro ⟨⟨hstart, hstop⟩, -, hend⟩
    simp only [isBeyondWindow, Bool.or_eq_true, decide_eq_true_eq, Bool.and_eq_true,
      beq_iff_eq] at hbeyond
    omega
  next =>
    simp only
    generalize (r.newFin? s).or r.fin = fin at hfin ⊢
    -- what can be used is what the window admits and is not acknowledged
    have huse : (∃ f, ({ r with fin } : Reassembly).usable? s = some f ∧ f.Covers p) ↔
        r.expected ≤ p ∧ r.Admits s p := by
      rw [usable?_covers, lt_limit_iff hfin hp]
      unfold Admits
      simp only [windowEnd]
      omega
    have hadmits : r.Admits s p → r.Reached p ∨
        ∃ f, ({ r with fin } : Reassembly).usable? s = some f ∧ f.Covers p := by
      intro ha
      by_cases hle : r.expected ≤ p
      · exact .inr (huse.mpr ⟨hle, ha⟩)
      · exact .inl (.inl (Nat.lt_of_not_le hle))
    split
    next stored hbind =>
      obtain ⟨f, hf, hst⟩ := Option.bind_eq_some_iff.mp hbind
      obtain ⟨ahead, -, heq⟩ := stored_of_store? hst
      have hstored := reached_of_store? (p := p) hst h.ahead_sorted
      rw [hf] at huse hadmits
      simp only [Option.some.injEq, exists_eq_left'] at huse hadmits
      rw [reached_advance_iff (by rw [heq]; exact hfin) ht hp, hstored]
      refine ⟨Or.imp_right fun hfp => (huse.mp hfp).2, ?_⟩
      rintro (hr | ha)
      · exact .inl hr
      · exact hadmits ha
    next hnone =>
      have hold : r.Admits s p → r.Reached p := by
        intro ha
        rcases hadmits ha with hr | ⟨f, hf, hfp⟩
        · exact hr
        · rw [hf, Option.bind_some] at hnone
          have hr := reached_of_store?_eq_none hnone h.ahead_sorted hfp
          exact hr
      rw [or_iff_left_of_imp hold]
      split
      · exact reached_advance_iff hfin ht hp
      · rfl

theorem fin_insert (r : Reassembly) (s : Segment) :
    (r.insert s).2.fin = (r.newFin? s).or r.fin := by
  unfold insert
  split
  next hbeyond =>
    have hnone : r.newFin? s = none := by
      simp only [isBeyondWindow, Bool.or_eq_true, decide_eq_true_eq, Bool.and_eq_true, beq_iff_eq,
        Bool.not_eq_true', List.isEmpty_eq_false_iff_exists_mem] at hbeyond
      refine if_neg fun h => ?_
      rcases hbeyond with hlt | ⟨heq, b, hb⟩
      · omega
      · have := List.length_pos_of_mem hb
        omega
    rw [hnone]
    rfl
  next =>
    simp only
    split
    next stored hbind =>
      obtain ⟨f, -, hst⟩ := Option.bind_eq_some_iff.mp hbind
      obtain ⟨ahead, -, rfl⟩ := stored_of_store? hst
      exact fin_closeGap _
    next =>
      split
      · exact fin_closeGap _
      next hnew =>
        rw [Option.not_isSome_iff_eq_none.mp hnew]
        rfl

/-- A FIN is recorded if the window reaches up to it. -/
theorem Follows.fin_insert_iff (h : r.Follows t) (hs : s.SliceOf t) :
    (r.insert s).2.fin = some p ↔ r.fin = some p ∨ r.AdmitsFin s p := by
  have hexp := h.expected_le
  rw [fin_insert]
  unfold newFin? AdmitsFin
  simp only
  split
  next hnew =>
    obtain ⟨hf, hn, hw, -⟩ := hnew
    have hnone : r.fin = none := by simpa using hn
    rw [hnone]
    simp only [Option.some_or, Option.some.injEq, reduceCtorEq, false_or]
    constructor
    · rintro rfl
      exact ⟨hf, rfl, hw⟩
    · rintro ⟨-, rfl, -⟩
      rfl
  next hold =>
    rw [Option.none_or]
    refine (or_iff_left_of_imp ?_).symm
    rintro ⟨hf, rfl, hw⟩
    obtain ⟨-, hstop⟩ := hs.fin hf
    cases hfin : r.fin with
    | some n => rw [hstop, (h.fin_eq n hfin).2]
    | none =>
      have := hexp.resolve_right (by simp [hfin])
      exact absurd ⟨hf, by rw [hfin]; rfl, hw, by omega⟩ hold

/-- A delivery changes neither what was received nor the FIN. -/
theorem Follows.deliver_unchanged {σ : Type} (take : σ → Bytes → Nat × σ) (sink : σ)
    (h : r.Follows t) (ht : t.next ≤ lastPosition) :
    ((r.deliver take sink).2.1.Reached p ↔ r.Reached p) ∧
      (r.deliver take sink).2.1.fin = r.fin := by
  obtain ⟨-, hcases⟩ := h.deliver_cases take sink ht
  simp only at hcases
  rcases hcases with ⟨-, heq, -⟩ | ⟨-, -, -, -, -, -, heq⟩
  · rw [heq]
    exact ⟨Iff.rfl, rfl⟩
  · rw [heq]
    exact ⟨Iff.rfl, rfl⟩

/-! ## All calls -/

/-- Some segment of the run is such that `P` holds of it and of the buffer when it arrives. -/
def Arrives (r : Reassembly) (calls : List Call) (P : Reassembly → Segment → Prop) : Prop :=
  ∃ done s rest, calls = done ++ .insert s :: rest ∧ P (r.performAll done) s

/-- Some segment of the run brings position `p` while it lies in the window. -/
def Covered (r : Reassembly) (calls : List Call) (p : Nat) : Prop :=
  r.Arrives calls (·.Admits · p)

/-- Some segment of the run brings a FIN at position `p` while the window reaches up to it. -/
def FinCovered (r : Reassembly) (calls : List Call) (p : Nat) : Prop :=
  r.Arrives calls (·.AdmitsFin · p)

/-- The bytes that the sinks of the run take, in order. -/
def taken (r : Reassembly) : List Call → Bytes
  | [] => []
  | .insert s :: calls => taken (r.insert s).2 calls
  | .deliver take sink :: calls =>
    r.takenBy take sink ++ taken (r.deliver take sink).2.1 calls

/-- How often a sink of the run is told that the stream ended. -/
def endings (r : Reassembly) : List Call → Nat
  | [] => 0
  | .insert s :: calls => endings (r.insert s).2 calls
  | .deliver take sink :: calls =>
    (r.deliver take sink).1.eof.toNat + endings (r.deliver take sink).2.1 calls

theorem arrives_cons {P : Reassembly → Segment → Prop} {c : Call} {calls : List Call} :
    r.Arrives (c :: calls) P ↔ (∃ s, c = .insert s ∧ P r s) ∨ (r.perform c).Arrives calls P := by
  constructor
  · rintro ⟨done, s, rest, heq, hP⟩
    rcases List.cons_eq_append_iff.mp heq with ⟨rfl, hcons⟩ | ⟨done', rfl, htail⟩
    · exact .inl ⟨s, (List.cons.inj hcons).1.symm, hP⟩
    · exact .inr ⟨done', s, rest, htail, hP⟩
  · rintro (⟨s, rfl, hP⟩ | ⟨done, s, rest, rfl, hP⟩)
    · exact ⟨[], s, calls, rfl, hP⟩
    · exact ⟨c :: done, s, rest, rfl, hP⟩

theorem arrives_append_singleton {P : Reassembly → Segment → Prop} {c : Call} {calls : List Call} :
    r.Arrives (calls ++ [c]) P ↔
      r.Arrives calls P ∨ ∃ s, c = .insert s ∧ P (r.performAll calls) s := by
  induction calls generalizing r with
  | nil =>
    have hnil : ∀ {r : Reassembly}, ¬ r.Arrives [] P := by
      rintro r ⟨done, s, rest, heq, -⟩
      simp at heq
    rw [List.nil_append, arrives_cons, or_iff_left hnil, or_iff_right hnil]
    rfl
  | cons d calls ih =>
    rw [List.cons_append, arrives_cons, ih, arrives_cons, or_assoc]
    rfl

/-- What every arrival adds to `Q` if `P` holds of it, and nothing else does, is there after a run
if it was before or `P` held of an arrival. -/
theorem Follows.performAll_iff {P : Reassembly → Segment → Prop} {Q : Reassembly → Prop}
    {calls : List Call} (ht : t.next ≤ lastPosition)
    (hinsert : ∀ {r : Reassembly}, r.Follows t → ∀ {s}, s.SliceOf t →
      (Q (r.insert s).2 ↔ Q r ∨ P r s))
    (hdeliver : ∀ {r : Reassembly}, r.Follows t → ∀ {σ : Type} (take : σ → Bytes → Nat × σ) sink,
      (Q (r.deliver take sink).2.1 ↔ Q r))
    (h : r.Follows t) (hc : ∀ s, Call.insert s ∈ calls → s.SliceOf t) :
    Q (r.performAll calls) ↔ Q r ∨ r.Arrives calls P := by
  induction calls generalizing r with
  | nil =>
    refine (or_iff_left ?_).symm
    rintro ⟨done, s, rest, heq, -⟩
    simp at heq
  | cons c calls ih =>
    have hnext := h.perform ht (c := c) fun s hs => hc s (hs ▸ .head calls)
    have hrest := ih hnext fun s hs => hc s (.tail c hs)
    rw [arrives_cons, ← or_assoc]
    refine hrest.trans (or_congr_left ?_)
    cases c with
    | insert s => simpa [Reassembly.perform] using hinsert h (hc s (.head calls))
    | deliver take sink => simpa [Reassembly.perform] using hdeliver h take sink

theorem performAll_append (r : Reassembly) (calls calls' : List Call) :
    r.performAll (calls ++ calls') = (r.performAll calls).performAll calls' := List.foldl_append

/-- A buffer remembers whether the application was told of the end. -/
theorem finished_performAll (r : Reassembly) (calls : List Call) :
    (r.performAll calls).finished.toNat = r.finished.toNat + r.endings calls := by
  induction calls generalizing r with
  | nil => rfl
  | cons c calls ih =>
    have hrest := ih (r.perform c)
    cases c with
    | insert s =>
      simp only [Reassembly.perform, finished_insert] at hrest
      exact hrest
    | deliver take sink =>
      obtain ⟨hfinished, honce⟩ := finished_deliver take sink r
      have hnow : (r.deliver take sink).2.1.finished.toNat =
          r.finished.toNat + (r.deliver take sink).1.eof.toNat := by
        rw [hfinished]
        cases heof : (r.deliver take sink).1.eof with
        | false => simp
        | true => simp [honce heof]
      simp only [Reassembly.perform, hnow] at hrest
      rw [endings, ← Nat.add_assoc]
      exact hrest

/-- What the sinks of a run take comes right after what was delivered before. -/
theorem Follows.before_append_taken {calls : List Call} (h : r.Follows t)
    (ht : t.next ≤ lastPosition) (hc : ∀ s, Call.insert s ∈ calls → s.SliceOf t) :
    t.before r.delivered ++ r.taken calls = t.before (r.performAll calls).delivered := by
  induction calls generalizing r with
  | nil => exact List.append_nil _
  | cons c calls ih =>
    have htaken :=
      ih (h.perform ht fun s hs => hc s (hs ▸ .head calls)) fun s hs => hc s (.tail c hs)
    cases c with
    | insert s =>
      obtain ⟨-, -, hdelivered, -⟩ := h.insert_acked ht (hc s (.head calls))
      simp only [Reassembly.perform] at htaken
      rw [hdelivered] at htaken
      exact htaken
    | deliver take sink =>
      have hnow := h.before_append_takenBy take sink ht
      simp only [Reassembly.perform] at htaken
      rw [taken, ← List.append_assoc, hnow]
      exact htaken

/-- A segment that covers a position brings a byte of the stream. -/
theorem Covered.lt_stop {calls : List Call} (h : r.Covered calls p)
    (hc : ∀ s, Call.insert s ∈ calls → s.SliceOf t) : p < t.stop := by
  obtain ⟨done, s, rest, rfl, ⟨hstart, hlt⟩, -⟩ := h
  have hne : s.payload ≠ [] := by
    rintro hnil
    simp only [hnil, List.length_nil] at hlt
    omega
  have hs := hc s (by simp)
  have := (hs.payload hne).stop_le hne
  omega

/-- The first position of a stream that is not covered. -/
def FirstMissing (covered : Nat → Prop) (p : Nat) : Prop :=
  firstPosition ≤ p ∧ ¬ covered p ∧ ∀ q, firstPosition ≤ q → q < p → covered q

theorem FirstMissing.eq {covered : Nat → Prop} {p q : Nat} (hp : FirstMissing covered p)
    (hq : FirstMissing covered q) : p = q := by
  obtain ⟨hfp, hnp, hbp⟩ := hp
  obtain ⟨hfq, hnq, hbq⟩ := hq
  rcases Nat.lt_trichotomy p q with hlt | heq | hgt
  · exact absurd (hbq p hfp hlt) hnp
  · exact heq
  · exact absurd (hbp q hfq hgt) hnq

/-- A buffer that got slices of a stream expects the first position that was not covered, or the one
after it if that is where the FIN is. -/
theorem expected_eq (capacity : Nat) {calls : List Call} (ht : t.next ≤ lastPosition)
    (hc : ∀ s, Call.insert s ∈ calls → s.SliceOf t) :
    ∃ p, FirstMissing (Covered { capacity } calls) p ∧
      (∀ q, (performAll { capacity } calls).fin = some q ↔ FinCovered { capacity } calls q) ∧
      (performAll { capacity } calls).expected =
        if (performAll { capacity } calls).fin = some p then p + 1 else p := by
  have hstart := follows_start t capacity
  have hend := hstart.performAll ht hc
  have hcovered : ∀ q, firstPosition ≤ q → q < t.stop →
      ((performAll { capacity } calls).Reached q ↔ Covered { capacity } calls q) := by
    intro q hq hlt
    have hrun := Follows.performAll_iff (P := (·.Admits · q)) (Q := (·.Reached q)) ht
      (fun h _ hs => h.reached_insert_iff ht hs hlt)
      (fun h _ take sink => (h.deliver_unchanged take sink ht).1) hstart hc
    refine hrun.trans (or_iff_right ?_)
    rintro (hlt' | ⟨f, hf, -⟩)
    · exact absurd hlt' (Nat.not_lt.mpr hq)
    · simp at hf
  have hfin : ∀ q, (performAll { capacity } calls).fin = some q ↔
      FinCovered { capacity } calls q := by
    intro q
    have hrun := Follows.performAll_iff (P := (·.AdmitsFin · q)) (Q := (·.fin = some q)) ht
      (fun h _ hs => h.fin_insert_iff hs)
      (fun h _ take sink => by rw [(h.deliver_unchanged (p := q) take sink ht).2]) hstart hc
    exact hrun.trans (or_iff_right (by simp))
  have hstop : ∀ {q}, Covered { capacity } calls q → q < t.stop := fun h => h.lt_stop hc
  have hfirst := Nat.le_trans hend.first_le hend.delivered_le
  have hahead := hend.ahead
  have hset := hend.settled
  have hexp := hend.expected_le
  generalize performAll { capacity } calls = r at *
  rcases hexp with hle | ⟨hrec, heq⟩
  · refine ⟨r.expected, ⟨hfirst, fun hcov => ?_, fun q hq hlt => ?_⟩, hfin, (if_neg hset).symm⟩
    · rcases (hcovered _ hfirst (hstop hcov)).mpr hcov with hlt | ⟨f, hf, hfp⟩
      · exact Nat.lt_irrefl _ hlt
      · have := (hahead f hf).2.2
        have := hfp.1
        omega
    · exact (hcovered q hq (by omega)).mp (.inl hlt)
  · refine ⟨t.stop, ⟨Nat.le_add_right _ _, fun hcov => Nat.lt_irrefl _ (hstop hcov),
      fun q hq hlt => ?_⟩, hfin, by rw [if_pos hrec, heq]⟩
    exact (hcovered q hq hlt).mp (.inl (by omega))

/-- The sinks of a run took the bytes of the stream up to the next one to deliver, and were told of
its end at most once, after all bytes. -/
theorem taken_eq (capacity : Nat) {calls : List Call} (ht : t.next ≤ lastPosition)
    (hc : ∀ s, Call.insert s ∈ calls → s.SliceOf t) :
    taken { capacity } calls <+: t.bytes ∧
      (performAll { capacity } calls).delivered =
        firstPosition + (taken { capacity } calls).length + endings { capacity } calls ∧
      endings { capacity } calls ≤ 1 ∧
      (endings { capacity } calls = 1 → t.ended = true ∧ taken { capacity } calls = t.bytes) := by
  have hstart := follows_start t capacity
  have htaken := hstart.before_append_taken ht hc
  have hends := finished_performAll { capacity } calls
  have hend := hstart.performAll ht hc
  have hempty : t.before (firstPosition) = [] := by simp [Stream.before]
  simp only [hempty, List.nil_append, Bool.toNat_false, Nat.zero_add] at htaken hends
  rw [htaken, ← hends]
  have hfirst := hend.first_le
  have hdel := hend.delivered_le
  have hexp := hend.expected_le
  have hunf := hend.finished_iff
  have hfin_eq := hend.fin_eq
  generalize performAll { capacity } calls = r at *
  refine ⟨List.take_prefix _ _, ?_, Bool.toNat_le _, fun hone => ?_⟩
  · have hstop : t.stop = firstPosition + t.bytes.length := rfl
    rw [Stream.before, List.length_take]
    cases hf : r.finished with
    | false =>
      have := hunf.not.mp (by simp [hf])
      simp only [Bool.toNat_false]
      omega
    | true =>
      have := hunf.mp hf
      simp only [Bool.toNat_true]
      omega
  · have hlt := hunf.mp (by simpa using hone)
    have hrec := hexp.resolve_left (by omega)
    exact ⟨(hfin_eq _ hrec.1).1, Stream.before_stop (Nat.le_of_lt hlt)⟩

/-- Slices of a stream arrive at an empty buffer in any order, with deliveries in between. What the
sinks took is the beginning of the stream up to the next byte to deliver. The next position that the
buffer expects is the first that is not covered, the FIN counting too, and so it is the same for any
two runs that cover the same positions. -/
theorem expects_first_missing (t : Stream) (capacity : Nat) (calls : List Call)
    (ht : t.stop < lastPosition) (hc : ∀ s, Call.insert s ∈ calls → s.SliceOf t) :
    (taken { capacity } calls <+: t.bytes ∧
      (performAll { capacity } calls).delivered =
        firstPosition + (taken { capacity } calls).length + endings { capacity } calls ∧
      endings { capacity } calls ≤ 1 ∧
      (endings { capacity } calls = 1 → t.ended = true ∧ taken { capacity } calls = t.bytes)) ∧
    (∃ p, FirstMissing (Covered { capacity } calls) p ∧
      (∀ q, (performAll { capacity } calls).fin = some q ↔ FinCovered { capacity } calls q) ∧
      (performAll { capacity } calls).expected =
        if (performAll { capacity } calls).fin = some p then p + 1 else p) ∧
    ∀ (capacity' : Nat) (calls' : List Call), (∀ s, Call.insert s ∈ calls' → s.SliceOf t) →
      (∀ q, Covered { capacity := capacity' } calls' q ↔ Covered { capacity } calls q) →
      (∀ q, FinCovered { capacity := capacity' } calls' q ↔ FinCovered { capacity } calls q) →
      (performAll { capacity := capacity' } calls').expected =
        (performAll { capacity } calls).expected := by
  have hnext : t.next ≤ lastPosition := by
    have := t.ended.toNat_le
    unfold Stream.next
    omega
  refine ⟨taken_eq capacity hnext hc, expected_eq capacity hnext hc,
    fun capacity' calls' hc' hcov hfin => ?_⟩
  obtain ⟨p, hp, hrec, heq⟩ := expected_eq capacity hnext hc
  obtain ⟨p', hp', hrec', heq'⟩ := expected_eq capacity' hnext hc'
  rw [funext fun q => propext (hcov q)] at hp'
  obtain rfl := hp'.eq hp
  have hsame : (performAll { capacity := capacity' } calls').fin = some p' ↔
      (performAll { capacity } calls).fin = some p' := by
    rw [hrec, hrec', hfin]
  rw [heq, heq', if_congr hsame rfl rfl]

/-! ### A fragment inside of another one, again -/

/-- The two letters in the middle arrive first. The sink gets all letters in order, and the first
position that no segment covered is the one after them. -/
theorem resequenced_letters :
    letters.stop < lastPosition ∧
      (∀ s, Call.insert s ∈ [.insert middle, .insert whole, taking 6] → s.SliceOf letters) ∧
      taken { capacity := 1440 } [.insert middle, .insert whole, taking 6] = letters.bytes ∧
      FirstMissing (Covered { capacity := 1440 } [.insert middle, .insert whole, taking 6]) 7 := by
  have ht : letters.stop < lastPosition := by decide
  obtain ⟨⟨htaken, -⟩, ⟨p, hp, -, heq⟩, -⟩ :=
    expects_first_missing letters 1440 _ ht (sliceOf_letters 6)
  refine ⟨ht, sliceOf_letters 6, htaken.eq_of_length (by decide +kernel), ?_⟩
  have hfin : (performAll { capacity := 1440 }
      [.insert middle, .insert whole, taking 6]).fin = none := by decide +kernel
  have hexpected : (performAll { capacity := 1440 }
      [.insert middle, .insert whole, taking 6]).expected = 7 := by decide +kernel
  rw [hexpected, hfin, if_neg (by simp)] at heq
  rwa [← heq] at hp

end Reassembly

end ReliableStream
