import ReliableStream.Proofs.Receiving.Fragment
import ReliableStream.Proofs.Stream
import ReliableStream.Receiving.Delivery

/-!
# What a sink gets

* `Drained.Spec`, `drain_spec`: where `drain` stops and what it leaves. Either the next fragment
  lies behind a gap, or the sink left a part of one, which is stored under its new position only
  if no other fragment has that position.
* `drain_rule`: what holds of a sink before it is offered fragments of a stream, and is kept by each
  offer, holds of it afterwards.
* `drain_eq_of_lt`: nothing is offered before the position of the first fragment.
-/

namespace ReliableStream

variable {σ : Type} {take : σ → Bytes → Nat × σ} {pending : Queue Fragment} {position : Nat} {s : σ}

theorem drain_of_none (h : pending.popIf? (·.start ≤ position) = none) :
    drain take pending position s = ⟨pending, position, false, s⟩ := by
  unfold drain
  split
  · rfl
  next hsome =>
    rw [h] at hsome
    cases hsome

theorem drain_of_some {f : Fragment} {rest : Queue Fragment}
    (h : pending.popIf? (·.start ≤ position) = some (f, rest)) :
    drain take pending position s =
      let offered := f.bytes.drop (position - f.start)
      if offered.isEmpty then drain take rest position s
      else
        let (answer, s) := take s offered
        let taken := min answer offered.length
        if taken < offered.length then
          let left : Fragment := ⟨position + taken, offered.drop taken⟩
          ⟨left.putIfAbsent rest, position + taken, true, s⟩
        else drain take rest (position + taken) s := by
  conv_lhs => unfold drain
  split
  next hnone =>
    rw [h] at hnone
    cases hnone
  next hsome =>
    rw [h] at hsome
    obtain ⟨rfl, rfl⟩ := Prod.mk.inj (Option.some.inj hsome)
    rfl

/-- What `d` is when the fragments `pending` were offered from `position` on. -/
structure Drained.Spec (pending : List Fragment) (position : Nat) (d : Drained σ) : Prop where
  le : position ≤ d.position
  /-- The sink got what is in the fragments. -/
  covered : ∀ p, position ≤ p → p < d.position → ∃ f ∈ pending, f.Covers p
  /-- The sink took all it was offered, and the next fragment lies behind a gap. -/
  unblocked : d.blocked = false →
    d.pending.toList = pending.dropWhile (·.stop ≤ d.position) ∧
      ∀ f ∈ d.pending.toList.head?, d.position < f.start
  /-- The sink left a part of the first fragment that reaches beyond what it took. -/
  blocked : d.blocked = true → ∃ f rest, pending.dropWhile (·.stop ≤ d.position) = f :: rest ∧
    f.Covers d.position ∧ d.pending.toList = (f.leftAt d.position).putIntoIfAbsent rest

/-- A fragment that is used up does not matter for what comes after it. -/
theorem Drained.Spec.cons {d : Drained σ} {f : Fragment} {rest : List Fragment} {next : Nat}
    (h : d.Spec rest next) (hf : f.start ≤ position) (hp : position ≤ next) (hs : f.stop ≤ next)
    (hn : next ≤ max position f.stop) : d.Spec (f :: rest) position := by
  have hle := h.le
  have hdrop : (f :: rest).dropWhile (·.stop ≤ d.position) =
      rest.dropWhile (·.stop ≤ d.position) :=
    List.dropWhile_cons_of_pos (by simp only [decide_eq_true_eq]; omega)
  refine ⟨by omega, fun p hp₁ hp₂ => ?_, by rw [hdrop]; exact h.unblocked,
    by rw [hdrop]; exact h.blocked⟩
  by_cases hpn : p < next
  · exact ⟨f, .head rest, by omega, by omega⟩
  · obtain ⟨g, hg, hgp⟩ := h.covered p (by omega) hp₂
    exact ⟨g, .tail f hg, hgp⟩

/-- The sink gets nothing from beyond the fragments. -/
theorem Drained.Spec.position_le {d : Drained σ} {fragments : List Fragment} {e : Nat}
    (h : d.Spec fragments position) (he : position ≤ e) (hf : ∀ f ∈ fragments, f.stop ≤ e) :
    d.position ≤ e := by
  have hle := h.le
  by_cases heq : d.position = position
  · omega
  · obtain ⟨f, hmem, hp⟩ := h.covered (d.position - 1) (by omega) (by omega)
    have := hf f hmem
    have := hp.2
    omega

theorem drain_spec (take : σ → Bytes → Nat × σ) (pending : Queue Fragment) (position : Nat)
    (s : σ) : (drain take pending position s).Spec pending.toList position := by
  fun_induction drain take pending position s with
  | case1 pending position s hnone =>
    have hhead := Queue.popIf?_eq_none_iff.mp hnone
    refine ⟨Nat.le_refl _, fun p hp₁ hp₂ => absurd hp₂ (Nat.not_lt.mpr hp₁), fun _ => ?_, by simp⟩
    cases hq : pending.toList with
    | nil => simp
    | cons f rest =>
      rw [hq] at hhead
      have hlt : position < f.start := by simpa using hhead
      have := f.start_le_stop
      refine ⟨by rw [List.dropWhile_cons_of_neg (by simp only [decide_eq_true_eq]; omega)], ?_⟩
      simpa using hlt
  | case2 pending position s f rest hpop offered hempty ih =>
    obtain ⟨hf, hq⟩ := Queue.popIf?_eq_some hpop
    have hlen : offered.length = 0 := by simpa using hempty
    simp only [offered, List.length_drop] at hlen
    have hstop : f.stop = f.start + f.bytes.length := rfl
    simp only [decide_eq_true_eq] at hf
    rw [hq]
    exact ih.cons hf (Nat.le_refl _) (by omega) (Nat.le_max_left _ _)
  | case3 pending position s f rest hpop offered hne answer s' _ taken htaken left =>
    obtain ⟨hf, hq⟩ := Queue.popIf?_eq_some hpop
    have hlen : offered.length = f.bytes.length - (position - f.start) := List.length_drop
    have hstop : f.stop = f.start + f.bytes.length := rfl
    simp only [decide_eq_true_eq] at hf
    have hleft : left = f.leftAt (position + taken) := by
      simp only [left, Fragment.leftAt, offered, List.drop_drop]
      congr 2
      omega
    refine ⟨by simp, fun p hp₁ hp₂ => ?_, by simp, fun _ => ?_⟩
    · simp only at hp₂
      exact ⟨f, by simp [hq], by omega, by omega⟩
    · refine ⟨f, rest.toList, ?_, ⟨by simp only; omega, by simp only; omega⟩, ?_⟩
      · rw [hq, List.dropWhile_cons_of_neg (by simp only [decide_eq_true_eq]; omega)]
      · rw [Fragment.toList_putIfAbsent, hleft]
  | case4 pending position s f rest hpop offered hne answer s' _ taken htaken ih =>
    obtain ⟨hf, hq⟩ := Queue.popIf?_eq_some hpop
    have hlen : offered.length = f.bytes.length - (position - f.start) := List.length_drop
    have hstop : f.stop = f.start + f.bytes.length := rfl
    simp only [decide_eq_true_eq] at hf
    rw [hq]
    exact ih.cons hf (by omega) (by omega) (by omega)

/-- What each offer of a piece of the stream `t` keeps, all the offers keep. -/
theorem drain_rule {t : Stream} {P : Nat → σ → Prop}
    (hP : ∀ p offered s, offered ≠ [] → t.HoldsAt p offered → P p s →
      P (p + min (take s offered).1 offered.length) (take s offered).2)
    (hf : ∀ f ∈ pending.toList, t.HoldsAt f.start f.bytes) (h : P position s) :
    P (drain take pending position s).position (drain take pending position s).sink := by
  fun_induction drain take pending position s with
  | case1 => exact h
  | case2 pending position s f rest hpop offered hempty ih =>
    obtain ⟨-, hq⟩ := Queue.popIf?_eq_some hpop
    exact ih (fun g hg => hf g (by rw [hq]; exact .tail f hg)) h
  | case3 pending position s f rest hpop offered hne answer s' hs taken htaken left =>
    obtain ⟨hstart, hq⟩ := Queue.popIf?_eq_some hpop
    simp only [decide_eq_true_eq] at hstart
    have hoff := (hf f (by simp [hq])).drop (position - f.start)
    rw [show f.start + (position - f.start) = position by omega] at hoff
    have := hP position offered s (by simpa using hne) hoff h
    rwa [hs] at this
  | case4 pending position s f rest hpop offered hne answer s' hs taken htaken ih =>
    obtain ⟨hstart, hq⟩ := Queue.popIf?_eq_some hpop
    simp only [decide_eq_true_eq] at hstart
    have hoff := (hf f (by simp [hq])).drop (position - f.start)
    rw [show f.start + (position - f.start) = position by omega] at hoff
    have hstep := hP position offered s (by simpa using hne) hoff h
    rw [hs] at hstep
    exact ih (fun g hg => hf g (by rw [hq]; exact .tail f hg)) hstep

/-- What each offer keeps of the sink, all the offers keep. -/
theorem drain_keeps {P : σ → Prop} (hP : ∀ s b, P s → P (take s b).2) (h : P s) :
    P (drain take pending position s).sink := by
  fun_induction drain take pending position s with
  | case1 => exact h
  | case2 _ _ _ _ _ _ _ _ ih => exact ih h
  | case3 pending position s f rest hpop offered hne answer s' hs =>
    have := hP s offered h
    rwa [hs] at this
  | case4 pending position s f rest hpop offered hne answer s' hs taken htaken ih =>
    have := hP s offered h
    rw [hs] at this
    exact ih this

theorem drain_eq_of_lt (h : ∀ f ∈ pending.toList, position < f.start) :
    drain take pending position s = ⟨pending, position, false, s⟩ := by
  refine drain_of_none (Queue.popIf?_eq_none_iff.mpr fun f hf => ?_)
  have := h f (List.mem_of_mem_head? hf)
  simp only [decide_eq_false_iff_not]
  omega

/-- A sink that takes all it is offered is not blocked. -/
theorem drain_blocked_eq_false (h : ∀ s b, b.length ≤ (take s b).1) :
    (drain take pending position s).blocked = false := by
  fun_induction drain take pending position s with
  | case1 => rfl
  | case2 _ _ _ _ _ _ _ _ ih => exact ih
  | case3 pending position s f rest hpop offered hne answer s' hs taken htaken =>
    have := h s offered
    rw [hs] at this
    omega
  | case4 _ _ _ _ _ _ _ _ _ _ _ _ _ ih => exact ih

end ReliableStream
