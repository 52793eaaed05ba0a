import ReliableStream.Proofs.Host.Rest

/-!
# Overlapping sweeps

A second sweep that takes place within a datagram that another one resends finishes the first one's
work: it skips the connection that is in use, finds those before it at rest, and passes over those
behind it, which the first one then finds at rest. Together the two come to what a plain sweep comes
to (`overlap_agrees`).

* `foldl_sweepOne_put`: passes over other connections do not care when a connection sends.
* `foldl_sweepOne_add`: a report counts what comes on top of what was counted before.
* `interruptOne_of_resend`: what becomes of the connection that is in use, and of the others.
-/

namespace ReliableStream

namespace SweepTotals

instance : Add SweepTotals where
  add r q := {
    retransmitted := r.retransmitted + q.retransmitted
    skipped := r.skipped + q.skipped
    tornDown := r.tornDown + q.tornDown }

theorem add_count (r q : SweepTotals) (outcome : TimerOutcome) :
    (r + q).count outcome = r + q.count outcome := by
  cases outcome with
  | retransmitted n =>
    show mk (r.retransmitted + q.retransmitted + n) _ _ =
      mk (r.retransmitted + (q.retransmitted + n)) _ _
    rw [Nat.add_assoc]
    rfl
  | _ => rfl

end SweepTotals

namespace Host

variable {σ : Type} {h : Host σ} {c d : Connection σ} {id : Nat}

/-! ## Two connections -/

theorem put_comm (h : Host σ) (hne : c.id ≠ d.id) : (h.put c).put d = (h.put d).put c := by
  have hconnections : ((h.put c).put d).connections = ((h.put d).put c).connections := by
    unfold put
    simp only [List.map_map]
    refine List.map_congr_left fun e _ => ?_
    simp only [Function.comp_apply]
    by_cases hc : e.id = c.id
    · have hd : e.id ≠ d.id := by rwa [hc]
      rw [if_pos hc, if_neg hne, if_neg hd, if_pos hc]
    · by_cases hd : e.id = d.id
      · rw [if_neg hc, if_pos hd, if_neg hne.symm]
      · rw [if_neg hc, if_neg hd, if_neg hc]
  have hregistered : ((h.put c).put d).registered = ((h.put d).put c).registered := by
    unfold put
    cases c.destroyed <;> cases d.destroyed <;>
      simp only [Bool.false_eq_true, if_true, if_false, List.erase_comm]
  exact Host.ext hconnections hregistered rfl

/-- Only what is put last counts. -/
theorem put_put (h : Host σ) (hid : d.id = c.id) (live : c.destroyed = false) :
    (h.put c).put d = h.put d := by
  have hconnections : ((h.put c).put d).connections = (h.put d).connections := by
    unfold put
    simp only [List.map_map]
    refine List.map_congr_left fun e _ => ?_
    simp only [Function.comp_apply]
    by_cases hc : e.id = c.id
    · rw [if_pos hc, if_pos hid.symm, if_pos (hc.trans hid.symm)]
    · rw [if_neg hc]
  have hregistered : ((h.put c).put d).registered = (h.put d).registered := by
    unfold put
    simp only [live, Bool.false_eq_true, if_false]
  exact Host.ext hconnections hregistered rfl

variable [Endpoint σ] {now : Int} {busy : Nat} {inUse : Option Nat} {r q : SweepTotals}
  {l : List Nat}

/-! ## What does not matter to a pass -/

theorem sweepOne_put (hne : id ≠ d.id) :
    sweepOne now inUse (r, h.put d) id =
      ((sweepOne now inUse (r, h) id).1, (sweepOne now inUse (r, h) id).2.put d) := by
  cases hf : h.find? id with
  | none =>
    rw [sweepOne_of_find?_eq_none hf,
      sweepOne_of_find?_eq_none ((find?_put_of_ne hne).trans hf)]
  | some c =>
    rw [sweepOne_of_find? hf, sweepOne_of_find? ((find?_put_of_ne hne).trans hf)]
    have hid := c.id_timerPass now (inUse == some id)
    rw [(find?_eq_some hf).2] at hid
    exact Prod.ext rfl (put_comm h (by rw [hid]; exact hne.symm))

/-- Passes over other connections do not care when `d` is put. -/
theorem foldl_sweepOne_put (hne : ∀ id ∈ l, id ≠ d.id) (r : SweepTotals) (h : Host σ) :
    l.foldl (sweepOne now inUse) (r, h.put d) =
      ((l.foldl (sweepOne now inUse) (r, h)).1,
        (l.foldl (sweepOne now inUse) (r, h)).2.put d) := by
  induction l generalizing r h with
  | nil => rfl
  | cons id l ih =>
    rw [List.foldl_cons, List.foldl_cons, sweepOne_put (hne id (.head l))]
    exact ih (fun id hid => hne id (.tail _ hid)) _ _

theorem sweepOne_add :
    sweepOne now inUse (r + q, h) id =
      (r + (sweepOne now inUse (q, h) id).1, (sweepOne now inUse (q, h) id).2) := by
  cases hf : h.find? id with
  | none => rw [sweepOne_of_find?_eq_none hf, sweepOne_of_find?_eq_none hf]
  | some c =>
    rw [sweepOne_of_find? hf, sweepOne_of_find? hf]
    exact Prod.ext (SweepTotals.add_count ..) rfl

/-- A report counts what comes on top of what was counted before. -/
theorem foldl_sweepOne_add (r q : SweepTotals) (h : Host σ) :
    l.foldl (sweepOne now inUse) (r + q, h) =
      (r + (l.foldl (sweepOne now inUse) (q, h)).1,
        (l.foldl (sweepOne now inUse) (q, h)).2) := by
  induction l generalizing q h with
  | nil => rfl
  | cons id l ih =>
    rw [List.foldl_cons, List.foldl_cons, sweepOne_add]
    exact ih _ _

/-- It makes no difference that another connection is in use. -/
theorem foldl_sweepOne_of_not_mem (hbusy : busy ∉ l) (s : SweepTotals × Host σ) :
    l.foldl (sweepOne now (some busy)) s = l.foldl (sweepOne now none) s := by
  induction l generalizing s with
  | nil => rfl
  | cons id l ih =>
    rw [List.mem_cons, not_or] at hbusy
    have hone : sweepOne now (some busy) s id = sweepOne now none s id := by
      unfold sweepOne
      rw [show (some busy == some id) = false by simpa using hbusy.1]
      rfl
    rw [List.foldl_cons, List.foldl_cons, hone]
    exact ih hbusy.2 _

/-! ## The connection in use -/

omit [Endpoint σ] in
theorem WellKept.not_mem_of_split {pre post : List Nat} (hh : h.WellKept)
    (hsplit : h.registered = pre ++ busy :: post) : busy ∉ pre ∧ busy ∉ post := by
  have hnodup := hsplit ▸ hh.registered_nodup
  have hnot := (List.nodup_cons.mp (List.nodup_middle.mp hnodup)).1
  rwa [List.mem_append, not_or] at hnot

/-- A connection that is in use is left alone. -/
theorem WellKept.sweepOne_inUse (hh : h.WellKept) (hf : h.find? busy = some c)
    (live : c.destroyed = false) (hlinger : c.hasLingered now = false) :
    sweepOne now (some busy) (r, h) busy = (r.count .skipped, h) := by
  have hself : h.put c = h := hh.put_self (by rwa [(find?_eq_some hf).2])
  rw [sweepOne_of_find? hf, beq_self_eq_true, Connection.timerPass_of_busy live hlinger]
  exact Prod.ext rfl hself

/-- A sweep over connections at rest, then one in use, then others that are passed over. -/
theorem WellKept.foldl_inUse {pre post : List Nat} (hh : h.WellKept)
    (hrest : ∀ id ∈ pre, h.RestsAt now id) (hpre : busy ∉ pre) (hpost : busy ∉ post)
    (hf : h.find? busy = some c) (live : c.destroyed = false)
    (hlinger : c.hasLingered now = false) :
    (pre ++ busy :: post).foldl (sweepOne now (some busy)) ({}, h) =
      (({ skipped := 1 } : SweepTotals) + (post.foldl (sweepOne now none) ({}, h)).1,
        (post.foldl (sweepOne now none) ({}, h)).2) := by
  have hfree : ∀ id ∈ pre, some busy ≠ some id := by
    rintro id hid heq
    exact hpre (Option.some.inj heq ▸ hid)
  rw [List.foldl_append, foldl_sweepOne_of_restsAt hh hrest hfree, List.foldl_cons,
    hh.sweepOne_inUse hf live hlinger, foldl_sweepOne_of_not_mem hpost]
  exact foldl_sweepOne_add { skipped := 1 } {} h

/-- When the connection in use resends something, the inner sweep does for the connections behind it
what the outer one would do once all is sent. -/
theorem WellKept.interruptOne_of_resend {pre post : List Nat} {wires : List Bytes}
    (hh : h.WellKept) (hregistered : h.registered = pre ++ busy :: post)
    (hrest : ∀ id ∈ pre, h.RestsAt now id) (hf : h.find? busy = some c)
    (haction : c.timerAction now false = (.resend wires, c.restamped now))
    (live : c.destroyed = false) (hlinger : c.hasLingered now = false) (r : SweepTotals) :
    let rest := post.foldl (sweepOne now none) ({}, h.put ((c.restamped now).sendAll wires))
    interruptOne now { outer := r, host := h } busy = {
      outer := r.count (.retransmitted wires.length)
      inner := some ({ skipped := 1 } + rest.1)
      host := rest.2 } := by
  obtain ⟨hpre, hpost⟩ := hh.not_mem_of_split hregistered
  obtain ⟨-, hid⟩ := find?_eq_some hf
  subst hid
  let stamped : Host σ := h.put (c.restamped now)
  have hkept : stamped.WellKept := hh.put (d := c.restamped now) hf fun _ => live
  have hfound : stamped.find? c.id = some (c.restamped now) :=
    find?_put_self (d := c.restamped now) hf
  have hpre_rest : ∀ id ∈ pre, stamped.RestsAt now id := by
    intro id hmem e he
    have hne : id ≠ (c.restamped now).id := fun heq => hpre (heq ▸ hmem)
    rw [find?_put_of_ne hne] at he
    exact hrest id hmem e he
  have hinner : stamped.sweep now (some c.id) =
      (({ skipped := 1 } : SweepTotals) + (post.foldl (sweepOne now none) ({}, stamped)).1,
        (post.foldl (sweepOne now none) ({}, stamped)).2) := by
    have hsame : stamped.registered = pre ++ c.id :: post := by
      rw [← hregistered]
      show (if c.destroyed then h.registered.erase c.id else h.registered) = h.registered
      rw [if_neg (by simp [live])]
    unfold sweep
    rw [hsame]
    exact hkept.foldl_inUse hpre_rest hpre hpost hfound live hlinger
  have hothers : (post.foldl (sweepOne now none) ({}, stamped)).2.find? c.id =
      some (c.restamped now) :=
    ((swept_foldl (s := ({}, stamped)) hkept now post).others c.id hpost).trans hfound
  -- to send before the others are passed over comes to the same as to send afterwards
  have hrest_eq : post.foldl (sweepOne now none) ({}, h.put ((c.restamped now).sendAll wires)) =
      ((post.foldl (sweepOne now none) ({}, stamped)).1,
        (post.foldl (sweepOne now none) ({}, stamped)).2.put
          ((c.restamped now).sendAll wires)) := by
    rw [← put_put (c := c.restamped now) (d := (c.restamped now).sendAll wires) h rfl live]
    exact foldl_sweepOne_put (d := (c.restamped now).sendAll wires)
      (fun id hmem heq => hpost (heq ▸ hmem)) {} stamped
  rw [hrest_eq]
  unfold interruptOne
  simp only [hf, haction]
  rw [show (h.put (c.restamped now)).sweep now (some c.id) = _ from hinner]
  simp only [hothers]

/-! ## The two sweeps -/

/-- The outer sweep's pass over a connection. -/
def passAround (now : Int) (busy : Nat) (s : Interrupted σ) (id : Nat) : Interrupted σ :=
  if id = busy then interruptOne now s id
  else
    let (outer, host) := sweepOne now none (s.outer, s.host) id
    { s with outer, host }

theorem sweepAround_eq (h : Host σ) (now : Int) (busy : Nat) :
    h.sweepAround now busy = h.registered.foldl (passAround now busy) { host := h } := rfl

/-- Over the other connections it is a plain sweep. -/
theorem foldl_passAround (hbusy : busy ∉ l) (s : Interrupted σ) :
    l.foldl (passAround now busy) s = { s with
      outer := (l.foldl (sweepOne now none) (s.outer, s.host)).1
      host := (l.foldl (sweepOne now none) (s.outer, s.host)).2 } := by
  induction l generalizing s with
  | nil => rfl
  | cons id l ih =>
    rw [List.mem_cons, not_or] at hbusy
    rw [List.foldl_cons, List.foldl_cons, ih hbusy.2, passAround, if_neg (Ne.symm hbusy.1)]

/-- If nothing is resent, the pass is a plain one. -/
theorem interruptOne_of_done {outcome : TimerOutcome} {s : Interrupted σ}
    (hf : s.host.find? busy = some c) (haction : c.timerAction now false = (.done outcome, d)) :
    interruptOne now s busy = { s with
      outer := (sweepOne now none (s.outer, s.host) busy).1
      host := (sweepOne now none (s.outer, s.host) busy).2 } := by
  have hpass : c.timerPass now false = (outcome, d) := by
    unfold Connection.timerPass
    rw [haction]
  rw [sweepOne_of_find? hf, show (none == some busy) = false from rfl, hpass]
  unfold interruptOne
  simp only [hf, haction]

/-- If something is resent, the outer sweep finds the connections behind it at rest, and what the
inner one has counted there is what a plain one counts. -/
theorem WellKept.foldl_passAround_of_resend {pre post : List Nat} {wires : List Bytes}
    (hh : h.WellKept) (hregistered : h.registered = pre ++ busy :: post)
    (hrest : ∀ id ∈ pre, h.RestsAt now id) (hf : h.find? busy = some c)
    (haction : c.timerAction now false = (.resend wires, c.restamped now))
    (live : c.destroyed = false) (hlinger : c.hasLingered now = false) (r : SweepTotals) :
    let outer := r.count (.retransmitted wires.length)
    ∃ others : SweepTotals × Host σ,
      post.foldl (passAround now busy) (interruptOne now { outer := r, host := h } busy) =
        { outer, inner := some ({ skipped := 1 } + others.1), host := others.2 } ∧
      post.foldl (sweepOne now none) (sweepOne now none (r, h) busy) =
        (outer + others.1, others.2) := by
  let sent : Host σ := h.put ((c.restamped now).sendAll wires)
  have hpost := (hh.not_mem_of_split hregistered).2
  have hkept : sent.WellKept :=
    hh.put (d := (c.restamped now).sendAll wires) (by rwa [← (find?_eq_some hf).2] at hf)
      fun _ => live
  have hbehind : Swept now post ({}, sent) (post.foldl (sweepOne now none) ({}, sent)) :=
    swept_foldl (s := ({}, sent)) hkept now post
  have hpass : c.timerPass now false =
      (.retransmitted wires.length, (c.restamped now).sendAll wires) := by
    unfold Connection.timerPass
    rw [haction]
  refine ⟨post.foldl (sweepOne now none) ({}, sent), ?_, ?_⟩
  · rw [hh.interruptOne_of_resend hregistered hrest hf haction live hlinger r,
      foldl_passAround hpost, foldl_sweepOne_of_restsAt hbehind.kept hbehind.rests (by simp)]
  · rw [sweepOne_of_find? hf, show (none == some busy) = false from rfl, hpass]
    exact foldl_sweepOne_add (r.count (.retransmitted wires.length)) {} sent

/-- Either the connection resends nothing and there is one sweep, a plain one; or the two come to
what a plain one comes to. -/
theorem WellKept.sweepAround_cases (hh : h.WellKept) (now : Int) (busy : Nat) :
    let plain := h.sweep now none
    (h.sweepAround now busy = { outer := plain.1, host := plain.2 } ∧
        ∀ c, h.find? busy = some c → (c.timerPass now false).1.hasResent = false) ∨
      ∃ outer others, h.sweepAround now busy = {
          outer
          inner := some ({ skipped := 1 } + others)
          host := plain.2 } ∧
        plain.1 = outer + others ∧
        ∃ c, h.find? busy = some c ∧ (c.timerPass now false).1.hasResent = true := by
  intro plain
  by_cases hmem : busy ∈ h.registered
  · obtain ⟨pre, post, hsplit⟩ := List.append_of_mem hmem
    obtain ⟨hpre, hpost⟩ := hh.not_mem_of_split hsplit
    obtain ⟨c, hc, rfl, live⟩ := (hh.registered busy).mp hmem
    have hf := hh.find?_eq hc
    have hplain : plain = post.foldl (sweepOne now none)
        (sweepOne now none (pre.foldl (sweepOne now none) ({}, h)) c.id) := by
      show h.registered.foldl (sweepOne now none) ({}, h) = _
      rw [hsplit, List.foldl_append, List.foldl_cons]
    have haround : h.sweepAround now c.id = post.foldl (passAround now c.id)
        (interruptOne now {
          outer := (pre.foldl (sweepOne now none) ({}, h)).1
          host := (pre.foldl (sweepOne now none) ({}, h)).2 } c.id) := by
      rw [sweepAround_eq, hsplit, List.foldl_append, List.foldl_cons, foldl_passAround hpre,
        passAround, if_pos rfl]
    have hswept : Swept now pre ({}, h) (pre.foldl (sweepOne now none) ({}, h)) :=
      swept_foldl (s := ({}, h)) hh now pre
    generalize pre.foldl (sweepOne now none) ({}, h) = s at hplain haround hswept
    obtain ⟨r, h₁⟩ := s
    have hf₁ : h₁.find? c.id = some c := (hswept.others c.id hpre).trans hf
    rcases c.timerAction_split now with
      ⟨outcome, d, haction, hresent⟩ | ⟨wires, haction, -, hlinger⟩
    · refine .inl ⟨?_, fun e he => ?_⟩
      · rw [haround, hplain, interruptOne_of_done hf₁ haction, foldl_passAround hpost]
      · rw [← Option.some.inj (hf.symm.trans he), Connection.timerPass, haction]
        exact hresent
    · -- what is still registered of the connections before it is at rest
      obtain ⟨others, hboth, htotal⟩ :=
        hswept.kept.foldl_passAround_of_resend (hswept.registered_split hh hsplit)
          (fun id hid => hswept.rests id (List.mem_filter.mp hid).1) hf₁ haction live hlinger r
      rw [haround, hplain]
      refine .inr ⟨_, others.1, hboth.trans ?_, congrArg Prod.fst htotal, c, hf, ?_⟩
      · rw [htotal]
      · rw [Connection.timerPass, haction]
        rfl
  · refine .inl ⟨?_, fun c hf => ?_⟩
    · rw [sweepAround_eq, foldl_passAround hmem]
      rfl
    · obtain ⟨hc, rfl⟩ := find?_eq_some hf
      cases hd : c.destroyed with
      | true =>
        rw [show c.timerPass now false = (.idle, c) from Connection.atRest_of_destroyed hd now]
        rfl
      | false => exact absurd ((hh.registered c.id).mpr ⟨c, hc, rfl, hd⟩) hmem

/-- Whichever connection it is within whose first datagram the second sweep takes place, the
connections and their endpoints end up as after one plain sweep, and the two reports add up to its
report. The second sweep does take place if that connection resends something, and leaves that one
connection alone. -/
theorem overlap_agrees {h : Host (Monitored σ)} (hpast : Events {} h) (now : Int) (busy : Nat) :
    let both := h.sweepAround now busy
    let plain := h.sweep now none
    let inner := both.inner.getD {}
    both.host = plain.2 ∧
      both.outer.retransmitted + inner.retransmitted = plain.1.retransmitted ∧
      both.outer.tornDown + inner.tornDown = plain.1.tornDown ∧
      both.outer.skipped = 0 ∧ (∀ report, both.inner = some report → report.skipped = 1) ∧
      (both.inner.isSome = true ↔
        ∃ c, h.find? busy = some c ∧ (c.timerPass now false).1.hasResent = true) := by
  have hkept := hpast.disciplined.kept
  have hskipped : (h.sweep now none).1.skipped = 0 :=
    (swept_foldl (s := ({}, h)) hkept now h.registered).skipped
  intro both plain inner
  rcases hkept.sweepAround_cases now busy with
    ⟨heq, hnone⟩ | ⟨outer, others, heq, htotal, hresent⟩
  · have hboth : both = { outer := plain.1, host := plain.2 } := heq
    have hinner : inner = {} := congrArg (·.inner.getD {}) hboth
    rw [hinner, hboth]
    refine ⟨rfl, rfl, rfl, hskipped, by simp, by simp, ?_⟩
    rintro ⟨c, hf, hresent⟩
    rw [hnone c hf] at hresent
    cases hresent
  · have hboth : both = { outer, inner := some ({ skipped := 1 } + others), host := plain.2 } := heq
    have hinner : inner = { skipped := 1 } + others := congrArg (·.inner.getD {}) hboth
    have htotal : plain.1 = outer + others := htotal
    have hzero : outer.skipped + others.skipped = 0 :=
      (congrArg SweepTotals.skipped htotal).symm.trans hskipped
    rw [hinner, hboth, htotal]
    refine ⟨rfl, ?_, ?_, Nat.eq_zero_of_add_eq_zero_right hzero, ?_, fun _ => hresent, fun _ => rfl⟩
    · show outer.retransmitted + (0 + others.retransmitted) = _
      rw [Nat.zero_add]
      rfl
    · show outer.tornDown + (0 + others.tornDown) = _
      rw [Nat.zero_add]
      rfl
    · rintro _ ⟨⟩
      show 1 + others.skipped = 1
      omega

/-! ### A sweep within the first letter

The second sweep gives the second connection up and resends the third one's letter. The outer one
is left with the letter it was about to send. -/

theorem unanswered_overlap :
    Events {} unanswered ∧
      (unanswered.sweepAround 1000000000 1).outer = { retransmitted := 1 } ∧
      (unanswered.sweepAround 1000000000 1).inner =
        some { retransmitted := 1, skipped := 1, tornDown := 1 } ∧
      (unanswered.sweepAround 1000000000 1).host = (unanswered.sweep 1000000000 none).2 :=
  ⟨events_unanswered, by decide +kernel, by decide +kernel,
    (overlap_agrees events_unanswered 1000000000 1).1⟩

end Host

end ReliableStream
