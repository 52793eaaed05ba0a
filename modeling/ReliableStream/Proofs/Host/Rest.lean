import Mathlib.Algebra.Ring.Nat
import ReliableStream.Proofs.Connection.Rest
import ReliableStream.Proofs.Host.Lifecycle

/-!
# What a sweep leaves

A sweep passes over the connections that were registered when it began, one after another, and each
of them is at rest afterwards. So a second sweep at the same instant has nothing to do
(`sweep_settles`).

* `Swept`: what is true when a sweep has passed over some connections. Each pass adds its own
  connection to these (`swept_sweepOne`), and a connection stays at rest while the sweep goes on.
* `sends_foldl_sweepOne`: what the report counts as resent was sent.
* `foldl_sweepOne_of_restsAt`: a sweep over connections at rest changes nothing.
-/

namespace ReliableStream

namespace SweepTotals

variable {r : SweepTotals} {outcome : TimerOutcome}

theorem retransmitted_count (r : SweepTotals) (outcome : TimerOutcome) :
    (r.count outcome).retransmitted = r.retransmitted + outcome.resent := by
  cases outcome <;> rfl

theorem tornDown_count (r : SweepTotals) (outcome : TimerOutcome) :
    (r.count outcome).tornDown = r.tornDown + outcome.tearsDown.toNat := by
  cases outcome <;> rfl

theorem skipped_count (h : outcome ≠ .skipped) : (r.count outcome).skipped = r.skipped := by
  cases outcome <;> first | rfl | exact absurd rfl h

end SweepTotals

namespace Host

variable {σ : Type} {h : Host σ} {c d : Connection σ} {id : Nat}

/-! ## The table -/

attribute [ext] Host

/-- One connection makes room for another, and the others stay where they are. -/
theorem WellKept.connections_put (hh : h.WellKept) (hf : h.find? d.id = some c) :
    ∃ pre post, h.connections = pre ++ c :: post ∧
      (h.put d).connections = pre ++ d :: post := by
  obtain ⟨hc, hid⟩ := find?_eq_some hf
  obtain ⟨pre, post, hsplit⟩ := List.append_of_mem hc
  have hnodup := hh.nodup
  rw [hsplit, List.map_append, List.map_cons, List.nodup_middle, List.nodup_cons,
    List.mem_append, not_or] at hnodup
  obtain ⟨⟨hpre, hpost⟩, -⟩ := hnodup
  have hkeep : ∀ l : List (Connection σ), c.id ∉ l.map (·.id) →
      (l.map fun e => if e.id = d.id then d else e) = l := by
    intro l hl
    refine (List.map_congr_left fun e he => ?_).trans l.map_id
    have hne : e.id ≠ c.id := fun heq => hl (heq ▸ List.mem_map_of_mem he)
    rw [← hid, if_neg hne]
    rfl
  refine ⟨pre, post, hsplit, ?_⟩
  unfold Host.put
  simp only
  rw [hsplit, List.map_append, List.map_cons, if_pos hid, hkeep pre hpre, hkeep post hpost]

/-- A connection that is put where it was changes nothing. -/
theorem WellKept.put_self (hh : h.WellKept) (hf : h.find? c.id = some c) : h.put c = h := by
  obtain ⟨pre, post, hsplit, hput⟩ := hh.connections_put hf
  have hregistered : (h.put c).registered = h.registered := by
    show (if c.destroyed then h.registered.erase c.id else h.registered) = h.registered
    split
    next hd =>
      refine List.erase_of_not_mem fun hmem => ?_
      obtain ⟨e, he, hid, live⟩ := (hh.registered c.id).mp hmem
      rw [← hid, hh.find?_eq he] at hf
      rw [Option.some.inj hf, hd] at live
      cases live
    next => rfl
  exact Host.ext (by rw [hput, hsplit]) hregistered rfl

/-- When a connection comes to its end, it leaves the table, and no other one does. -/
theorem WellKept.registered_put (hh : h.WellKept) (hf : h.find? c.id = some c)
    (hid : d.id = c.id) {ends : Bool} (hlive : ends = true → c.destroyed = false)
    (hd : d.destroyed = (c.destroyed || ends)) :
    (h.put d).registered.Sublist h.registered ∧
      (h.put d).registered.length + ends.toNat = h.registered.length := by
  have hregistered : (h.put d).registered =
      if d.destroyed then h.registered.erase c.id else h.registered := by rw [← hid]; rfl
  rw [hregistered]
  cases ends with
  | true =>
    have hmem : c.id ∈ h.registered :=
      (hh.registered c.id).mpr ⟨c, (find?_eq_some hf).1, rfl, hlive rfl⟩
    have hpos := List.length_pos_of_mem hmem
    rw [hd, Bool.or_true, if_pos rfl, List.length_erase_of_mem hmem, Bool.toNat_true]
    exact ⟨List.erase_sublist, by omega⟩
  | false =>
    have hself : (if c.destroyed then h.registered.erase c.id else h.registered) =
        h.registered := congrArg (·.registered) (hh.put_self hf)
    rw [hd, Bool.or_false, hself]
    exact ⟨.refl _, rfl⟩

/-- A registered connection is there. -/
theorem WellKept.live (hh : h.WellKept) (hc : c ∈ h.connections)
    (hregistered : c.id ∈ h.registered) : c.destroyed = false := by
  obtain ⟨d, hd, hid, live⟩ := (hh.registered c.id).mp hregistered
  rw [← List.inj_on_of_nodup_map hh.nodup hd hc hid]
  exact live

variable [Endpoint σ] {now : Int} {busy : Option Nat} {r : SweepTotals}
  {s s' s'' : SweepTotals × Host σ} {l : List Nat}

theorem WellKept.timerPass (hh : h.WellKept) (hf : h.find? id = some c) (now : Int)
    (busy : Bool) : (h.put (c.timerPass now busy).2).WellKept := by
  have hid : (c.timerPass now busy).2.id = id :=
    (c.id_timerPass now busy).trans (find?_eq_some hf).2
  refine hh.put (by rwa [hid]) fun live => ?_
  rw [(c.destroyed_timerPass now busy).2, Bool.or_eq_false_iff] at live
  exact live.1

/-! ## One pass -/

theorem sweepOne_of_find? (hf : h.find? id = some c) :
    sweepOne now busy (r, h) id =
      (r.count (c.timerPass now (busy == some id)).1,
        h.put (c.timerPass now (busy == some id)).2) := by
  unfold sweepOne update
  simp only [hf, Option.map_some]

theorem sweepOne_of_find?_eq_none (hf : h.find? id = none) :
    sweepOne now busy (r, h) id = (r, h) := by
  unfold sweepOne update
  simp only [hf, Option.map_none]

/-- The connection is at rest, if there is one. -/
def RestsAt (now : Int) (id : Nat) (h : Host σ) : Prop :=
  ∀ c, h.find? id = some c → c.AtRest now

theorem sweepOne_of_restsAt (hh : h.WellKept) (hrest : h.RestsAt now id) (hfree : busy ≠ some id) :
    sweepOne now busy (r, h) id = (r, h) := by
  cases hf : h.find? id with
  | none => exact sweepOne_of_find?_eq_none hf
  | some c =>
    have hidle : c.timerPass now false = (.idle, c) := hrest c hf
    have hself : h.put c = h := hh.put_self (by rwa [(find?_eq_some hf).2])
    rw [sweepOne_of_find? hf, beq_eq_false_iff_ne.mpr hfree, hidle]
    exact Prod.ext rfl hself

/-- Nothing is done about connections at rest. -/
theorem foldl_sweepOne_of_restsAt (hh : h.WellKept) (hrest : ∀ id ∈ l, h.RestsAt now id)
    (hfree : ∀ id ∈ l, busy ≠ some id) : l.foldl (sweepOne now busy) (r, h) = (r, h) := by
  induction l with
  | nil => rfl
  | cons id l ih =>
    rw [List.foldl_cons,
      sweepOne_of_restsAt hh (hrest id (.head l)) (hfree id (.head l))]
    exact ih (fun id hid => hrest id (.tail _ hid)) fun id hid => hfree id (.tail _ hid)

/-! ## One pass after another -/

/-- A sweep has come from `s` to `s'` by passes over the connections `l`. -/
structure Swept (now : Int) (l : List Nat) (s s' : SweepTotals × Host σ) : Prop where
  kept : s'.2.WellKept
  others : ∀ id ∉ l, s'.2.find? id = s.2.find? id
  rests : ∀ id ∈ l, s'.2.RestsAt now id
  registered : s'.2.registered.Sublist s.2.registered
  tornDown : s'.1.tornDown + s'.2.registered.length = s.1.tornDown + s.2.registered.length
  skipped : s'.1.skipped = s.1.skipped

theorem Swept.trans {m : List Nat} (hfirst : Swept now l s s') (hnext : Swept now m s' s'') :
    Swept now (l ++ m) s s'' where
  kept := hnext.kept
  others id hid := by
    rw [List.mem_append, not_or] at hid
    rw [hnext.others id hid.2, hfirst.others id hid.1]
  rests id hid := by
    by_cases hm : id ∈ m
    · exact hnext.rests id hm
    · intro c hf
      rw [hnext.others id hm] at hf
      exact hfirst.rests id ((List.mem_append.mp hid).resolve_right hm) c hf
  registered := hnext.registered.trans hfirst.registered
  tornDown := hnext.tornDown.trans hfirst.tornDown
  skipped := hnext.skipped.trans hfirst.skipped

/-- The connection that is passed over is at rest, and no longer registered if it is torn down. -/
theorem swept_sweepOne (hh : s.2.WellKept) (now : Int) (id : Nat) :
    Swept now [id] s (sweepOne now none s id) := by
  obtain ⟨r, h⟩ := s
  replace hh : h.WellKept := hh
  cases hf : h.find? id with
  | none =>
    rw [sweepOne_of_find?_eq_none hf]
    refine ⟨hh, fun _ _ => rfl, fun other hother c hfound => ?_, .refl _, rfl, rfl⟩
    obtain rfl := List.mem_singleton.mp hother
    rw [hf] at hfound
    cases hfound
  | some c =>
    have hkept : (h.put (c.timerPass now false).2).WellKept := hh.timerPass hf now false
    rw [sweepOne_of_find? hf]
    show Swept now [id] (r, h)
      (r.count (c.timerPass now false).1, h.put (c.timerPass now false).2)
    obtain ⟨hc, rfl⟩ := find?_eq_some hf
    have hid := c.id_timerPass now false
    have hrest := c.atRest_timerPass now
    obtain ⟨htears, hdestroyed⟩ := c.destroyed_timerPass now false
    have hskip := c.timerPass_ne_skipped now
    generalize (c.timerPass now false).1 = outcome at htears hdestroyed hskip ⊢
    generalize (c.timerPass now false).2 = d at hkept hid hrest hdestroyed ⊢
    obtain ⟨hsub, hlength⟩ := hh.registered_put hf hid htears hdestroyed
    refine ⟨hkept, fun other hother => ?_, fun other hother e hfound => ?_, hsub, ?_,
      SweepTotals.skipped_count hskip⟩
    · exact find?_put_of_ne (by rw [hid]; exact fun heq => hother (List.mem_singleton.mpr heq))
    · obtain rfl := List.mem_singleton.mp hother
      have hself := find?_put_self (h := h) (d := d) (c := c) (by rwa [hid])
      rw [hid] at hself
      rw [hself] at hfound
      rwa [← Option.some.inj hfound]
    · simp only [SweepTotals.tornDown_count]
      omega

theorem swept_foldl (hh : s.2.WellKept) (now : Int) (l : List Nat) :
    Swept now l s (l.foldl (sweepOne now none) s) := by
  induction l generalizing s with
  | nil => exact ⟨hh, fun _ _ => rfl, by simp, .refl _, rfl, rfl⟩
  | cons id l ih =>
    have hone := swept_sweepOne hh now id
    exact hone.trans (ih hone.kept)

/-- The table is what it was, less what has left it. -/
theorem Swept.registered_eq (h : Swept now l s s') (hnodup : s.2.registered.Nodup) :
    s.2.registered.filter (s'.2.isRegistered ·) = s'.2.registered := by
  have hsub : s'.2.registered.Sublist (s.2.registered.filter (s'.2.isRegistered ·)) := by
    have hself : s'.2.registered.filter (s'.2.isRegistered ·) = s'.2.registered :=
      List.filter_eq_self.mpr fun id hid => List.contains_iff_mem.mpr hid
    exact hself ▸ h.registered.filter _
  have hperm : (s.2.registered.filter (s'.2.isRegistered ·)).Perm s'.2.registered := by
    refine (List.perm_ext_iff_of_nodup (hnodup.filter _) h.kept.registered_nodup).mpr fun id => ?_
    rw [List.mem_filter, isRegistered, List.contains_iff_mem]
    exact and_iff_right_of_imp fun hid => h.registered.subset hid
  exact (hsub.eq_of_length hperm.length_eq.symm).symm

/-- Passes over the connections registered first let only these go. -/
theorem Swept.registered_split {pre post : List Nat} (h : Swept now pre s s')
    (hh : s.2.WellKept) (hsplit : s.2.registered = pre ++ post) :
    s'.2.registered = pre.filter (s'.2.isRegistered ·) ++ post := by
  have hstay : ∀ id ∈ post, s'.2.isRegistered id = true := by
    intro id hid
    have hnot : id ∉ pre := fun hmem =>
      (List.nodup_append.mp (hsplit ▸ hh.registered_nodup)).2.2 id hmem id hid rfl
    obtain ⟨e, he, rfl, live⟩ :=
      (hh.registered id).mp (by rw [hsplit]; exact List.mem_append_right _ hid)
    have hfound := (h.others e.id hnot).trans (hh.find?_eq he)
    exact List.contains_iff_mem.mpr
      ((h.kept.registered e.id).mpr ⟨e, (find?_eq_some hfound).1, rfl, live⟩)
  rw [← h.registered_eq hh.registered_nodup, hsplit, List.filter_append,
    List.filter_eq_self.mpr hstay]

/-- The connections that were torn down are those that have left the table. -/
theorem Swept.left_eq (h : Swept now l s s') (hnodup : s.2.registered.Nodup) :
    s'.1.tornDown = s.1.tornDown +
      (s.2.registered.filter fun id => !s'.2.isRegistered id).length := by
  have hall := List.length_eq_length_filter_add (l := s.2.registered) (s'.2.isRegistered ·)
  rw [h.registered_eq hnodup] at hall
  have hcount := h.tornDown
  omega

/-! ## Over monitored endpoints -/

variable {h h' : Host (Monitored σ)} {c d : Connection (Monitored σ)}
  {s : SweepTotals × Host (Monitored σ)}

/-- How often the connections have sent something. -/
def sends (h : Host (Monitored σ)) : Nat := (h.connections.map (·.sends)).sum

omit [Endpoint σ] in
theorem sends_put (hh : h.WellKept) (hf : h.find? d.id = some c) :
    (h.put d).sends + c.sends = h.sends + d.sends := by
  obtain ⟨pre, post, hsplit, hput⟩ := hh.connections_put hf
  unfold sends
  rw [hsplit, hput]
  simp only [List.map_append, List.map_cons, List.sum_append, List.sum_cons]
  omega

theorem sends_sweepOne (hh : s.2.WellKept) (now : Int) (busy : Option Nat) (id : Nat) :
    (sweepOne now busy s id).2.sends + s.1.retransmitted =
      s.2.sends + (sweepOne now busy s id).1.retransmitted := by
  obtain ⟨r, h⟩ := s
  replace hh : h.WellKept := hh
  cases hf : h.find? id with
  | none => rw [sweepOne_of_find?_eq_none hf]
  | some c =>
    obtain rfl := (find?_eq_some hf).2
    rw [sweepOne_of_find? hf]
    generalize (busy == some c.id) = inUse
    have hput := sends_put hh (d := (c.timerPass now inUse).2) (by rwa [c.id_timerPass])
    have hpass := c.sends_timerPass now inUse
    show (h.put (c.timerPass now inUse).2).sends + r.retransmitted =
      h.sends + (r.count (c.timerPass now inUse).1).retransmitted
    rw [SweepTotals.retransmitted_count]
    omega

/-- What the report counts as resent was sent. -/
theorem sends_foldl_sweepOne (hh : s.2.WellKept) (now : Int) (l : List Nat) :
    (l.foldl (sweepOne now none) s).2.sends + s.1.retransmitted =
      s.2.sends + (l.foldl (sweepOne now none) s).1.retransmitted := by
  induction l generalizing s with
  | nil => rfl
  | cons id l ih =>
    have hone := sends_sweepOne hh now none id
    have hrest := ih (swept_sweepOne hh now id).kept
    rw [List.foldl_cons]
    omega

theorem Change.withinBudget (hchange : Change h h')
    (hh : ∀ c ∈ h.connections, c.WithinBudget) : ∀ c ∈ h'.connections, c.WithinBudget := by
  cases hchange with
  | create hok =>
    obtain ⟨-, valid, rfl⟩ := create_eq_ok_iff.mp hok
    intro c hc
    rcases List.mem_append.mp hc with hc | hc
    · exact hh c hc
    · rw [List.mem_singleton.mp hc]
      exact .created _ valid _
  | put hf hgoes =>
    intro e he
    rcases mem_put he with rfl | ⟨he, -⟩
    · exact hgoes.withinBudget (hh _ (find?_eq_some hf).1)
    · exact hh e he

theorem Changes.withinBudget (hchanges : Changes h h')
    (hh : ∀ c ∈ h.connections, c.WithinBudget) : ∀ c ∈ h'.connections, c.WithinBudget := by
  induction hchanges with
  | refl => exact hh
  | tail _ hchange ih => exact hchange.withinBudget ih

theorem Events.withinBudget (hpast : Events {} h) : ∀ c ∈ h.connections, c.WithinBudget :=
  (hpast.changes ⟨.empty, by simp⟩).withinBudget (by simp)

/-- A sweep tears down as many connections as leave the table, and sends as often as it says. No
packet that is in flight then is older than its timeout or was resent more often than is allowed,
and no connection that is closed has lingered long enough. A second sweep at the same instant does
nothing at all. -/
theorem sweep_settles (hpast : Events {} h) (now : Int) :
    let report := (h.sweep now none).1
    let after := (h.sweep now none).2
    after.registered.Sublist h.registered ∧
      report.tornDown = (h.registered.filter fun id => !after.isRegistered id).length ∧
      report.skipped = 0 ∧
      (∀ c ∈ after.connections, after.isRegistered c.id = true →
        (∀ e ∈ c.inflight.entries.toList,
          Instant.elapsed e.sentAt now ≤ c.config.timeoutAfter e.resends ∧
            e.resends ≤ c.config.maxResends) ∧
        c.hasLingered now = false) ∧
      after.sends = h.sends + report.retransmitted ∧
      after.sweep now none = ({}, after) := by
  have hkept := hpast.disciplined.kept
  have hswept : Swept now h.registered ({}, h) (h.sweep now none) :=
    swept_foldl (s := ({}, h)) hkept now h.registered
  have hsends : (h.sweep now none).2.sends + 0 = h.sends + (h.sweep now none).1.retransmitted :=
    sends_foldl_sweepOne (s := ({}, h)) hkept now h.registered
  have hbudget := Events.withinBudget (hpast.tail (.sweep now none))
  intro report after
  refine ⟨hswept.registered, ?_, hswept.skipped, fun c hc hregistered => ?_, hsends, ?_⟩
  · have hleft := hswept.left_eq hkept.registered_nodup
    rwa [Nat.zero_add] at hleft
  · have hmem : c.id ∈ after.registered := List.contains_iff_mem.mp hregistered
    have live := hswept.kept.live hc hmem
    have hrest := hswept.rests c.id (hswept.registered.subset hmem) c (hswept.kept.find?_eq hc)
    exact ⟨fun e he => ⟨hrest.within_timeout live e he, (hbudget c hc).flying e he⟩,
      hrest.hasLingered live⟩
  · exact foldl_sweepOne_of_restsAt hswept.kept
      (fun id hid => hswept.rests id (hswept.registered.subset hid)) (by simp)

/-! ### One is given up, the others go on

Three connections have a letter each in flight that nobody acknowledges. The second may not
resend. -/

def impatient : Config := { maxResends := 0 }

def threeWriters : Host (Monitored InMemory) :=
  ((({} : Host (Monitored InMemory)).grown { inner := { input := [97] } }
    Connection.valid_default).grown { inner := { input := [98] } }
      (show impatient.Valid from Config.check_eq_ok_iff.mp (by decide))).grown
        { inner := { input := [99] } } Connection.valid_default

/-- Each of them reads and sends. -/
def writing : List (Nat × Connection.Move (Monitored InMemory)) := [
  (1, .deed (.read 0 true)), (1, .deed (.senderTurn 0)),
  (2, .deed (.read 0 true)), (2, .deed (.senderTurn 0)),
  (3, .deed (.read 0 true)), (3, .deed (.senderTurn 0))]

def unanswered : Host (Monitored InMemory) :=
  writing.foldl (fun host m => host.moved m.1 m.2) threeWriters

theorem events_unanswered : Events {} unanswered := by
  have hcreated : Events {} threeWriters :=
    .tail (.tail (.single (.create (create_eq_ok_iff.mpr ⟨rfl, _, rfl⟩)))
      (.create (create_eq_ok_iff.mpr ⟨rfl, _, rfl⟩))) (.create (create_eq_ok_iff.mpr ⟨rfl, _, rfl⟩))
  refine List.foldlRecOn writing _ (motive := Events {}) hcreated
    fun host hhost m hm => hhost.tail (.move m.1 m.2 ?_)
  simp only [writing, List.mem_cons, List.not_mem_nil, or_false] at hm
  rcases hm with rfl | rfl | rfl | rfl | rfl | rfl <;> trivial

theorem unanswered_settles :
    Events {} unanswered ∧
      (unanswered.sweep 1000000000 none).1 = { retransmitted := 2, tornDown := 1 } ∧
      (unanswered.sweep 1000000000 none).2.sends = unanswered.sends + 2 ∧
      ((unanswered.sweep 1000000000 none).2.sweep 1000000000 none).1 = {} := by
  have hreport : (unanswered.sweep 1000000000 none).1 = { retransmitted := 2, tornDown := 1 } := by
    decide +kernel
  obtain ⟨-, -, -, -, hsends, hagain⟩ := sweep_settles events_unanswered 1000000000
  rw [hreport] at hsends
  exact ⟨events_unanswered, hreport, hsends, congrArg Prod.fst hagain⟩

end Host

end ReliableStream
