import Mathlib.Data.List.Nodup
import ReliableStream.Endpoint.InMemory
import ReliableStream.Proofs.Connection.Discipline
import ReliableStream.Proofs.Connection.Timer
import ReliableStream.Proofs.Host.Sweep

/-!
# The life of a connection at its host

Whatever happens at a host (`Event`), it creates connections and lets those that it has go on
(`Change`). So its table is `WellKept`: ids are given out once, and the registered connections are
those that were created and are not destroyed. Each connection goes on from where it was
(`Changes.goes`), so what holds of the callbacks of one connection holds of all
(`lifecycle_disciplined`). Whatever destroys a connection takes it from the table and lets go of its
endpoint (`Disciplined.gone_moved`), and a shutdown does so with all (`Disciplined.gone_shutdown`).

A sweep within another one is the only event that has to be looked into. The connection that is in
use stays as it is, because one with packets in flight has not lingered (`find?_sweep_busy`).
-/

namespace ReliableStream

namespace Host

variable {σ : Type} {h h' : Host σ} {c d e : Connection σ} {id : Nat}

/-! ## The table -/

theorem find?_put (h : Host σ) (d : Connection σ) (id : Nat) :
    (h.put d).find? id = (h.find? id).map fun c => if c.id = d.id then d else c := by
  have hsame : ((·.id == id) ∘ fun c => if c.id = d.id then d else c) =
      fun c : Connection σ => c.id == id := by
    funext c
    simp only [Function.comp_apply]
    split
    next heq => rw [heq]
    next => rfl
  unfold find? put
  simp only
  rw [List.find?_map, hsame]

theorem find?_put_self (hf : h.find? d.id = some c) : (h.put d).find? d.id = some d := by
  rw [find?_put, hf, Option.map_some, if_pos (find?_eq_some hf).2]

theorem find?_put_of_ne (hne : id ≠ d.id) : (h.put d).find? id = h.find? id := by
  rw [find?_put]
  cases hf : h.find? id with
  | none => rfl
  | some c =>
    have hid : c.id ≠ d.id := by
      rw [(find?_eq_some hf).2]
      exact hne
    rw [Option.map_some, if_neg hid]

theorem ids_put (h : Host σ) (d : Connection σ) :
    (h.put d).connections.map (·.id) = h.connections.map (·.id) := by
  unfold put
  simp only [List.map_map]
  refine List.map_congr_left fun c _ => ?_
  simp only [Function.comp_apply]
  split
  next heq => exact heq.symm
  next => rfl

theorem mem_put_self (hf : h.find? d.id = some c) : d ∈ (h.put d).connections :=
  (find?_eq_some (find?_put_self hf)).1

theorem mem_put_of_ne (he : e ∈ h.connections) (hne : e.id ≠ d.id) :
    e ∈ (h.put d).connections :=
  List.mem_map.mpr ⟨e, he, if_neg hne⟩

/-- Ids are given out once, and those of live connections are registered. -/
structure WellKept (h : Host σ) : Prop where
  nodup : (h.connections.map (·.id)).Nodup
  lt_nextId : ∀ c ∈ h.connections, c.id < h.nextId
  registered_nodup : h.registered.Nodup
  registered : ∀ id, id ∈ h.registered ↔ ∃ c ∈ h.connections, c.id = id ∧ c.destroyed = false

namespace WellKept

theorem empty : ({} : Host σ).WellKept := ⟨.nil, by simp, .nil, by simp⟩

theorem find?_eq (hh : h.WellKept) (hc : c ∈ h.connections) : h.find? c.id = some c := by
  cases hf : h.find? c.id with
  | none => exact absurd rfl (id_ne_of_find?_eq_none hf c hc)
  | some d =>
    obtain ⟨hd, hid⟩ := find?_eq_some hf
    rw [List.inj_on_of_nodup_map hh.nodup hd hc hid]

end WellKept

/-- The host with one connection more, which comes last. -/
def grown (h : Host σ) (endpoint : σ) {config : Config} (valid : config.Valid) : Host σ where
  connections := h.connections ++ [.created h.nextId config valid endpoint]
  registered := h.registered ++ [h.nextId]
  nextId := h.nextId + 1

theorem create_eq_ok_iff {endpoint : σ} {config : Config} :
    h.create endpoint config = .ok (id, h') ↔
      id = h.nextId ∧ ∃ valid : config.Valid, h' = h.grown endpoint valid := by
  unfold create
  split
  next fault hcheck =>
    constructor
    · intro hok
      cases hok
    · rintro ⟨-, valid, -⟩
      rw [Config.check_eq_ok_iff.mpr valid] at hcheck
      cases hcheck
  next hcheck =>
    have valid : config.Valid := Config.check_eq_ok_iff.mp hcheck
    constructor
    · intro hok
      cases hok
      exact ⟨rfl, valid, rfl⟩
    · rintro ⟨rfl, -, rfl⟩
      rfl

theorem ids_grown (h : Host σ) (endpoint : σ) {config : Config} (valid : config.Valid) :
    (h.grown endpoint valid).connections.map (·.id) = h.connections.map (·.id) ++ [h.nextId] :=
  List.map_append

theorem WellKept.grown (hh : h.WellKept) (endpoint : σ) {config : Config}
    (valid : config.Valid) : (h.grown endpoint valid).WellKept := by
  have hnew : h.nextId ∉ h.connections.map (·.id) := fun hmem => by
    obtain ⟨c, hc, hid⟩ := List.mem_map.mp hmem
    have := hh.lt_nextId c hc
    omega
  refine ⟨?_, fun c hc => ?_, ?_, fun id => ?_⟩
  · rw [ids_grown, ← List.concat_eq_append]
    exact hh.nodup.concat hnew
  · rcases List.mem_append.mp hc with hc | hc
    · exact Nat.lt_succ_of_lt (hh.lt_nextId c hc)
    · rw [List.mem_singleton.mp hc]
      exact Nat.lt_succ_self _
  · show (h.registered ++ [h.nextId]).Nodup
    rw [← List.concat_eq_append]
    refine hh.registered_nodup.concat fun hmem => hnew ?_
    obtain ⟨c, hc, hid, -⟩ := (hh.registered h.nextId).mp hmem
    exact List.mem_map.mpr ⟨c, hc, hid⟩
  · show id ∈ h.registered ++ [h.nextId] ↔ _
    rw [List.mem_append, hh.registered, List.mem_singleton]
    constructor
    · rintro (⟨c, hc, hid, live⟩ | rfl)
      · exact ⟨c, List.mem_append_left _ hc, hid, live⟩
      · exact ⟨_, List.mem_append_right _ (.head []), rfl, rfl⟩
    · rintro ⟨c, hc, rfl, live⟩
      rcases List.mem_append.mp hc with hc | hc
      · exact .inl ⟨c, hc, rfl, live⟩
      · rw [List.mem_singleton.mp hc]
        exact .inr rfl

/-- Apart from `d`, the live connections are those that were live before. -/
theorem live_put_iff (hf : h.find? d.id = some c) :
    (∃ e ∈ (h.put d).connections, e.id = id ∧ e.destroyed = false) ↔
      if id = d.id then d.destroyed = false
      else ∃ e ∈ h.connections, e.id = id ∧ e.destroyed = false := by
  by_cases hthis : id = d.id
  · rw [if_pos hthis, hthis]
    refine ⟨?_, fun live => ⟨d, mem_put_self hf, rfl, live⟩⟩
    rintro ⟨e, he, hid, live⟩
    rcases mem_put he with rfl | ⟨-, hne⟩
    · exact live
    · exact absurd hid hne
  · rw [if_neg hthis]
    constructor
    · rintro ⟨e, he, rfl, live⟩
      rcases mem_put he with rfl | ⟨he, -⟩
      · exact absurd rfl hthis
      · exact ⟨e, he, rfl, live⟩
    · rintro ⟨e, he, rfl, live⟩
      exact ⟨e, mem_put_of_ne he hthis, rfl, live⟩

/-- A connection that goes on keeps its place, and leaves the table when it is destroyed. -/
theorem WellKept.put (hh : h.WellKept) (hf : h.find? d.id = some c)
    (hlive : d.destroyed = false → c.destroyed = false) : (h.put d).WellKept := by
  obtain ⟨hc, hid⟩ := find?_eq_some hf
  have hregistered : (h.put d).registered =
      if d.destroyed then h.registered.erase d.id else h.registered := rfl
  refine ⟨?_, fun e he => ?_, ?_, fun id => ?_⟩
  · rw [ids_put]
    exact hh.nodup
  · rcases mem_put he with rfl | ⟨he, -⟩
    · rw [← hid]
      exact hh.lt_nextId c hc
    · exact hh.lt_nextId e he
  · rw [hregistered]
    split
    · exact hh.registered_nodup.erase d.id
    · exact hh.registered_nodup
  · rw [hregistered, live_put_iff hf]
    split
    next hd =>
      rw [hh.registered_nodup.mem_erase_iff, hh.registered]
      split
      next hthis => simp [hthis, hd]
      next hother => simp [hother]
    next hd =>
      have live : d.destroyed = false := by simpa using hd
      rw [hh.registered]
      split
      next hthis => exact iff_of_true ⟨c, hc, hid.trans hthis.symm, hlive live⟩ live
      next => rfl

/-! ## What a host does -/

variable [Endpoint σ]

/-- The host creates a connection, or lets one go on. -/
inductive Change (h : Host (Monitored σ)) : Host (Monitored σ) → Prop
  | create {inner : σ} {config : Config} {id : Nat} {h' : Host (Monitored σ)}
      (hok : h.create { inner } config = .ok (id, h')) : Change h h'
  | put {c d : Connection (Monitored σ)} (hf : h.find? c.id = some c) (hgoes : c.Goes d) :
      Change h (h.put d)

abbrev Changes : Host (Monitored σ) → Host (Monitored σ) → Prop := Relation.ReflTransGen Change

/-- The host once its connection `id` has made a move. -/
def moved {τ : Type} [Endpoint τ] (h : Host τ) (id : Nat) (m : Connection.Move τ) : Host τ :=
  match h.find? id with
  | some c => h.put (c.move m)
  | none => h

/-- Something happens at a host. Locks are not modelled, so all that begins comes to its end. A
sweep within a datagram that a sender or an acknowledgment sends, which is sent under the lock of
what waits to be sent, would wait for itself if it tore down the same connection. Here it is a
`step` like any other, after which the sending goes on. -/
inductive Event (h : Host (Monitored σ)) : Host (Monitored σ) → Prop
  /-- A connection is created over an endpoint that had no callbacks yet. -/
  | create {inner : σ} {config : Config} {id : Nat} {h' : Host (Monitored σ)}
      (hok : h.create { inner } config = .ok (id, h')) : Event h h'
  /-- Something is done to a connection by whoever has hold of it, registered or not. -/
  | move (id : Nat) (m : Connection.Move (Monitored σ)) (hm : m.SparesCalls) :
      Event h (h.moved id m)
  /-- A connection comes to the next step of an operation. What happens between two of them takes
  place within the callbacks that the operation makes. -/
  | step {id : Nat} {c d : Connection (Monitored σ)} (hf : h.find? id = some c)
      (hstep : Connection.Step .lasting c d) : Event h (h.put d)
  | destroy {id : Nat} {h' : Host (Monitored σ)} (hok : h.destroy id = .ok h') : Event h h'
  | shutdown : Event h h.shutdown
  | sweep (now : Int) (busy : Option Nat) : Event h (h.sweep now busy).2
  /-- A sweep takes place within a datagram that another one resends. -/
  | sweepAround (now : Int) (busy : Nat) : Event h (h.sweepAround now busy).host

abbrev Events : Host (Monitored σ) → Host (Monitored σ) → Prop := Relation.ReflTransGen Event

/-- All connections make their callbacks in order. -/
structure Disciplined (h : Host (Monitored σ)) : Prop where
  kept : h.WellKept
  all : ∀ c ∈ h.connections, c.Disciplined

variable {h h' : Host (Monitored σ)} {c d : Connection (Monitored σ)}

theorem Change.disciplined (hchange : Change h h') (hh : h.Disciplined) : h'.Disciplined := by
  cases hchange with
  | create hok =>
    obtain ⟨-, valid, rfl⟩ := create_eq_ok_iff.mp hok
    refine ⟨hh.kept.grown _ valid, fun c hc => ?_⟩
    rcases List.mem_append.mp hc with hc | hc
    · exact hh.all c hc
    · rw [List.mem_singleton.mp hc]
      exact Connection.disciplined_created _ valid _
  | @put c d hf hgoes =>
    have houtlasts := hgoes.outlasts
    have hc := (find?_eq_some hf).1
    refine ⟨hh.kept.put (by rwa [houtlasts.id_eq]) fun live => ?_, fun e he => ?_⟩
    · by_contra hd
      rw [(houtlasts.destroyed (by simpa using hd)).1] at live
      cases live
    · rcases mem_put he with rfl | ⟨he, -⟩
      · exact hgoes.disciplined (hh.all c hc)
      · exact hh.all e he

theorem Changes.disciplined (hchanges : Changes h h') (hh : h.Disciplined) : h'.Disciplined := by
  induction hchanges with
  | refl => exact hh
  | tail _ hchange ih => exact hchange.disciplined ih

/-- No connection is lost: each of them goes on from where it was. -/
theorem Change.goes (hchange : Change h h') (hh : h.Disciplined) (hc : c ∈ h.connections) :
    ∃ d ∈ h'.connections, c.Goes d := by
  cases hchange with
  | create hok =>
    obtain ⟨-, valid, rfl⟩ := create_eq_ok_iff.mp hok
    exact ⟨c, List.mem_append_left _ hc, .refl⟩
  | @put c' d hf hgoes =>
    have hid : d.id = c'.id := hgoes.outlasts.id_eq
    by_cases hthis : c.id = c'.id
    · rw [← hthis, hh.kept.find?_eq hc] at hf
      obtain rfl := Option.some.inj hf
      refine ⟨d, mem_put_self (c := c) ?_, hgoes⟩
      rw [hid]
      exact hh.kept.find?_eq hc
    · exact ⟨c, mem_put_of_ne hc (by rwa [hid]), .refl⟩

theorem Changes.goes (hchanges : Changes h h') (hh : h.Disciplined) (hc : c ∈ h.connections) :
    ∃ d ∈ h'.connections, c.Goes d := by
  induction hchanges with
  | refl => exact ⟨c, hc, .refl⟩
  | tail hchanges hchange ih =>
    obtain ⟨d, hd, hcd⟩ := ih
    obtain ⟨e, he, hde⟩ := hchange.goes (Changes.disciplined hchanges hh) hd
    exact ⟨e, he, hcd.trans hde⟩

/-! ## Every event is changes -/

theorem changes_put {id : Nat} (hf : h.find? id = some c) (hgoes : c.Goes d) :
    Changes h (h.put d) := by
  obtain rfl := (find?_eq_some hf).2
  exact .single (.put hf hgoes)

theorem changes_timerPass {id : Nat} (hf : h.find? id = some c) (now : Int) (busy : Bool) :
    Changes h (h.put (c.timerPass now busy).2) :=
  changes_put hf (Connection.goes_timerPass c now busy)

theorem changes_put_destroy {id : Nat} (hf : h.find? id = some c) : Changes h (h.put c.destroy) :=
  changes_put hf (Connection.goes_destroy c)

theorem changes_sweep (h : Host (Monitored σ)) (now : Int) (busy : Option Nat) :
    Changes h (h.sweep now busy).2 :=
  related_sweep (fun _ => .refl) .trans changes_timerPass h now busy

/-- A sweep leaves a connection alone whose packets in flight are in use, unless it has lingered
long enough. -/
theorem find?_sweep_busy {now : Int} {id : Nat} (hf : h.find? id = some c)
    (live : c.destroyed = false) (hlinger : c.hasLingered now = false) :
    (h.sweep now (some id)).2.find? id = some c := by
  refine List.foldlRecOn h.registered (sweepOne now (some id)) (b := (({} : SweepTotals), h))
    (motive := fun state => state.2.find? id = some c) hf fun state hstate id' _ => ?_
  obtain ⟨totals, host⟩ := state
  simp only at hstate
  unfold sweepOne update
  simp only
  cases hf' : host.find? id' with
  | none => exact hstate
  | some e =>
    have hid := (find?_eq_some hf').2
    by_cases hthis : id' = id
    · subst hthis
      rw [hstate] at hf'
      obtain rfl := Option.some.inj hf'
      simp only [Option.map_some, beq_self_eq_true, Connection.timerPass_of_busy live hlinger]
      rw [← hid] at hstate ⊢
      exact find?_put_self hstate
    · have hother : id ≠ (e.timerPass now (some id == some id')).2.id := by
        rw [(Connection.goes_timerPass e now (some id == some id')).outlasts.id_eq, hid]
        exact Ne.symm hthis
      simp only [Option.map_some]
      rw [find?_put_of_ne hother]
      exact hstate

theorem changes_interruptOne (now : Int) {s : Interrupted (Monitored σ)} (id : Nat)
    (hs : s.host.Disciplined) : Changes s.host (interruptOne now s id).host := by
  unfold interruptOne
  cases hf : s.host.find? id with
  | none => exact .refl
  | some c =>
    simp only
    rcases Connection.timerAction_cases (g := .lasting) trivial c now false with
      ⟨outcome, d, heq, hdone⟩ | ⟨wires, live, hne, hwires, heq⟩
    · rw [heq]
      refine changes_put hf ?_
      rcases hdone with hsteps | ⟨cause, hstamp, rfl⟩
      · exact hsteps.goes
      · exact .tail (.single (.step hstamp)) (.abort cause)
    · rw [heq]
      obtain ⟨hc, rfl⟩ := find?_eq_some hf
      have hstamp : Connection.Step .lasting c (c.restamped now) := .restamp live trivial now
      have hput : Changes s.host (s.host.put (c.restamped now)) :=
        changes_put hf (.single (.step hstamp))
      -- the packets that are sent are in flight, so the connection has not lingered
      have hflying : c.inflight.entries.toList ≠ [] := by
        obtain ⟨w, hw⟩ := List.exists_mem_of_ne_nil wires hne
        obtain ⟨e, he, -⟩ := hwires w hw
        exact List.ne_nil_of_mem he
      have hlinger : (c.restamped now).hasLingered now = false :=
        (hs.all c hc).orderly.hasLingered_eq_false live hflying now
      have hfound := find?_sweep_busy (find?_put_self (d := c.restamped now) hf) live hlinger
      have hswept := hput.trans (changes_sweep (s.host.put (c.restamped now)) now (some c.id))
      simp only
      generalize (s.host.put (c.restamped now)).sweep now (some c.id) = r at hfound hswept ⊢
      obtain ⟨inner, host⟩ := r
      simp only at hfound hswept ⊢
      rw [show host.find? c.id = some (c.restamped now) from hfound]
      refine hswept.trans (changes_put hfound (Connection.Steps.goes ?_))
      refine Connection.sendAll_steps trivial live fun w hw => ?_
      obtain ⟨e, he, rfl⟩ := hwires w hw
      obtain ⟨e', he', -, hwire⟩ := SentPacket.exists_of_content
        (SentPacket.map_content_resendOverdue now c.config c.inflight.entries.toList).symm he
      exact ⟨e', he', hwire⟩

theorem changes_sweepAround (hh : h.Disciplined) (now : Int) (busy : Nat) :
    Changes h (h.sweepAround now busy).host := by
  unfold sweepAround
  refine List.foldlRecOn h.registered _ (b := ({ host := h } : Interrupted (Monitored σ)))
    (motive := fun s => Changes h s.host) .refl fun s hs id _ => ?_
  split
  · exact hs.trans (changes_interruptOne now id (hs.disciplined hh))
  · exact hs.trans
      (related_sweepOne (fun _ => .refl) changes_timerPass now none (s.outer, s.host) id)

theorem Event.changes (hevent : Event h h') (hh : h.Disciplined) : Changes h h' := by
  cases hevent with
  | create hok => exact .single (.create hok)
  | move id m hm =>
    unfold moved
    cases hf : h.find? id with
    | none => exact .refl
    | some c => exact changes_put hf (Connection.goes_move c hm)
  | step hf hstep => exact changes_put hf (.single (.step hstep))
  | @destroy id h' hok =>
    rw [eq_of_destroy hok]
    exact related_destroyConnection (fun _ => .refl) changes_put_destroy h id
  | shutdown => exact related_shutdown (fun _ => .refl) .trans changes_put_destroy h
  | sweep now busy => exact changes_sweep h now busy
  | sweepAround now busy => exact changes_sweepAround hh now busy

theorem Events.changes (hevents : Events h h') (hh : h.Disciplined) : Changes h h' := by
  induction hevents with
  | refl => exact .refl
  | tail _ hevent ih => exact ih.trans (hevent.changes (ih.disciplined hh))

theorem Events.disciplined (hevents : Events {} h) : h.Disciplined :=
  (hevents.changes ⟨.empty, by simp⟩).disciplined ⟨.empty, by simp⟩

/-! ## What is destroyed -/

/-- The connection `id` is destroyed. It is not registered any more, and has let go of its endpoint,
once. -/
def Gone (h : Host (Monitored σ)) (id : Nat) : Prop :=
  h.isRegistered id = false ∧ ∃ c ∈ h.connections, c.id = id ∧ c.destroyed = true ∧
    c.endpoint.calls.count .release = 1

/-- A connection that was created and is not registered is destroyed. -/
theorem Disciplined.gone (hh : h.Disciplined) (hc : c ∈ h.connections)
    (hnot : c.id ∉ h.registered) : h.Gone c.id := by
  have hdestroyed : c.destroyed = true := by
    by_contra live
    exact hnot ((hh.kept.registered c.id).mpr ⟨c, hc, rfl, by simpa using live⟩)
  refine ⟨by simpa [isRegistered] using hnot, c, hc, rfl, hdestroyed, ?_⟩
  rw [(hh.all c hc).release, hdestroyed]
  rfl

theorem Changes.gone (hchanges : Changes h h') (hh : h.Disciplined) (hc : c ∈ h.connections)
    (hnot : c.id ∉ h'.registered) : h'.Gone c.id := by
  obtain ⟨d, hd, hcd⟩ := hchanges.goes hh hc
  rw [← hcd.outlasts.id_eq] at hnot ⊢
  exact (hchanges.disciplined hh).gone hd hnot

omit [Endpoint σ] in
theorem WellKept.mem_registered_put (hh : h.WellKept) (hd : d.destroyed = true) :
    id ∈ (h.put d).registered ↔ id ∈ h.registered ∧ id ≠ d.id := by
  have hregistered : (h.put d).registered = h.registered.erase d.id := if_pos hd
  rw [hregistered, hh.registered_nodup.mem_erase_iff, and_comm]

/-- Whatever destroys a connection lets go of it. -/
theorem Disciplined.gone_moved {m : Connection.Move (Monitored σ)} (hh : h.Disciplined)
    (hc : c ∈ h.connections) (hm : m.SparesCalls) (hd : (c.move m).destroyed = true) :
    (h.moved c.id m).Gone c.id := by
  have hf := hh.kept.find?_eq hc
  have hgoes := Connection.goes_move c hm
  rw [moved, hf]
  refine Changes.gone (changes_put hf hgoes) hh hc ?_
  rw [hh.kept.mem_registered_put hd, hgoes.outlasts.id_eq]
  exact fun hmem => hmem.2 rfl

theorem WellKept.mem_registered_destroyConnection {other : Nat} (hh : h.WellKept) :
    id ∈ (h.destroyConnection other).registered ↔ id ∈ h.registered ∧ id ≠ other := by
  unfold destroyConnection
  cases hf : h.find? other with
  | none =>
    refine (and_iff_left_of_imp fun hmem heq => ?_).symm
    obtain ⟨c, hc, hid, -⟩ := (hh.registered id).mp hmem
    exact id_ne_of_find?_eq_none hf c hc (hid.trans heq)
  | some c =>
    obtain ⟨-, rfl⟩ := find?_eq_some hf
    rw [hh.mem_registered_put (Connection.destroyed_destroy c),
      (Connection.goes_destroy c).outlasts.id_eq]

/-- Those that are left were there before, and are not among those that were destroyed. -/
theorem Disciplined.mem_registered_foldl (hh : h.Disciplined) (ids : List Nat) :
    id ∈ (ids.foldl destroyConnection h).registered ↔ id ∈ h.registered ∧ id ∉ ids := by
  induction ids generalizing h with
  | nil => simp
  | cons other ids ih =>
    have hnext : (h.destroyConnection other).Disciplined := Changes.disciplined
      (related_destroyConnection (fun _ => .refl) changes_put_destroy h other) hh
    rw [List.foldl_cons, ih hnext, hh.kept.mem_registered_destroyConnection, List.mem_cons, not_or,
      and_assoc]

theorem Disciplined.registered_shutdown (hh : h.Disciplined) : h.shutdown.registered = [] := by
  refine List.eq_nil_iff_forall_not_mem.mpr fun id hmem => ?_
  obtain ⟨hmem, hnot⟩ := (hh.mem_registered_foldl h.registered).mp hmem
  exact hnot hmem

theorem Disciplined.gone_shutdown (hh : h.Disciplined) (hc : c ∈ h.connections) :
    h.shutdown.Gone c.id := by
  refine Changes.gone (related_shutdown (fun _ => .refl) .trans changes_put_destroy h) hh hc ?_
  rw [hh.registered_shutdown]
  exact List.not_mem_nil

/-- The connection `id` is destroyed if it is registered, and no other is touched. -/
theorem Disciplined.destroy_cases (hh : h.Disciplined) (id : Nat) :
    if h.isRegistered id then ∃ h', h.destroy id = .ok h' ∧ h'.Gone id ∧
      ∀ c ∈ h.connections, c.id ≠ id → c ∈ h'.connections
    else h.destroy id = .error (.notFound id) := by
  unfold destroy get
  split
  next hregistered =>
    obtain ⟨c, hc, rfl, -⟩ := (hh.kept.registered id).mp (by simpa [isRegistered] using hregistered)
    have hf := hh.kept.find?_eq hc
    refine ⟨_, rfl, hh.gone_moved (m := .deed .destroy) hc trivial
      (Connection.destroyed_destroy c), fun d hd hne => ?_⟩
    rw [destroyConnection, hf]
    refine mem_put_of_ne hd ?_
    rw [(Connection.goes_destroy c).outlasts.id_eq]
    exact hne
  next => rfl

/-- The registered connections are those that were created and are not destroyed, and no id is
given out twice. A connection lets go of its endpoint once if it is destroyed, and else not; it
tells it at most once each that it was given up and that the output has ended. When it has let go of
it, it makes no callbacks any more whatever happens to the host, nothing is left in it, and what is
asked of it is refused. Whatever destroys a connection takes it from the table and lets go of its
endpoint. To destroy one by its id leaves the others as they are, and a shutdown destroys all. -/
theorem lifecycle_disciplined (hpast : Events {} h) (hfuture : Events h h') :
    h.registered.Nodup ∧
    (∀ id, h.isRegistered id = true ↔ ∃ c ∈ h.connections, c.id = id ∧ c.destroyed = false) ∧
    (h'.connections.map (·.id)).Nodup ∧
    (∀ inner config id after, h'.create { inner } config = .ok (id, after) →
      (∀ c ∈ h.connections, c.id ≠ id) ∧ after.isRegistered id = true) ∧
    (∀ id, if h.isRegistered id then ∃ after, h.destroy id = .ok after ∧ after.Gone id ∧
        ∀ c ∈ h.connections, c.id ≠ id → c ∈ after.connections
      else h.destroy id = .error (.notFound id)) ∧
    h.shutdown.registered = [] ∧
    ∀ c ∈ h.connections,
      (c.endpoint.calls.count .release = c.destroyed.toNat ∧
        c.endpoint.calls.count .reset ≤ 1 ∧
        c.endpoint.calls.count .finish ≤ 1 ∧
        (c.destroyed = true → c.endpoint.calls.getLast? = some .release) ∧
        ∃ d ∈ h'.connections, d.id = c.id ∧
          (c.destroyed = true →
            d.destroyed = true ∧ d.endpoint.calls = c.endpoint.calls ∧ d.Spent)) ∧
      (h.moved c.id (.deed .destroy)).Gone c.id ∧ h.shutdown.Gone c.id ∧
      ∀ m : Connection.Move (Monitored σ), m.SparesCalls → (c.move m).destroyed = true →
        (h.moved c.id m).Gone c.id := by
  have hh := Events.disciplined hpast
  have hh' := Events.disciplined (hpast.trans hfuture)
  have hgoes := fun c (hc : c ∈ h.connections) => (Events.changes hfuture hh).goes hh hc
  refine ⟨hh.kept.registered_nodup, fun id => ?_, hh'.kept.nodup,
    fun inner config id after hok => ⟨fun c hc => ?_, ?_⟩, hh.destroy_cases, hh.registered_shutdown,
    fun c hc => ⟨?_, ?_, hh.gone_shutdown hc, fun m hm hd => hh.gone_moved hc hm hd⟩⟩
  · rw [isRegistered, List.contains_iff_mem]
    exact hh.kept.registered id
  · obtain ⟨d, hd, hcd⟩ := hgoes c hc
    obtain ⟨rfl, -⟩ := create_eq_ok_iff.mp hok
    rw [← hcd.outlasts.id_eq]
    exact Nat.ne_of_lt (hh'.kept.lt_nextId d hd)
  · obtain ⟨rfl, valid, rfl⟩ := create_eq_ok_iff.mp hok
    simp [isRegistered, grown]
  · have hdisciplined := hh.all c hc
    obtain ⟨d, hd, hcd⟩ := hgoes c hc
    refine ⟨hdisciplined.release, hdisciplined.reset.trans (Bool.toNat_le _), ?_,
      hdisciplined.last, d, hd, hcd.outlasts.id_eq, fun hdestroyed => ?_⟩
    · rw [hdisciplined.finish]
      exact Bool.toNat_le _
    · obtain ⟨hdestroyed', hcalls⟩ := hcd.outlasts.destroyed hdestroyed
      exact ⟨hdestroyed', hcalls, (hh'.all d hd).spent hdestroyed'⟩
  · exact hh.gone_moved hc trivial (Connection.destroyed_destroy c)

/-! ### One connection closes, another is shut down

The first reads the end of its input, sends its FIN, and gets the peer's with the acknowledgment of
its own. Neither lingers. -/

def hurried : Config := { linger := 0 }

theorem valid_hurried : hurried.Valid := Config.check_eq_ok_iff.mp (by decide)

def opened : Host (Monitored InMemory) :=
  (({} : Host (Monitored InMemory)).grown { inner := { inputClosed := true } } valid_hurried).grown
    { inner := {} } valid_hurried

/-- The first connection goes through these moves. -/
def parting : List (Connection.Move (Monitored InMemory)) := [
  .deed (.read 0 true),
  .deed (.senderTurn 0),
  .deed (.receive (Segment.sealed 1 2 (.ack ||| .fin) 1440 []).encode 5)]

def parted : Host (Monitored InMemory) := parting.foldl (·.moved 1 ·) opened

theorem events_parted : Events {} parted := by
  have hopened : Events {} opened :=
    .tail (.single (.create (create_eq_ok_iff.mpr ⟨rfl, _, rfl⟩)))
      (.create (create_eq_ok_iff.mpr ⟨rfl, _, rfl⟩))
  refine List.foldlRecOn parting (·.moved 1 ·) (motive := Events {}) hopened
    fun host hhost m hm => hhost.tail (.move 1 m ?_)
  simp only [parting, List.mem_cons, List.not_mem_nil, or_false] at hm
  rcases hm with rfl | rfl | rfl <;> trivial

/-- The first has let go of its endpoint by itself, the second does when the host is shut down. -/
theorem parted_lifecycle :
    parted.registered = [2] ∧
      (parted.connections.map fun c => c.endpoint.calls) =
        [[.read, .send, .finish, .send, .release], []] ∧
      (∃ d ∈ parted.shutdown.connections,
        d.endpoint.calls = [.read, .send, .finish, .send, .release] ∧ d.Spent) ∧
      parted.shutdown.registered = [] ∧ parted.shutdown.Gone 2 ∧
      (parted.shutdown.connections.map fun c => c.endpoint.calls) =
        [[.read, .send, .finish, .send, .release], [.release]] := by
  have hregistered : parted.registered = [2] := by decide +kernel
  have hcalls : (parted.connections.map fun c => c.endpoint.calls) =
      [[.read, .send, .finish, .send, .release], []] := by decide +kernel
  obtain ⟨-, hlive, -, -, -, hnone, hall⟩ :=
    lifecycle_disciplined events_parted (.single .shutdown)
  obtain ⟨e, he, hsecond, -⟩ := (hlive 2).mp (by rw [isRegistered, hregistered]; rfl)
  have hgone : parted.shutdown.Gone 2 := by
    rw [← hsecond]
    exact (hall e he).2.2.1
  refine ⟨hregistered, hcalls, ?_, hnone, hgone, by decide +kernel⟩
  obtain ⟨c, hc, hfirst⟩ : ∃ c ∈ parted.connections,
      c.endpoint.calls = [.read, .send, .finish, .send, .release] := by
    have hmem : [.read, .send, .finish, .send, .release] ∈
        parted.connections.map fun c => c.endpoint.calls := by simp [hcalls]
    exact List.mem_map.mp hmem
  obtain ⟨⟨hrelease, -, -, -, d, hd, -, hleft⟩, -⟩ := hall c hc
  have hdestroyed : c.destroyed = true := by
    cases hdead : c.destroyed with
    | true => rfl
    | false => simp [hfirst, hdead] at hrelease
  obtain ⟨-, heq, hspent⟩ := hleft hdestroyed
  exact ⟨d, hd, heq.trans hfirst, hspent⟩

end Host

end ReliableStream
