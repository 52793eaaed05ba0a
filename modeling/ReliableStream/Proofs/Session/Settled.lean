import ReliableStream.Endpoint.InMemory
import ReliableStream.Proofs.Connection.Waiting
import ReliableStream.Proofs.Host.Sweep
import ReliableStream.Proofs.Session.Command

/-!
# Sessions whose tasks have settled

Each connection of a session is tended, and its sender is among the tasks that can run if it is to
run (`Watched`). Commands keep that so (`Watched.act`). When the tasks settle, each of the senders
takes its turn and is not to run afterwards, so no sender is left that is to run, and every
connection is attended (`attended_when_settled`): nothing waits to be sent, or something is in
flight that an acknowledgment or the timer moves.
-/

namespace ReliableStream

namespace Session

variable {σ : Type} [Endpoint σ] {s s' : Session σ} {l l' : List Task} {c d : Connection σ}
  {id : Nat}

/-- Input is not read when there are no positions left for it. -/
def Numbers (s : Session σ) : Command σ → Prop
  | .read id => (s.read id).map (·.1) ≠ some (.error .outOfPositions)
  | _ => True

/-- Then every deed of a connection proceeds. -/
theorem proceeds_of_numbers {x : Command σ} {deed : Connection.Deed σ} (hruntime : s.runtime = true)
    (hx : s.Numbers x) (hdeed : s.deed? x = some (id, deed)) (hf : s.host.find? id = some c) :
    deed.Proceeds c := by
  cases x with
  | read other =>
    cases hdeed
    refine ⟨hruntime, fun hfull => hx ?_⟩
    simp [Session.read, Session.update, hf, hruntime, hfull]
  | ensureSender other =>
    cases hdeed
    exact hruntime
  | receive | output | timerPass | abort | destroy | adjust =>
    cases hdeed
    trivial
  | _ => cases hdeed

/-- No sender can run. -/
def Quiet (s : Session σ) : Prop := ∀ id, Task.sender id ∉ s.ready

/-- All connections that are not destroyed are attended. -/
def Attended (s : Session σ) : Prop :=
  ∀ c ∈ s.host.connections, c.destroyed = false → c.Attended

/-- Tasks can run, all connections are tended, and the senders that are to run are among `l`. -/
structure Watched (l : List Task) (s : Session σ) : Prop where
  runtime : s.runtime = true
  tended : ∀ c ∈ s.host.connections, c.Tended
  lined : ∀ c ∈ s.host.connections, c.sender = .ready → Task.sender c.id ∈ l

namespace Watched

omit [Endpoint σ] in
theorem start (now : Int) : Watched [] ({ now } : Session σ) :=
  ⟨rfl, fun c hc => (by cases hc), fun c hc => (by cases hc)⟩

/-- When no sender is to run, all connections are attended. -/
theorem attended (h : Watched l s) (hl : ∀ id, Task.sender id ∉ l) : s.Attended :=
  fun c hc live => (h.tended c hc).attended live fun hready => hl c.id (h.lined c hc hready)

omit [Endpoint σ] in
/-- Nothing that is done without the senders matters. -/
theorem calm (h : Watched l s) (hruntime : s'.runtime = s.runtime)
    (hcalm : s.host.Calm s'.host) (hl : ∀ id, Task.sender id ∈ l → Task.sender id ∈ l') :
    Watched l' s' := by
  refine ⟨hruntime.trans h.runtime, fun d hd => ?_, fun d hd hready => ?_⟩
  · obtain ⟨c, hc, hcd⟩ := hcalm d hd
    exact hcd.tended (h.tended c hc)
  · obtain ⟨c, hc, hcd⟩ := hcalm d hd
    rw [hcd.id_eq]
    exact hl c.id (h.lined c hc (hcd.ready hready))

omit [Endpoint σ] in
/-- A connection does something. Its sender is among `l'` if it is to run afterwards. -/
theorem put (h : Watched l s) (hhost : s'.host = s.host.put d) (hruntime : s'.runtime = s.runtime)
    (hd : d.Tended) (hready : d.sender = .ready → Task.sender d.id ∈ l')
    (hl : ∀ id, id ≠ d.id → Task.sender id ∈ l → Task.sender id ∈ l') : Watched l' s' := by
  refine ⟨hruntime.trans h.runtime, fun e he => ?_, fun e he hto => ?_⟩
  · rw [hhost] at he
    rcases Host.mem_put he with rfl | ⟨he, -⟩
    · exact hd
    · exact h.tended e he
  · rw [hhost] at he
    rcases Host.mem_put he with rfl | ⟨he, hne⟩
    · exact hready hto
    · exact hl e.id hne (h.lined e he hto)

/-! ## Connections -/

theorem perform (h : Watched s.ready s) {x : Connection.Deed σ}
    (hx : ∀ c, s.host.find? id = some c → x.Proceeds c) :
    Watched (s.perform id x).ready (s.perform id x) := by
  cases hf : s.host.find? id with
  | none =>
    rw [perform_of_none hf]
    exact h
  | some c =>
    obtain ⟨hc, rfl⟩ := Host.find?_eq_some hf
    have hid := c.id_perform x
    rw [perform_of_some hf]
    refine h.put rfl rfl ((h.tended c hc).perform (hx c hf)) (fun hready => ?_)
      fun id hne hmem => ?_
    · rw [hid]
      split
      · exact List.mem_append_right _ (List.mem_singleton_self _)
      next hwas =>
        have hbefore : c.sender = .ready := by
          by_contra hne
          exact hwas ⟨hne, hready⟩
        exact h.lined c hc hbefore
    · split
      · exact List.mem_append_left _ hmem
      · exact hmem

omit [Endpoint σ] in
theorem create (h : Watched s.ready s) {endpoint : σ} {config : Config}
    (hcreate : s.create endpoint config = .ok (id, s')) : Watched s'.ready s' := by
  unfold Session.create Host.create at hcreate
  split at hcreate
  · cases hcreate
  next valid =>
    obtain ⟨-, rfl⟩ := Prod.mk.inj (Except.ok.inj hcreate)
    refine ⟨h.runtime, fun c hc => ?_, fun c hc hready => ?_⟩
    · rcases List.mem_append.mp hc with hc | hc
      · exact h.tended c hc
      · obtain rfl := List.mem_singleton.mp hc
        exact Connection.tended_created _ _ endpoint
    · rcases List.mem_append.mp hc with hc | hc
      · exact h.lined c hc hready
      · obtain rfl := List.mem_singleton.mp hc
        cases hready

/-! ## Tasks -/

omit [Endpoint σ] in
theorem wakeTicker (h : Watched l s) : Watched l s.wakeTicker := by
  unfold Session.wakeTicker
  split
  · exact h.calm rfl (.refl _) fun _ hmem => hmem
  · exact h

theorem runTicker (h : Watched l s) : Watched l s.runTicker := by
  unfold Session.runTicker
  split
  · exact h
  · simp only
    split
    · exact wakeTicker (h.calm rfl (s.host.calm_sweep s.now none) fun _ hmem => hmem)
    · exact h.calm rfl (.refl _) fun _ hmem => hmem

/-- A sender that had its turn is not to run any more. -/
theorem runTask {task : Task} (h : Watched (task :: l) s) : Watched l (s.runTask task) := by
  cases task with
  | ticker =>
    have hrest : Watched l s := by
      refine h.calm rfl (.refl _) fun id hmem => ?_
      simpa using hmem
    exact hrest.runTicker
  | sender id =>
    have hother : ∀ other, other ≠ id → Task.sender other ∈ Task.sender id :: l →
        Task.sender other ∈ l := by
      intro other hne hmem
      simpa [hne] using hmem
    rw [runTask_sender]
    cases hf : s.host.find? id with
    | none =>
      rw [perform_of_none hf]
      exact ⟨h.runtime, h.tended, fun c hc hready =>
        hother c.id (Host.id_ne_of_find?_eq_none hf c hc) (h.lined c hc hready)⟩
    | some c =>
      obtain ⟨hc, rfl⟩ := Host.find?_eq_some hf
      have hid := c.id_perform (.senderTurn s.now)
      rw [perform_of_some hf]
      refine h.put rfl rfl ((h.tended c hc).perform trivial)
        (fun hready => absurd hready (c.senderTurn_not_ready s.now)) fun other hne => ?_
      rw [hid] at hne
      exact hother other hne

theorem foldl_runTask (h : Watched l s) : Watched [] (l.foldl Session.runTask s) := by
  induction l generalizing s with
  | nil => exact h
  | cons task l ih => exact ih h.runTask

theorem settle (h : Watched s.ready s) : Watched [] s.settle :=
  foldl_runTask (h.calm rfl (.refl _) fun _ hmem => hmem)

omit [Endpoint σ] in
/-- If no sender is to run, it does not matter which of them can. -/
theorem of_nil (h : Watched [] s) : Watched l s :=
  h.calm rfl (.refl _) fun _ hmem => (by cases hmem)

theorem advance (h : Watched s.ready s) (d : Nat) : Watched [] (s.advance d) := by
  have hlater : Watched [] { s.settle with now := s.settle.now + d } :=
    h.settle.calm rfl (.refl _) fun _ hmem => hmem
  exact hlater.wakeTicker.of_nil.settle

/-! ## Commands -/

omit [Endpoint σ] in
theorem stopTicker (h : Watched s.ready s) : Watched s.stopTicker.ready s.stopTicker :=
  h.calm rfl (.refl _) fun _ hmem => List.mem_filter.mpr ⟨hmem, by simp⟩

omit [Endpoint σ] in
theorem startTicker (h : Watched s.ready s) (interval : Nat) :
    Watched (s.startTicker interval).ready (s.startTicker interval) := by
  unfold Session.startTicker
  simp only
  split
  · exact h.stopTicker.calm rfl (.refl _) fun _ hmem => List.mem_append_left _ hmem
  · exact h.stopTicker

theorem act {x : Command σ} (h : Watched s.ready s) (hx : s.Numbers x) :
    Watched (s.act x).ready (s.act x) := by
  have hcalm : ∀ {s' : Session σ}, s'.runtime = s.runtime → s.host.Calm s'.host →
      s'.ready = s.ready → Watched s'.ready s' := fun hruntime hcalm hready =>
    h.calm hruntime hcalm fun _ hmem => (by rw [hready]; exact hmem)
  cases hdeed : s.deed? x with
  | some about =>
    obtain ⟨id, deed⟩ := about
    rw [act_of_deed? hdeed]
    exact h.perform fun c hf => proceeds_of_numbers h.runtime hx hdeed hf
  | none =>
    cases x with
    | create endpoint config =>
      simp only [Session.act]
      cases hcreate : s.create endpoint config with
      | error e => exact h
      | ok r => exact h.create hcreate
    | destroyRegistered id =>
      simp only [Session.act, Session.destroyRegistered]
      cases hdestroy : s.host.destroy id with
      | error e => exact h
      | ok host => exact hcalm rfl (Host.calm_destroy hdestroy) rfl
    | shutdown => exact hcalm rfl s.host.calm_shutdown rfl
    | sweep => exact hcalm rfl (s.host.calm_sweep s.now none) rfl
    | sweepAround busy => exact hcalm rfl (s.host.calm_sweepAround s.now busy) rfl
    | startTicker interval => exact h.startTicker interval
    | stopTicker => exact h.stopTicker
    | settle => exact h.settle.of_nil
    | advance d => exact (h.advance d).of_nil
    | _ => cases hdeed

end Watched

theorem Reached.watched (h : Reached true Numbers s) : Watched s.ready s := by
  induction h with
  | start now => exact .start now
  | act x h hx ih => exact ih.act hx

/-- As long as there are positions for the input that is read, whatever is done: when the tasks have
settled, each connection has nothing that waits to be sent and no sender, or a sender, the packet
that it waits with may not be sent, and something is in flight. -/
theorem attended_when_settled (h : Reached true Numbers s) :
    s.settle.Attended ∧ (∀ d, (s.advance d).Attended) ∧ (s.Quiet → s.Attended) :=
  ⟨h.watched.settle.attended fun _ => List.not_mem_nil,
    fun d => (h.watched.advance d).attended fun _ => List.not_mem_nil,
    fun hquiet => h.watched.attended hquiet⟩

/-! ### Two letters

Each letter needs a packet of its own, and the window has room for one. -/

def oneByOne : Config := { maxPayload := 1, sendWindow := 1 }

def letters : Session InMemory :=
  (({} : Session InMemory).act (.create { input := [97, 98] } oneByOne)).act (.read 1)

theorem reached_letters : Reached true Numbers letters := by
  refine .act _ (.act _ (.start 0) trivial) ?_
  show (Session.read _ 1).map (·.1) ≠ some (.error .outOfPositions)
  decide +kernel

theorem second_letter_waits : letters.settle.Attended ∧
    letters.settle.host.connections.map (·.destroyed) = [false] ∧
    letters.settle.host.connections.map (·.outbound.queue.size) = [1] :=
  ⟨(attended_when_settled reached_letters).1, by decide +kernel, by decide +kernel⟩

end Session

end ReliableStream
