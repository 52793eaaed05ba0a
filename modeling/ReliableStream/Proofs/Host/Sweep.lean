import ReliableStream.Host.Sweep
import ReliableStream.Proofs.Connection.Attendance

/-!
# What a host does to its connections

A sweep is passes of the timer over single connections, and a shutdown is the end of one after
another. So what each of these does to a host, all of them do (`related_sweep`, `related_shutdown`).

None of it concerns the senders, whether or not another sweep takes place within a sweep: each
connection of the host afterwards is one of those before, whose sender was left alone (`Host.Calm`).
-/

namespace ReliableStream

namespace Host

variable {σ : Type} {h h₁ h₂ : Host σ} {c d e : Connection σ} {id : Nat}

theorem find?_eq_some (hf : h.find? id = some c) : c ∈ h.connections ∧ c.id = id := by
  refine ⟨List.mem_of_find?_eq_some hf, ?_⟩
  have heq := List.find?_some hf
  simpa using heq

theorem id_ne_of_find?_eq_none (hf : h.find? id = none) : ∀ c ∈ h.connections, c.id ≠ id := by
  intro c hc
  have hne := List.find?_eq_none.mp hf c hc
  simpa using hne

/-- What is put replaces the connections with its id. -/
theorem mem_put (he : e ∈ (h.put d).connections) : e = d ∨ e ∈ h.connections ∧ e.id ≠ d.id := by
  obtain ⟨c, hc, heq⟩ := List.mem_map.mp he
  split at heq
  next => exact .inl heq.symm
  next hne =>
    obtain rfl := heq
    exact .inr ⟨hc, hne⟩

/-! ## One connection after another -/

section Related

variable {R : Host σ → Host σ → Prop} (refl : ∀ h, R h h)
  (trans : ∀ {h₁ h₂ h₃}, R h₁ h₂ → R h₂ h₃ → R h₁ h₃)

include refl trans in
/-- What each turn of a loop does to a host, the loop does. -/
theorem related_foldl {α β : Type} (host : β → Host σ) {f : β → α → β}
    (hf : ∀ b a, R (host b) (host (f b a))) (l : List α) (b : β) :
    R (host b) (host (l.foldl f b)) := by
  induction l generalizing b with
  | nil => exact refl _
  | cons a l ih => exact trans (hf b a) (ih (f b a))

variable [Endpoint σ]

include refl in
theorem related_sweepOne
    (pass : ∀ {h : Host σ} {id c}, h.find? id = some c → ∀ now busy,
      R h (h.put (c.timerPass now busy).2))
    (now : Int) (busy : Option Nat) (state : SweepTotals × Host σ) (id : Nat) :
    R state.2 (sweepOne now busy state id).2 := by
  obtain ⟨totals, h⟩ := state
  unfold sweepOne update
  simp only
  cases hf : h.find? id with
  | none => exact refl h
  | some c => exact pass hf now _

include refl trans in
theorem related_sweep
    (pass : ∀ {h : Host σ} {id c}, h.find? id = some c → ∀ now busy,
      R h (h.put (c.timerPass now busy).2))
    (h : Host σ) (now : Int) (busy : Option Nat) : R h (h.sweep now busy).2 :=
  related_foldl refl trans Prod.snd (related_sweepOne refl pass now busy) h.registered ({}, h)

include refl in
theorem related_destroyConnection
    (put : ∀ {h : Host σ} {id c}, h.find? id = some c → R h (h.put c.destroy))
    (h : Host σ) (id : Nat) : R h (h.destroyConnection id) := by
  unfold destroyConnection
  cases hf : h.find? id with
  | none => exact refl h
  | some c => exact put hf

include refl trans in
theorem related_shutdown
    (put : ∀ {h : Host σ} {id c}, h.find? id = some c → R h (h.put c.destroy)) (h : Host σ) :
    R h h.shutdown :=
  related_foldl refl trans (fun h => h) (related_destroyConnection refl put) h.registered h

theorem eq_of_destroy (hd : h.destroy id = .ok h₁) : h₁ = h.destroyConnection id := by
  unfold destroy get at hd
  split at hd
  · cases hd
    rfl
  · cases hd

end Related

/-! ## The senders -/

/-- The host has become `h'` without the senders of its connections. -/
def Calm (h h' : Host σ) : Prop :=
  ∀ d ∈ h'.connections, ∃ c ∈ h.connections, c.Undisturbed d

theorem Calm.refl (h : Host σ) : h.Calm h := fun d hd => ⟨d, hd, .refl d⟩

theorem Calm.trans (hfirst : h.Calm h₁) (hnext : h₁.Calm h₂) : h.Calm h₂ := by
  intro e he
  obtain ⟨d, hd, hde⟩ := hnext e he
  obtain ⟨c, hc, hcd⟩ := hfirst d hd
  exact ⟨c, hc, hcd.trans hde⟩

theorem calm_put (hf : h.find? id = some c) (hcd : c.Undisturbed d) : h.Calm (h.put d) := by
  intro e he
  rcases mem_put he with rfl | ⟨he, -⟩
  · exact ⟨c, (find?_eq_some hf).1, hcd⟩
  · exact ⟨e, he, .refl e⟩

variable [Endpoint σ]

theorem calm_timerPass (hf : h.find? id = some c) (now : Int) (busy : Bool) :
    h.Calm (h.put (c.timerPass now busy).2) := calm_put hf (c.undisturbed_timerPass now busy)

theorem calm_put_destroy (hf : h.find? id = some c) : h.Calm (h.put c.destroy) :=
  calm_put hf c.undisturbed_destroy

theorem calm_sweep (h : Host σ) (now : Int) (busy : Option Nat) : h.Calm (h.sweep now busy).2 :=
  related_sweep .refl .trans calm_timerPass h now busy

theorem calm_interruptOne (now : Int) (s : Interrupted σ) (id : Nat) :
    s.host.Calm (interruptOne now s id).host := by
  unfold interruptOne
  cases hf : s.host.find? id with
  | none => exact .refl s.host
  | some c =>
    have hcalm := c.undisturbed_timerAction now false
    simp only
    generalize c.timerAction now false = r at hcalm ⊢
    obtain ⟨action, d⟩ := r
    cases action with
    | done outcome => exact calm_put hf hcalm
    | resend wires =>
      have hswept : s.host.Calm ((s.host.put d).sweep now (some id)).2 :=
        (calm_put hf hcalm).trans (calm_sweep _ now (some id))
      simp only
      generalize (s.host.put d).sweep now (some id) = r at hswept ⊢
      obtain ⟨inner, host⟩ := r
      cases hf' : host.find? id with
      | none => exact hswept
      | some e => exact hswept.trans (calm_put hf' (e.undisturbed_sendAll wires))

theorem calm_sweepAround (h : Host σ) (now : Int) (busy : Nat) :
    h.Calm (h.sweepAround now busy).host := by
  unfold sweepAround
  refine related_foldl .refl .trans Interrupted.host (fun s id => ?_) h.registered { host := h }
  split
  · exact calm_interruptOne now s id
  · exact related_sweepOne .refl calm_timerPass now none (s.outer, s.host) id

theorem calm_shutdown (h : Host σ) : h.Calm h.shutdown :=
  related_shutdown .refl .trans calm_put_destroy h

theorem calm_destroy (hd : h.destroy id = .ok h₁) : h.Calm h₁ := by
  rw [eq_of_destroy hd]
  exact related_destroyConnection .refl calm_put_destroy h id

end Host

end ReliableStream
