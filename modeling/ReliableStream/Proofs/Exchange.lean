import ReliableStream.Proofs.Connection.Traffic

/-!
# Two connections and the network between them

Two connections are `Linked` if they were created and since then each has made its moves, in any
order, where it got from the network only datagrams that the other one had sent, whenever and as
often as the network liked, and datagrams that are no segments. Their applications and the network
may do what they want (`Deed.adjust`).

* `Exchange a b`: what may become of the two from `a` and `b` on, move by move.
* `Exchange.rule`: what every step on either side keeps holds to the end of an exchange.
-/

namespace ReliableStream

namespace Connection

variable {σ τ : Type} [Endpoint σ] [Endpoint τ]

/-- The datagram that is received, if one is, was `sent` by the peer, or is no segment. What happens
outside does not touch the record. -/
def Deed.Allowed (sent : List Bytes) : Deed (Recorded σ) → Prop
  | .receive datagram _ => datagram ∈ sent ∨ ∃ e, Segment.decode datagram = .error e
  | .adjust change => ∀ e, Recorded.SameRecord e (change e)
  | _ => True

/-- As for deeds. Nothing is received when a packet is sent. -/
def Move.Allowed (sent : List Bytes) : Move (Recorded σ) → Prop
  | .deed x => x.Allowed sent
  | .sendNext _ => True

/-- The segment was sent. -/
def SentAs (sent : List Bytes) (s : Segment) : Prop :=
  ∃ datagram ∈ sent, Segment.decode datagram = .ok s

namespace Move.Allowed

variable {m : Move (Recorded σ)} {sent : List Bytes}

omit [Endpoint σ] in
/-- What is heard was sent. -/
theorem sentAs (h : m.Allowed sent) : ∀ s, m.grant.hears s → SentAs sent s := by
  intro s hs
  cases m with
  | sendNext now => cases hs
  | deed x =>
    cases x with
    | receive datagram now =>
      rcases h with hmem | ⟨e, he⟩
      · exact ⟨datagram, hmem, hs⟩
      · rw [show Segment.decode datagram = .ok s from hs] at he
        cases he
    | _ => cases hs

omit [Endpoint σ] in
theorem sparesRecord (h : m.Allowed sent) : m.SparesRecord := by
  cases m with
  | sendNext now => trivial
  | deed x =>
    cases x with
    | adjust change => exact h
    | _ => trivial

end Move.Allowed

omit [Endpoint σ] in
/-- A sender's turn has nothing to do with the network's deliveries. -/
theorem Move.allowed_of_isTurn {m : Move (Recorded σ)} (h : m.isTurn = true)
    (sent : List Bytes) : m.Allowed sent := by
  cases m with
  | sendNext now => trivial
  | deed x =>
    cases x with
    | senderTurn now => trivial
    | _ => cases h

/-! ## Exchanges -/

/-- From `a` and `b` on the two may come to be `a'` and `b'`. -/
inductive Exchange (a : Connection (Recorded σ)) (b : Connection (Recorded τ)) :
    Connection (Recorded σ) → Connection (Recorded τ) → Prop
  | start : Exchange a b a b
  | left {a' : Connection (Recorded σ)} {b' : Connection (Recorded τ)} {m : Move (Recorded σ)} :
      Exchange a b a' b' → m.Allowed b'.endpoint.sent → Exchange a b (a'.move m) b'
  | right {a' : Connection (Recorded σ)} {b' : Connection (Recorded τ)} {m : Move (Recorded τ)} :
      Exchange a b a' b' → m.Allowed a'.endpoint.sent → Exchange a b a' (b'.move m)

/-- The two were created, and have had to do with each other since. -/
inductive Linked (a : Connection (Recorded σ)) (b : Connection (Recorded τ)) : Prop
  | intro (id id' : Nat) {config config' : Config} (valid : config.Valid) (valid' : config'.Valid)
      (inner : σ) (inner' : τ) :
      Exchange (created id config valid { inner }) (created id' config' valid' { inner := inner' })
        a b → Linked a b

variable {a a' : Connection (Recorded σ)} {b b' : Connection (Recorded τ)}

namespace Linked

theorem created (id id' : Nat) {config config' : Config} (valid : config.Valid)
    (valid' : config'.Valid) (inner : σ) (inner' : τ) :
    Linked (Connection.created id config valid { inner })
      (Connection.created id' config' valid' { inner := inner' }) :=
  ⟨id, id', valid, valid', inner, inner', .start⟩

theorem left {m : Move (Recorded σ)} (h : Linked a b) (hm : m.Allowed b.endpoint.sent) :
    Linked (a.move m) b := by
  obtain ⟨id, id', valid, valid', inner, inner', hexchange⟩ := h
  exact ⟨id, id', valid, valid', inner, inner', hexchange.left hm⟩

theorem right {m : Move (Recorded τ)} (h : Linked a b) (hm : m.Allowed a.endpoint.sent) :
    Linked a (b.move m) := by
  obtain ⟨id, id', valid, valid', inner, inner', hexchange⟩ := h
  exact ⟨id, id', valid, valid', inner, inner', hexchange.right hm⟩

end Linked

/-- What every step on either side keeps, whatever happens inside of the endpoints, holds to the end
of an exchange. -/
theorem Exchange.rule {I : Connection (Recorded σ) → Connection (Recorded τ) → Prop}
    (left : ∀ {g : Grant} {a a' : Connection (Recorded σ)} {b : Connection (Recorded τ)},
      (∀ s, g.hears s → SentAs b.endpoint.sent s) → Step g a a' → I a b → I a' b)
    (right : ∀ {g : Grant} {a : Connection (Recorded σ)} {b b' : Connection (Recorded τ)},
      (∀ s, g.hears s → SentAs a.endpoint.sent s) → Step g b b' → I a b → I a b')
    (adjust_left : ∀ {a : Connection (Recorded σ)} {b : Connection (Recorded τ)} (inner : σ),
      I a b → I { a with endpoint := { a.endpoint with inner } } b)
    (adjust_right : ∀ {a : Connection (Recorded σ)} {b : Connection (Recorded τ)} (inner : τ),
      I a b → I a { b with endpoint := { b.endpoint with inner } })
    (h : Exchange a b a' b') (hI : I a b) : I a' b' := by
  induction h with
  | start => exact hI
  | @left a' b' m _ hm ih =>
    rcases move_steps a' hm.sparesRecord with hsteps | ⟨inner, heq⟩
    · exact hsteps.keeps (I := fun a => I a b') (fun hstep hIa => left hm.sentAs hstep hIa) ih
    · rw [heq]
      exact adjust_left inner ih
  | @right a' b' m _ hm ih =>
    rcases move_steps b' hm.sparesRecord with hsteps | ⟨inner, heq⟩
    · exact hsteps.keeps (I := fun b => I a' b) (fun hstep hIb => right hm.sentAs hstep hIb) ih
    · rw [heq]
      exact adjust_right inner ih

end Connection

end ReliableStream
