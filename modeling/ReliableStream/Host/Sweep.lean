import ReliableStream.Host.Basic

/-!
# Sweeps

A sweep is one pass of the timer over the connections that are registered when it begins.

* `sweep` is a plain one, with at most one connection whose packets in flight are in use.
* `sweepAround` is one that another interrupts: the whole inner sweep takes place within the first
  datagram that the outer one resends for a given connection, which is in use for that time.
-/

namespace ReliableStream

/-- What a sweep did. -/
structure SweepTotals where
  /-- Packets that were resent. -/
  retransmitted : Nat := 0
  /-- Connections that were in use. -/
  skipped : Nat := 0
  /-- Connections that were given up or had lingered long enough. -/
  tornDown : Nat := 0
  deriving DecidableEq

/-- The report with one more outcome. -/
def SweepTotals.count (r : SweepTotals) : TimerOutcome → SweepTotals
  | .idle => r
  | .skipped => { r with skipped := r.skipped + 1 }
  | .retransmitted n => { r with retransmitted := r.retransmitted + n }
  | .dead .. | .lingerExpired => { r with tornDown := r.tornDown + 1 }

namespace Host

variable {σ : Type} [Endpoint σ]

/-- The timer's pass over the connection `id`. -/
def sweepOne (now : Int) (busy : Option Nat) (state : SweepTotals × Host σ) (id : Nat) :
    SweepTotals × Host σ :=
  let (report, h) := state
  match h.update id (·.timerPass now (busy == some id)) with
  | some (outcome, h) => (report.count outcome, h)
  | none => (report, h)

/-- A sweep at `now`. -/
def sweep (h : Host σ) (now : Int) (busy : Option Nat) : SweepTotals × Host σ :=
  h.registered.foldl (sweepOne now busy) ({}, h)

/-- Where an interrupted sweep stands. -/
structure Interrupted (σ : Type) where
  outer : SweepTotals := {}
  /-- The report of the inner sweep, once it has taken place. -/
  inner : Option SweepTotals := none
  host : Host σ

/-- The pass over the connection `id`, with a sweep inside the first datagram it resends. -/
def interruptOne (now : Int) (s : Interrupted σ) (id : Nat) : Interrupted σ :=
  match s.host.find? id with
  | none => s
  | some c =>
    match c.timerAction now false with
    | (.done outcome, c) => { s with outer := s.outer.count outcome, host := s.host.put c }
    | (.resend wires, c) =>
      let (inner, host) := (s.host.put c).sweep now (some id)
      let host := match host.find? id with
        | some c => host.put (c.sendAll wires)
        | none => host
      { outer := s.outer.count (.retransmitted wires.length), inner := some inner, host }

/-- A sweep at `now` during which, within the first datagram that the connection `busy` resends,
there is a whole second sweep. The second report is missing if that connection resends nothing. -/
def sweepAround (h : Host σ) (now : Int) (busy : Nat) : Interrupted σ :=
  h.registered.foldl (fun s id =>
    if id = busy then interruptOne now s id
    else
      let (outer, host) := sweepOne now none (s.outer, s.host) id
      { s with outer, host }) { host := h }

end Host

end ReliableStream
