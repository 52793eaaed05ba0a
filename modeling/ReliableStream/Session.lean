import ReliableStream.Host.Sweep

/-!
# Sessions

A session is a host with a clock and the tasks that run beside its caller: the senders of its
connections and a ticker that sweeps the host periodically.

Tasks do not run until the session is told to `settle`. They then take their turns in the order in
which they became ready, and none of them makes another one ready. Time stands still except when the
session is told to `advance` it. The clock wakes a task that sleeps at whole milliseconds only, so a
sweep is made at the first millisecond after it is due. That does not move the sweeps after it: they
are counted from when it was due, unless it was too late. Once the clock is past the last instant
that a sleep can last until, the ticker is always ready.
-/

namespace ReliableStream

/-- A task that can run. -/
inductive Task where
  | sender (id : Nat)
  | ticker
  deriving DecidableEq

/-- The task that sweeps. -/
structure Ticker where
  /-- The time between two sweeps. -/
  interval : Nat
  interval_pos : 0 < interval
  /-- When the next sweep is due; not known until the first one. -/
  deadline : Option Int := none

structure Session (σ : Type) where
  host : Host σ := {}
  now : Int := 0
  /-- There is a runtime for tasks. -/
  runtime : Bool := true
  /-- The tasks that can run, the first to run first. -/
  ready : List Task := []
  ticker : Option Ticker := none

namespace Session

variable {σ : Type}

/-- Lets `op` work on the connection `id`. The connection's sender lines up if it becomes ready. -/
def update {α : Type} (s : Session σ) (id : Nat) (op : Connection σ → α × Connection σ) :
    Option (α × Session σ) :=
  (s.host.find? id).map fun c =>
    let (result, d) := op c
    let woken := c.sender ≠ .ready ∧ d.sender = .ready
    (result, { s with
      host := s.host.put d
      ready := if woken then s.ready ++ [.sender id] else s.ready })

/-- Lets `op` work on the endpoint of the connection `id`. -/
def updateEndpoint {α : Type} (s : Session σ) (id : Nat) (op : σ → α × σ) :
    Option (α × Session σ) :=
  s.update id fun c =>
    let (result, endpoint) := op c.endpoint
    (result, { c with endpoint })

/-- Creates a connection; the result is its id. -/
def create (s : Session σ) (endpoint : σ) (config : Config) : Except Error (Nat × Session σ) :=
  (s.host.create endpoint config).map fun (id, host) => (id, { s with host })

/-- Stops the ticker. -/
def stopTicker (s : Session σ) : Session σ :=
  { s with ticker := none, ready := s.ready.filter (· ≠ .ticker) }

/-- A ticker sweeps every 30 years at least. -/
def longestInterval : Nat := Duration.ofParts (30 * 365 * 86400) 0

/-- Starts a ticker in the place of the one that there was. One that should sweep all the time
never sweeps. -/
def startTicker (s : Session σ) (interval : Nat) : Session σ :=
  let s := s.stopTicker
  if h : 0 < interval then
    { s with
      ticker := some
        { interval := min interval longestInterval
          interval_pos := Nat.lt_min.mpr ⟨h, by decide⟩ }
      ready := s.ready ++ [.ticker] }
  else s

variable [Endpoint σ]

/-- A sleep until `deadline` is over at `now`. -/
def isOver (now deadline : Int) : Bool := min deadline Instant.lastAlarm ≤ Instant.wholeMillis now

/-- The ticker has a sweep that is due. -/
def tickerDue (s : Session σ) : Bool :=
  match s.ticker with
  | none => false
  | some t => t.deadline.any (isOver s.now)

/-- Lines the ticker up if it has a sweep that is due. -/
def wakeTicker (s : Session σ) : Session σ :=
  if s.tickerDue ∧ .ticker ∉ s.ready then { s with ready := s.ready ++ [.ticker] } else s

/-- How late a sweep may be without a delay of those after it. -/
def tickSlack : Nat := Duration.ofMillis 5

/-- When the sweep after one at `now` is due, which was due at `deadline` itself. -/
def nextDeadline (now deadline : Int) (interval : Nat) : Int :=
  if now ≤ deadline + tickSlack then deadline + interval else now + interval

/-- When the first sweep is due that is not due at `now`, of those after one due at `deadline`. If
all of them are, since nothing can sleep that long, it is the first that `now` does not reach. -/
def deadlineAfter (now deadline : Int) (interval : Nat) (pos : 0 < interval) : Int :=
  if isOver now (nextDeadline now deadline interval) ∧ nextDeadline now deadline interval ≤ now then
    deadlineAfter now (nextDeadline now deadline interval) interval pos
  else nextDeadline now deadline interval
termination_by (now - deadline).toNat
decreasing_by
  have : deadline < nextDeadline now deadline interval := by
    unfold nextDeadline
    split <;> omega
  omega

/-- The ticker's turn. The first sweep is due at once. However many sweeps are due, one is made: the
others would come at the same time and find nothing left to do. -/
def runTicker (s : Session σ) : Session σ :=
  match s.ticker with
  | none => s
  | some t =>
    let deadline := t.deadline.getD s.now
    if isOver s.now deadline then
      { s with
        host := (s.host.sweep s.now none).2
        ticker := some
          { t with deadline := some (deadlineAfter s.now deadline t.interval t.interval_pos) }
      }.wakeTicker
    else { s with ticker := some { t with deadline := some deadline } }

/-- A task's turn. -/
def runTask (s : Session σ) : Task → Session σ
  | .sender id =>
    match s.update id fun c => ((), c.senderTurn s.now) with
    | some ((), s) => s
    | none => s
  | .ticker => s.runTicker

/-- Lets the tasks run until none can. -/
def settle (s : Session σ) : Session σ := s.ready.foldl runTask { s with ready := [] }

/-- Settles, lets the time `d` pass, and settles again. -/
def advance (s : Session σ) (d : Nat) : Session σ :=
  let s := s.settle
  { s with now := s.now + d }.wakeTicker.settle

def read (s : Session σ) (id : Nat) : Option (Except Error Unit × Session σ) :=
  s.update id (·.read s.now s.runtime)

def ensureSender (s : Session σ) (id : Nat) : Option (Except Error Unit × Session σ) :=
  s.update id (·.ensureSender s.runtime)

def receive (s : Session σ) (id : Nat) (datagram : Bytes) :
    Option (Except Error Unit × Session σ) :=
  s.update id (·.receive datagram s.now)

def output (s : Session σ) (id : Nat) : Option (Except Error Unit × Session σ) :=
  s.update id (·.output s.now)

/-- A pass of the timer over one connection, at a time of the caller's choice. -/
def timerPass (s : Session σ) (id : Nat) (moment : Int) : Option (TimerOutcome × Session σ) :=
  s.update id (·.timerPass moment false)

def abort (s : Session σ) (id : Nat) (cause : Error) : Option (Unit × Session σ) :=
  s.update id fun c => ((), c.abort cause)

def destroy (s : Session σ) (id : Nat) : Option (Unit × Session σ) :=
  s.update id fun c => ((), c.destroy)

/-- Destroys a connection that must be registered. -/
def destroyRegistered (s : Session σ) (id : Nat) : Except Error (Session σ) :=
  (s.host.destroy id).map fun host => { s with host }

def shutdown (s : Session σ) : Session σ := { s with host := s.host.shutdown }

def sweep (s : Session σ) : SweepTotals × Session σ :=
  let (report, host) := s.host.sweep s.now none
  (report, { s with host })

/-- A sweep with another inside the first datagram that the connection `busy` resends. -/
def sweepAround (s : Session σ) (busy : Nat) : SweepTotals × Option SweepTotals × Session σ :=
  let r := s.host.sweepAround s.now busy
  (r.outer, r.inner, { s with host := r.host })

end Session

end ReliableStream
