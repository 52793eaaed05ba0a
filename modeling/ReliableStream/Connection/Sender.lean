import ReliableStream.Connection.Basic

/-!
# The sending end of a connection

* `read` queues all input that the application has, and the FIN after the last of it.
* `ensureSender` makes sure that a task sends what is queued.
* `senderTurn` is that task: it sends until the queue is empty or the window has no room.
-/

namespace ReliableStream

variable {σ : Type} [Endpoint σ]

/-- How reading the application's input ended. -/
inductive Pulled where
  /-- There is nothing more to read now. -/
  | paused
  /-- There will be nothing more to read. -/
  | ended
  /-- A chunk of input could not be queued. -/
  | failed (e : Error)

/-- Queues input until there is no more, all with the same acknowledgment and window. The buffer
keeps what was read into it before. -/
def pull (ackno : UInt32) (window : UInt16) (endpoint : σ) (buffer : Bytes) (out : Outbound) :
    Pulled × σ × Outbound :=
  match Endpoint.read endpoint buffer with
  | (.pending, endpoint) => (.paused, endpoint, out)
  | (.eof, endpoint) => (.ended, endpoint, out)
  | (.failed _, endpoint) => (.ended, endpoint, out)
  | (.data written claimed, endpoint) =>
    let buffer := buffer.overwrite written
    let chunk := buffer.take claimed
    if chunk.isEmpty then (.paused, endpoint, out)
    else
      match _h : (out.setWindow window).queueData chunk ackno with
      | .error e => (.failed e, endpoint, out.setWindow window)
      | .ok (_, queued) => pull ackno window endpoint buffer queued
termination_by lastPosition - out.next
decreasing_by
  have hp := Outbound.next_of_queueData _h
  have hn : (out.setWindow window).next = out.next := rfl
  have hc : 0 < chunk.length := by
    rw [List.length_pos_iff]
    simpa using ‹¬chunk.isEmpty = true›
  omega

namespace Connection

/-- Queues our FIN. -/
def queueFin (c : Connection σ) (now : Int) : Except Error Unit × Connection σ :=
  let outbound := c.outbound.setWindow c.window
  match outbound.queueFin (UInt32.ofNat c.ackno) with
  | .error e => (.error e, { c with outbound })
  | .ok (_, outbound) => { c with outbound }.advance .localFin now

/-- Makes sure that a task sends what is queued; tasks run only if there is a runtime. -/
def ensureSender (c : Connection σ) (runtime : Bool) : Except Error Unit × Connection σ :=
  if c.outbound.queue.isEmpty || c.senderRunning then (.ok (), c)
  else if c.destroyed then (.error (.closed c.id), c)
  else if !runtime then (.error .noRuntime, c)
  else (.ok (), { c with sender := .ready })

/-- Queues all input, and our FIN if that was the last or if reading failed, and has it sent. -/
def read (c : Connection σ) (now : Int) (runtime : Bool) :
    Except Error Unit × Connection σ :=
  if c.destroyed then (.error (.closed c.id), c)
  else if c.outbound.fin.isSome then (.ok (), c)
  else
    let buffer := List.replicate c.config.maxPayload 0
    let (pulled, endpoint, outbound) :=
      pull (UInt32.ofNat c.ackno) c.window c.endpoint buffer c.outbound
    let c := { c with endpoint, outbound }
    match pulled with
    | .failed e => (.error e, c)
    | .paused => c.ensureSender runtime
    | .ended =>
      match c.queueFin now with
      | (.error e, c) => (.error e, c)
      | (.ok (), c) => c.ensureSender runtime

/-- Sends the oldest packet in the queue, if the window has room for it. When the network does not
take the packet, it is resent like one that was lost. -/
def sendNext? (c : Connection σ) (now : Int) : Option (Connection σ) :=
  if c.destroyed then none
  else
    match c.outbound.pop? c.inflight c.config.sendWindow with
    | none => none
    | some (p, outbound) => some { c with
        outbound
        inflight := (c.inflight.insert p now).2
        endpoint := (Endpoint.send c.endpoint p.wire).2 }

theorem queue_length_of_sendNext? {c d : Connection σ} {now : Int}
    (h : c.sendNext? now = some d) :
    c.outbound.queue.toList.length = d.outbound.queue.toList.length + 1 := by
  unfold sendNext? at h
  split at h
  · contradiction
  · split at h
    · contradiction
    next p outbound hp =>
      obtain rfl := Option.some.inj h
      simp [Outbound.queue_of_pop? hp]

/-- Sends what the window has room for. -/
def sendWhileAllowed (c : Connection σ) (now : Int) : Connection σ :=
  match _h : c.sendNext? now with
  | none => c
  | some d => d.sendWhileAllowed now
termination_by c.outbound.queue.toList.length
decreasing_by
  have := queue_length_of_sendNext? _h
  omega

/-- The sender's turn. It ends when the queue is empty, and waits when the window has no room. A
notice that was kept is used up: it would make the sender look once more at a window that nobody
has changed meanwhile. -/
def senderTurn (c : Connection σ) (now : Int) : Connection σ :=
  if c.sender = .ready then
    let c := c.sendWhileAllowed now
    if c.outbound.queue.isEmpty then { c with sender := .stopped }
    else { c with sender := .waiting, permit := false }
  else c

end Connection

end ReliableStream
