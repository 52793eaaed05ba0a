/-!
# Durations and instants

Both count nanoseconds. A duration is a natural number up to `Duration.longest`; an instant is an
integer, counted from an arbitrary origin.
-/

namespace ReliableStream

namespace Duration

def ofMillis (n : Nat) : Nat := n * 1000000

def ofParts (seconds nanos : Nat) : Nat := seconds * 1000000000 + nanos

/-- The longest duration: 2^64 seconds less a nanosecond. -/
def longest : Nat := ofParts 0xFFFFFFFFFFFFFFFF 999999999

/-- The whole seconds of the duration and the nanoseconds left over. -/
def parts (d : Nat) : Nat × Nat := (d / 1000000000, d % 1000000000)

/-- The duration `factor` times over, if that is still a duration. -/
def times? (d factor : Nat) : Option Nat :=
  if d * factor ≤ longest then some (d * factor) else none

end Duration

namespace Instant

/-- The time from `earlier` to `now`; zero if `earlier` is the later one. -/
def elapsed (earlier now : Int) : Nat := (now - earlier).toNat

/-- The last whole millisecond up to `t`. -/
def wholeMillis (t : Int) : Int := t - t % 1000000

/-- The last instant that a sleep can last until: `2 ^ 64 - 3` milliseconds. -/
def lastAlarm : Int := Duration.ofMillis 0xFFFFFFFFFFFFFFFD

end Instant

end ReliableStream
