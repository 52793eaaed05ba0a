import ReliableStream.Bytes
import ReliableStream.Queue

/-!
# An unreliable link

A link loses, corrupts, doubles and delays datagrams. What it does to one is decided by its `Fate`,
which comes from outside, so that what is said about links holds for every outcome of chance.

A delayed datagram is held back and comes out after the next one that is not lost. The link holds
one at a time; while it does, the others are not delayed.
-/

namespace ReliableStream

/-- What happens to a datagram. -/
structure Fate where
  lost : Bool := false
  /-- The number of a bit that is flipped. -/
  flipped : Option Nat := none
  doubled : Bool := false
  /-- To be held back, if no other datagram is. -/
  delayed : Bool := false
  deriving DecidableEq

/-- The datagram with one bit flipped; the number of the bit counts round its end. -/
def flipBit (bit : Nat) (datagram : Bytes) : Bytes :=
  datagram.modify (bit / 8 % datagram.length) (· ^^^ UInt8.ofNat (1 <<< (bit % 8)))

structure Link where
  /-- The datagram that is held back. -/
  held : Option Bytes := none
  deriving DecidableEq

namespace Link

/-- What comes out when `datagram` goes in. -/
def carry (l : Link) (fate : Fate) (datagram : Bytes) : List Bytes × Link :=
  if fate.lost then ([], l)
  else
    let datagram := match fate.flipped with
      | some bit => flipBit bit datagram
      | none => datagram
    let copies := if fate.doubled then 2 else 1
    if fate.delayed && l.held.isNone then
      (List.replicate (copies - 1) datagram, { held := some datagram })
    else (List.replicate copies datagram ++ l.held.toList, { held := none })

/-- What comes out when the datagrams go in one after the other, all with the same fate. -/
def carryAll (l : Link) (fate : Fate) (datagrams : List Bytes) : List Bytes × Link :=
  let step (state : Queue Bytes × Link) (datagram : Bytes) :=
    let (out, l) := state.2.carry fate datagram
    (state.1.pushAll out, l)
  let (out, l) := datagrams.foldl step (.empty, l)
  (out.toList, l)

/-- The datagram that was held back comes out. -/
def flush (l : Link) : Option Bytes × Link := (l.held, { held := none })

end Link

end ReliableStream
