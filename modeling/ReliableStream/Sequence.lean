/-!
# Sequence positions

Every byte of a stream, and the FIN that ends it, has a position. Positions are numbered from
`firstPosition` and must fit in 32 bits, so `lastPosition` is the last one a counter can reach.
-/

namespace ReliableStream

/-- The position of the first byte of every stream. -/
def firstPosition : Nat := 1

/-- The largest number a position can have. -/
def lastPosition : Nat := 0xFFFFFFFF

/-- The position after `p`; there is none after the last. -/
def nextPosition (p : Nat) : Nat := min (p + 1) lastPosition

end ReliableStream
