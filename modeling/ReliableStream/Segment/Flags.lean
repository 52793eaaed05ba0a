/-!
# Control flags

The flags of a segment are a 32-bit word. Three of its bits have names; the others are kept as they
come.
-/

namespace ReliableStream

structure Flags where
  bits : UInt32
  deriving DecidableEq

namespace Flags

def empty : Flags := ⟨0⟩
def ack : Flags := ⟨1⟩
def syn : Flags := ⟨2⟩
def fin : Flags := ⟨4⟩

def union (f g : Flags) : Flags := ⟨f.bits ||| g.bits⟩

instance : OrOp Flags := ⟨union⟩

/-- Every flag of `g` is set in `f`. -/
def contains (f g : Flags) : Bool := f.bits &&& g.bits == g.bits

/-- The names of the named flags that are set. -/
def names (f : Flags) : List String :=
  [("ACK", ack), ("SYN", syn), ("FIN", fin)].filterMap fun (name, flag) =>
    if f.contains flag then some name else none

def describe (f : Flags) : String := "Flags(" ++ "|".intercalate f.names ++ ")"

end Flags

end ReliableStream
