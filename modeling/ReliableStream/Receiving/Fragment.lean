import ReliableStream.Bytes
import ReliableStream.Queue

/-!
# Fragments of a stream

A fragment is a run of bytes at a position of the stream. Fragments are kept in order of their
positions, one for each position; they may overlap. Most often the place of one is at either
end.

* `put?` stores a fragment, unless one at the same position is at least as long.
* `putIfAbsent` stores a fragment, unless there is one at the same position.
-/

namespace ReliableStream

structure Fragment where
  start : Nat
  bytes : Bytes
  deriving DecidableEq

namespace Fragment

/-- The position after the fragment. -/
def stop (f : Fragment) : Nat := f.start + f.bytes.length

/-- The fragments with `f` at its place in the order; `none` if they hold one at the same position
that is at least as long. -/
def putInto? (f : Fragment) : List Fragment → Option (List Fragment)
  | [] => some [f]
  | g :: rest =>
    if f.start < g.start then some (f :: g :: rest)
    else if g.start < f.start then (putInto? f rest).map (g :: ·)
    else if g.bytes.length < f.bytes.length then some (f :: rest)
    else none

/-- As `putInto?`, for fragments in a queue. -/
def put? (f : Fragment) (fragments : Queue Fragment) : Option (Queue Fragment) :=
  if fragments.head?.all (f.start < ·.start) then some (fragments.pushFront f)
  else if fragments.last?.all (·.start < f.start) then some (fragments.push f)
  else (f.putInto? fragments.toList).map .ofList

/-- The fragments with `f` at its place in the order, or as they are if they hold one at the same
position. -/
def putIntoIfAbsent (f : Fragment) : List Fragment → List Fragment
  | [] => [f]
  | g :: rest =>
    if f.start < g.start then f :: g :: rest
    else if g.start < f.start then g :: putIntoIfAbsent f rest
    else g :: rest

/-- As `putIntoIfAbsent`, for fragments in a queue. -/
def putIfAbsent (f : Fragment) (fragments : Queue Fragment) : Queue Fragment :=
  if fragments.head?.all (f.start < ·.start) then fragments.pushFront f
  else .ofList (f.putIntoIfAbsent fragments.toList)

/-- How many bytes the fragments hold; where they overlap, each copy counts. -/
def totalBytes (fragments : List Fragment) : Nat :=
  fragments.foldl (fun n f => n + f.bytes.length) 0

end Fragment

end ReliableStream
