import Mathlib.Data.List.Infix
import ReliableStream.Bytes
import ReliableStream.Segment.Basic
import ReliableStream.Sequence

/-!
# Streams

A `Stream` is what one application has written for the other: its bytes, the first one at
`firstPosition`, and whether a FIN follows the last one.

* `Stream.HoldsAt`: the stream holds a piece at a position. A segment that carries such a piece,
  and a FIN at most at the end of the stream, is a `SliceOf` it.
* `Stream.before`: the bytes before a position, which are what an application should have got when
  it is to get that position next (`before_append`).
* `Stream.GrowsTo`: what one stream holds, the other holds too.
* `Item`: what is at a position, a byte or the FIN.
-/

namespace ReliableStream

structure Stream where
  bytes : Bytes := []
  /-- A FIN follows the last byte. -/
  ended : Bool := false

/-- What has a position of its own. -/
inductive Item where
  | byte (b : UInt8)
  | fin
  deriving DecidableEq

namespace Stream

variable {t u : Stream} {p n : Nat} {piece : Bytes} {b : UInt8}

/-- The position after the last byte, which is that of the FIN. -/
def stop (t : Stream) : Nat := firstPosition + t.bytes.length

/-- The position after all that was written, the FIN included. -/
def next (t : Stream) : Nat := t.stop + t.ended.toNat

/-- The byte at a position. -/
def byte? (t : Stream) (p : Nat) : Option UInt8 :=
  if firstPosition ≤ p then t.bytes[p - firstPosition]? else none

/-- The byte or the FIN at a position. -/
def item? (t : Stream) (p : Nat) : Option Item :=
  if t.ended ∧ p = t.stop then some .fin else (t.byte? p).map .byte

/-- The bytes before position `p`. -/
def before (t : Stream) (p : Nat) : Bytes := t.bytes.take (p - firstPosition)

/-- The stream holds `piece` from position `p` on. -/
def HoldsAt (t : Stream) (p : Nat) (piece : Bytes) : Prop :=
  firstPosition ≤ p ∧ piece <+: t.bytes.drop (p - firstPosition)

instance : Decidable (t.HoldsAt p piece) := inferInstanceAs (Decidable (_ ∧ _))

/-- More may be written until the stream has ended. -/
structure GrowsTo (t u : Stream) : Prop where
  bytes : t.bytes <+: u.bytes
  ended : t.ended = true → u = t

theorem GrowsTo.refl (t : Stream) : t.GrowsTo t := ⟨List.prefix_rfl, fun _ => rfl⟩

theorem GrowsTo.trans {v : Stream} (h : t.GrowsTo u) (h' : u.GrowsTo v) : t.GrowsTo v := by
  refine ⟨h.bytes.trans h'.bytes, fun ht => ?_⟩
  obtain rfl := h.ended ht
  exact h'.ended ht

theorem GrowsTo.stop_le (h : t.GrowsTo u) : t.stop ≤ u.stop :=
  Nat.add_le_add_left h.bytes.length_le firstPosition

theorem HoldsAt.mono (h : t.HoldsAt p piece) (hg : t.GrowsTo u) : u.HoldsAt p piece :=
  ⟨h.1, h.2.trans (hg.bytes.drop _)⟩

theorem HoldsAt.stop_le (h : t.HoldsAt p piece) (hne : piece ≠ []) :
    p + piece.length ≤ t.stop := by
  have hlen := h.2.length_le
  have hpos := List.length_pos_iff.mpr hne
  have := h.1
  rw [List.length_drop] at hlen
  unfold stop
  omega

theorem HoldsAt.take (h : t.HoldsAt p piece) (n : Nat) : t.HoldsAt p (piece.take n) :=
  ⟨h.1, (List.take_prefix n piece).trans h.2⟩

theorem HoldsAt.drop (h : t.HoldsAt p piece) (n : Nat) : t.HoldsAt (p + n) (piece.drop n) := by
  have := h.1
  refine ⟨by omega, ?_⟩
  have hd := h.2.drop n
  rwa [List.drop_drop, show p - firstPosition + n = p + n - firstPosition by omega] at hd

/-- The bytes of a piece are those of the stream. -/
theorem HoldsAt.getElem? (h : t.HoldsAt p piece) (hn : n < piece.length) :
    piece[n]? = t.byte? (p + n) := by
  have := h.1
  obtain ⟨rest, hrest⟩ := h.2
  have hb : (t.bytes.drop (p - firstPosition))[n]? = piece[n]? := by
    rw [← hrest, List.getElem?_append_left hn]
  rw [byte?, if_pos (by omega), ← hb, List.getElem?_drop]
  congr 1
  omega

theorem byte?_eq_some (hp : firstPosition ≤ p) (hs : p < t.stop) : ∃ b, t.byte? p = some b := by
  unfold stop at hs
  rw [byte?, if_pos hp]
  exact ⟨_, List.getElem?_eq_getElem (by omega)⟩

theorem lt_stop_of_byte? (h : t.byte? p = some b) : firstPosition ≤ p ∧ p < t.stop := by
  unfold byte? at h
  split at h
  next hp =>
    have := (List.getElem?_eq_some_iff.mp h).1
    exact ⟨hp, by unfold stop; omega⟩
  next => cases h

theorem item?_of_lt (h : p < t.stop) : t.item? p = (t.byte? p).map .byte :=
  if_neg fun hend => Nat.ne_of_lt h hend.2

/-- There is something at every position that was numbered. -/
theorem item?_eq_some (hp : firstPosition ≤ p) (hn : p < t.next) : ∃ i, t.item? p = some i := by
  by_cases hs : p < t.stop
  · obtain ⟨b, hb⟩ := byte?_eq_some hp hs
    exact ⟨.byte b, by rw [item?_of_lt hs, hb]; rfl⟩
  · have hle := t.ended.toNat_le
    unfold next at hn
    have he : t.ended = true := by
      cases he : t.ended with
      | true => rfl
      | false =>
        rw [he] at hn
        simp only [Bool.toNat_false] at hn
        omega
    exact ⟨.fin, if_pos ⟨he, by omega⟩⟩

/-- What an application has got is continued by the piece at the position it is to get next. -/
theorem before_append (h : t.HoldsAt p piece) (hne : piece ≠ []) :
    t.before p ++ piece = t.before (p + piece.length) := by
  have hs := h.stop_le hne
  have := h.1
  obtain ⟨rest, hrest⟩ := h.2
  unfold before
  rw [show p + piece.length - firstPosition = p - firstPosition + piece.length by omega,
    List.take_add, ← hrest, List.take_left]

theorem before_mono (hg : t.GrowsTo u) (hp : p ≤ t.stop) : u.before p = t.before p := by
  obtain ⟨more, hmore⟩ := hg.bytes
  unfold stop at hp
  rw [before, before, ← hmore, List.take_append_of_le_length (by omega)]

theorem before_stop (hp : t.stop ≤ p) : t.before p = t.bytes := by
  unfold stop at hp
  exact List.take_of_length_le (by omega)

end Stream

namespace Segment

variable {t u : Stream} {s : Segment}

/-- The byte or the FIN that the segment has at a position. -/
def item? (s : Segment) (p : Nat) : Option Item :=
  if s.start ≤ p then
    match s.payload[p - s.start]? with
    | some b => some (.byte b)
    | none => if s.hasFin ∧ p = s.start + s.payload.length then some .fin else none
  else none

/-- The segment brings what the stream holds, and a FIN only where the stream ends. -/
structure SliceOf (t : Stream) (s : Segment) : Prop where
  payload : s.payload ≠ [] → t.HoldsAt s.start s.payload
  fin : s.hasFin = true → t.ended = true ∧ s.start + s.payload.length = t.stop

theorem SliceOf.mono (h : s.SliceOf t) (hg : t.GrowsTo u) : s.SliceOf u := by
  refine ⟨fun hne => (h.payload hne).mono hg, fun hf => ?_⟩
  obtain rfl := hg.ended (h.fin hf).1
  exact h.fin hf

end Segment

end ReliableStream
