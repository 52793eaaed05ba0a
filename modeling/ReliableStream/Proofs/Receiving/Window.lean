import ReliableStream.Proofs.Receiving.Retention

/-!
# The receive window

The window that a buffer advertises, counted from the position that it acknowledges, ends at its
`edge`. Whatever arrives and is delivered, neither the edge nor the end of the window ever moves
back (`Advances`): a segment that had room when it was sent has room whenever it arrives, and is
stored whole (`usable?_of_room`).
-/

namespace ReliableStream.Reassembly

variable {r r' : Reassembly} {s : Segment} {t : Stream}

/-- Where the advertised window ends. -/
def edge (r : Reassembly) : Nat := r.expected + r.window.toNat

theorem edge_eq_add (r : Reassembly) :
    r.edge = r.expected + min (r.windowEnd - r.expected) 65535 := by
  have hlt : min (r.windowEnd - r.expected) 65535 < 65536 := by omega
  unfold edge window
  rw [UInt16.toNat_ofNat', Nat.mod_eq_of_lt hlt]

/-- The header has room for all of the window, so it is advertised up to its end. After a FIN at
the very end nothing is left of it. -/
theorem edge_eq (hle : r.delivered ≤ r.expected) (hcap : r.capacity ≤ 65535) :
    r.edge = max r.windowEnd r.expected := by
  have hend : r.windowEnd ≤ r.delivered + r.capacity := Nat.min_le_left _ _
  rw [edge_eq_add]
  omega

/-- More was received, more was delivered, and the window is as large as before. -/
structure Advances (r r' : Reassembly) : Prop where
  expected_le : r.expected ≤ r'.expected
  delivered_le : r.delivered ≤ r'.delivered
  capacity_eq : r'.capacity = r.capacity

namespace Advances

theorem refl (r : Reassembly) : r.Advances r := ⟨Nat.le_refl _, Nat.le_refl _, rfl⟩

theorem trans {r'' : Reassembly} (h : r.Advances r') (h' : r'.Advances r'') : r.Advances r'' :=
  ⟨Nat.le_trans h.expected_le h'.expected_le, Nat.le_trans h.delivered_le h'.delivered_le,
    h'.capacity_eq.trans h.capacity_eq⟩

theorem windowEnd_le (h : r.Advances r') : r.windowEnd ≤ r'.windowEnd := by
  have := h.delivered_le
  unfold windowEnd
  rw [h.capacity_eq]
  omega

theorem edge_le (h : r.Advances r') : r.edge ≤ r'.edge := by
  have hend := h.windowEnd_le
  have hexp := h.expected_le
  rw [edge_eq_add, edge_eq_add]
  omega

end Advances

@[simp] theorem capacity_insert (r : Reassembly) (s : Segment) :
    (r.insert s).2.capacity = r.capacity := by
  obtain ⟨acked, ahead, expected, fin, heq⟩ := r.insert_eq s
  rw [heq]

@[simp] theorem delivered_insert (r : Reassembly) (s : Segment) :
    (r.insert s).2.delivered = r.delivered := by
  obtain ⟨acked, ahead, expected, fin, heq⟩ := r.insert_eq s
  rw [heq]

theorem Follows.advances_insert (h : r.Follows t) (ht : t.next ≤ lastPosition)
    (hs : s.SliceOf t) : r.Advances (r.insert s).2 := by
  obtain ⟨gone, -, hdelivered, hle, -⟩ := h.insert_acked ht hs
  exact ⟨hle, Nat.le_of_eq hdelivered.symm, capacity_insert r s⟩

theorem Follows.advances_deliver {σ : Type} (take : σ → Bytes → Nat × σ) (sink : σ)
    (h : r.Follows t) (ht : t.next ≤ lastPosition) :
    r.Advances (r.deliver take sink).2.1 := by
  have hpos := (drain_spec take r.acked r.delivered sink).le
  obtain ⟨-, hcases⟩ := h.deliver_cases take sink ht
  simp only at hcases
  rcases hcases with ⟨-, heq, -⟩ | ⟨-, -, -, -, hstop, -, heq⟩
  · rw [heq]
    exact ⟨Nat.le_refl _, hpos, rfl⟩
  · rw [heq]
    refine ⟨Nat.le_refl _, ?_, rfl⟩
    simp only
    omega

/-! ## Room -/

/-- A segment is not beyond a window that it ends in. -/
theorem not_isBeyondWindow (hroom : s.start + s.payload.length ≤ r.windowEnd) :
    r.isBeyondWindow s = false := by
  unfold isBeyondWindow
  simp only [Bool.or_eq_false_iff, decide_eq_false_iff_not, Bool.and_eq_false_imp, beq_iff_eq,
    Bool.not_eq_false', List.isEmpty_iff]
  refine ⟨by omega, fun heq => List.length_eq_zero_iff.mp (by omega)⟩

/-- What ends before the FIN and in the window lies before the limit. -/
theorem Consistent.le_limit {n : Nat} (h : r.Consistent t) (hstop : n ≤ t.stop)
    (hroom : n ≤ r.windowEnd) : n ≤ r.limit := by
  unfold limit
  split
  next fin hfin =>
    rw [(h.fin_eq fin hfin).2]
    omega
  next => exact hroom

/-- Nothing is cut off a segment that ends before the limit: all of it that was not received yet
can be stored. -/
theorem usable?_of_room (hne : s.payload ≠ [])
    (hroom : s.start + s.payload.length ≤ r.limit) :
    r.usable? s =
      if r.expected < s.start + s.payload.length then
        some ⟨max s.start r.expected, s.payload.drop (max s.start r.expected - s.start)⟩
      else none := by
  have hpos := List.length_pos_iff.mpr hne
  unfold usable?
  simp only [Nat.min_eq_left hroom, Nat.add_sub_cancel_left, List.take_length]
  by_cases hlt : r.expected < s.start + s.payload.length
  · rw [if_pos hlt, if_pos ⟨hlt, by omega⟩]
  · rw [if_neg hlt, if_neg fun h => hlt h.1]

/-- A segment that is not beyond the window is fresh or a duplicate. -/
theorem insert_ne_outOfWindow (h : r.isBeyondWindow s = false) :
    (r.insert s).1 ≠ .outOfWindow := by
  unfold insert
  rw [if_neg (by simp [h])]
  simp only
  split
  · simp
  · split <;> simp

end ReliableStream.Reassembly
