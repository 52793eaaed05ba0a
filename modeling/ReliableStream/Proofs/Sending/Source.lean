import ReliableStream.Proofs.Segment.Wire
import ReliableStream.Proofs.Stream

/-!
# Where segments come from

A `Source` is a stream as its sender has cut it up: the pieces that it read, one for each data
segment, and whether its FIN is queued. It `Carries` a segment that is made of one of the pieces, or
of the FIN. Such segments never begin inside of one another, whoever repeats or reorders them
(`PieceAt.disjoint`).

* `Source.upTo n`: the stream as far as it was sent, when everything before position `n` was.
* `Carries.sliceOf_upTo`: what was sent is a slice of it.
-/

namespace ReliableStream

structure Source where
  pieces : List Bytes := []
  /-- The FIN is queued. -/
  ended : Bool := false

namespace Source

variable {t u : Source} {p q n m : Nat} {x y : Bytes} {s : Segment}

/-- The stream that the pieces make up. -/
def stream (t : Source) : Stream := { bytes := t.pieces.flatten, ended := t.ended }

/-- The stream as far as it lies before position `n`. -/
def upTo (t : Source) (n : Nat) : Stream where
  bytes := t.pieces.flatten.take (n - firstPosition)
  ended := t.ended && t.stream.stop < n

/-- The piece `x` begins at position `p`. -/
def PieceAt (t : Source) (p : Nat) (x : Bytes) : Prop :=
  ∃ before after, t.pieces = before ++ x :: after ∧ p = firstPosition + before.flatten.length

/-- The segment is made of one of the pieces, or of the FIN. -/
inductive Carries (t : Source) (s : Segment) : Prop
  | data : t.PieceAt s.start s.payload → s.payload ≠ [] → s.hasFin = false → Carries t s
  | fin : t.ended = true → s.start = t.stream.stop → s.payload = [] → s.hasFin = true → Carries t s

/-- Pieces are added until the FIN is queued. -/
structure GrowsTo (t u : Source) : Prop where
  pieces : t.pieces <+: u.pieces
  ended : t.ended = true → u = t

theorem GrowsTo.refl (t : Source) : t.GrowsTo t := ⟨List.prefix_rfl, fun _ => rfl⟩

theorem GrowsTo.stream (h : t.GrowsTo u) : t.stream.GrowsTo u.stream := by
  obtain ⟨more, hmore⟩ := h.pieces
  refine ⟨⟨more.flatten, ?_⟩, fun ht => ?_⟩
  · simp only [Source.stream, ← hmore, List.flatten_append]
  · rw [h.ended ht]

/-! ## Pieces -/

theorem PieceAt.mono (h : t.PieceAt p x) (hg : t.GrowsTo u) : u.PieceAt p x := by
  obtain ⟨before, after, heq, hp⟩ := h
  obtain ⟨more, hmore⟩ := hg.pieces
  exact ⟨before, after ++ more, by rw [← hmore, heq]; simp, hp⟩

theorem PieceAt.holdsAt (h : t.PieceAt p x) : t.stream.HoldsAt p x := by
  obtain ⟨before, after, heq, rfl⟩ := h
  refine ⟨Nat.le_add_right _ _, after.flatten, ?_⟩
  simp only [Source.stream, heq, List.flatten_append, List.flatten_cons, Nat.add_sub_cancel_left,
    List.drop_left]

theorem PieceAt.stop_le (h : t.PieceAt p x) : p + x.length ≤ t.stream.stop := by
  obtain ⟨before, after, heq, rfl⟩ := h
  simp only [Stream.stop, Source.stream, heq, List.flatten_append, List.flatten_cons,
    List.length_append]
  omega

/-- Of two pieces, one ends before the other begins. -/
theorem PieceAt.disjoint (hx : t.PieceAt p x) (hy : t.PieceAt q y) (h : p < q) :
    p + x.length ≤ q := by
  obtain ⟨before, after, heq, rfl⟩ := hx
  obtain ⟨before', after', heq', rfl⟩ := hy
  have hpre : before ++ [x] <+: t.pieces := ⟨after, by rw [heq]; simp⟩
  have hpre' : before' <+: t.pieces := ⟨y :: after', heq'.symm⟩
  rcases Nat.lt_or_ge before.length before'.length with hlt | hge
  · have hle : (before ++ [x]).length ≤ before'.length := by
      simp only [List.length_append, List.length_singleton]
      omega
    obtain ⟨more, rfl⟩ := List.prefix_of_prefix_length_le hpre hpre' hle
    simp only [List.flatten_append, List.flatten_cons, List.flatten_nil, List.length_append]
    omega
  · -- the second piece would not begin after the first
    obtain ⟨more, rfl⟩ :=
      List.prefix_of_prefix_length_le hpre' ((List.prefix_append before [x]).trans hpre) hge
    simp only [List.flatten_append, List.length_append] at h
    omega

/-! ## Segments -/

theorem Carries.mono (h : t.Carries s) (hg : t.GrowsTo u) : u.Carries s := by
  cases h with
  | data hp hne hf => exact .data (hp.mono hg) hne hf
  | fin he hs hp hf =>
    obtain rfl := hg.ended he
    exact .fin he hs hp hf

/-- Where a segment that is carried lies. -/
theorem Carries.bounds (h : t.Carries s) :
    firstPosition ≤ s.start ∧ 0 < s.span ∧ s.start + s.span ≤ t.stream.next := by
  cases h with
  | data hp hne hf =>
    have hpos := List.length_pos_iff.mpr hne
    have hstop := hp.stop_le
    have hfirst := hp.holdsAt.1
    unfold Segment.span Stream.next
    rw [hf]
    simp only [Bool.toNat_false]
    omega
  | fin he hs hp hf =>
    unfold Segment.span Stream.next
    rw [hs, hp, hf, show t.stream.ended = true from he]
    exact ⟨Nat.le_add_right _ _, by simp, by simp⟩

/-- A segment that is carried has at each of its positions what the stream has there. -/
theorem Carries.item?_eq (h : t.Carries s) (hp : s.start ≤ p) (hq : p < s.start + s.span) :
    s.item? p = t.stream.item? p := by
  unfold Segment.span at hq
  rw [Segment.item?, if_pos hp]
  cases h with
  | data hat hne hf =>
    rw [hf] at hq
    simp only [Bool.toNat_false] at hq
    have hstop := hat.stop_le
    have hget := hat.holdsAt.getElem? (n := p - s.start) (by omega)
    rw [show s.start + (p - s.start) = p by omega] at hget
    obtain ⟨b, hb⟩ := Stream.byte?_eq_some (Nat.le_trans hat.holdsAt.1 hp)
      (show p < t.stream.stop by omega)
    rw [Stream.item?_of_lt (by omega), hget, hb]
    rfl
  | fin he hs hnil hf =>
    rw [hnil, hf] at hq
    simp only [List.length_nil, Bool.toNat_true] at hq
    have hps : p = s.start := by omega
    have hstream : t.stream.item? p = some .fin := if_pos ⟨he, by omega⟩
    rw [hstream, hnil]
    simp [hf, hps]

/-! ## The stream as far as it was sent -/

theorem stop_upTo_le (t : Source) (h : firstPosition ≤ n) : (t.upTo n).stop ≤ n := by
  unfold Stream.stop upTo
  simp only [List.length_take]
  omega

theorem upTo_eq_stream (h : t.stream.next ≤ n) : t.upTo n = t.stream := by
  have hstop : firstPosition + t.pieces.flatten.length ≤ n :=
    Nat.le_trans (Nat.le_add_right _ _) h
  have hended : (t.ended && decide (t.stream.stop < n)) = t.ended := by
    cases he : t.ended with
    | false => rfl
    | true =>
      unfold Stream.next at h
      rw [show t.stream.ended = true from he] at h
      exact decide_eq_true h
  unfold upTo
  rw [hended, List.take_of_length_le (by omega)]
  rfl

/-- The FIN is sent when all before it was. -/
theorem ended_upTo (h : (t.upTo n).ended = true) : t.ended = true ∧ t.upTo n = t.stream := by
  simp only [upTo, Bool.and_eq_true, decide_eq_true_eq] at h
  refine ⟨h.1, upTo_eq_stream ?_⟩
  unfold Stream.next
  rw [show t.stream.ended = true from h.1]
  exact h.2

theorem next_upTo_le (t : Source) (h : firstPosition ≤ n) : (t.upTo n).next ≤ n := by
  cases he : (t.upTo n).ended with
  | false =>
    unfold Stream.next
    rw [he]
    exact t.stop_upTo_le h
  | true =>
    have hlt : t.stream.stop < n := by
      simp only [upTo, Bool.and_eq_true, decide_eq_true_eq] at he
      exact he.2
    unfold Stream.next
    rw [he, (ended_upTo he).2]
    exact hlt

theorem upTo_growsTo (hg : t.GrowsTo u) (hn : n ≤ m) : (t.upTo n).GrowsTo (u.upTo m) := by
  refine ⟨?_, fun he => ?_⟩
  · exact (hg.stream.bytes.take _).trans
      (List.take_prefix_take_left (Nat.sub_le_sub_right hn firstPosition))
  · have hlt : t.stream.stop < n := by
      simp only [upTo, Bool.and_eq_true, decide_eq_true_eq] at he
      exact he.2
    obtain ⟨hended, hfull⟩ := ended_upTo he
    obtain rfl := hg.ended hended
    have hnext : u.stream.next ≤ m := by
      unfold Stream.next
      rw [show u.stream.ended = true from hended]
      simp only [Bool.toNat_true]
      omega
    rw [hfull, upTo_eq_stream hnext]

theorem upTo_growsTo_stream (t : Source) (n : Nat) : (t.upTo n).GrowsTo t.stream := by
  refine ⟨List.take_prefix _ _, fun he => ?_⟩
  exact (ended_upTo he).2.symm

/-- What was sent is a slice of the stream as far as it was sent. -/
theorem Carries.sliceOf_upTo (h : t.Carries s) (hn : s.start + s.span ≤ n) :
    s.SliceOf (t.upTo n) := by
  unfold Segment.span at hn
  cases h with
  | data hp hne hf =>
    rw [hf] at hn
    simp only [Bool.toNat_false] at hn
    refine ⟨fun _ => ⟨hp.holdsAt.1, ?_⟩, by simp [hf]⟩
    have hfirst := hp.holdsAt.1
    obtain ⟨rest, hrest⟩ := hp.holdsAt.2
    refine ⟨rest.take (n - s.start - s.payload.length), ?_⟩
    have hdrop : (t.upTo n).bytes.drop (s.start - firstPosition) =
        (t.stream.bytes.drop (s.start - firstPosition)).take (n - s.start) := by
      simp only [upTo, Source.stream, List.drop_take]
      congr 1
      omega
    rw [hdrop, ← hrest, List.take_append,
      List.take_of_length_le (l := s.payload) (by omega)]
  | fin he hs hp hf =>
    rw [hp, hf, hs] at hn
    simp only [List.length_nil, Bool.toNat_true] at hn
    have hfull : t.upTo n = t.stream := by
      refine upTo_eq_stream ?_
      unfold Stream.next
      rw [show t.stream.ended = true from he]
      simp only [Bool.toNat_true]
      omega
    refine ⟨fun hne => absurd hp hne, fun _ => ?_⟩
    rw [hfull, hp]
    exact ⟨he, hs⟩

end Source

end ReliableStream
