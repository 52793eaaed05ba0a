import ReliableStream.Receiving.Fragment

/-!
# Storing fragments

The fragments of a buffer are `Sorted`: they are ordered by position, one for each.

* `toList_put?`, `toList_putIfAbsent`: the short cuts that storing takes at the ends of the queue
  make no difference.
* `sorted_of_putInto?`, `mem_of_putInto?`: storing keeps the order and brings in nothing but the new
  fragment.
* `exists_putInto?`: what is stored is the new fragment and the old ones, but for one that makes way
  for it; so positions are covered and fragments begin where they did or where the new one does.
* `putInto?_eq_none_iff`: a fragment is not stored exactly if one at its position reaches as far.
* `mem_putIntoIfAbsent`: a fragment that is stored only if its position is free.
-/

namespace ReliableStream.Fragment

variable {f g : Fragment} {l m : List Fragment} {q : Queue Fragment} {p : Nat}

/-- Ordered by position, with one fragment at each. -/
def Sorted (l : List Fragment) : Prop := l.Pairwise (·.start < ·.start)

/-- Position `p` lies in the fragment. -/
def Covers (f : Fragment) (p : Nat) : Prop := f.start ≤ p ∧ p < f.stop

/-- What the fragment holds from position `p` on. -/
def leftAt (f : Fragment) (p : Nat) : Fragment := ⟨p, f.bytes.drop (p - f.start)⟩

@[simp] theorem leftAt_start (f : Fragment) (p : Nat) : (f.leftAt p).start = p := rfl

theorem leftAt_stop (h : f.start ≤ p) (h' : p ≤ f.stop) : (f.leftAt p).stop = f.stop := by
  unfold stop leftAt at *
  simp only [List.length_drop]
  omega

theorem start_le_stop (f : Fragment) : f.start ≤ f.stop := Nat.le_add_right _ _

theorem start_lt_stop (h : f.bytes ≠ []) : f.start < f.stop :=
  Nat.lt_add_of_pos_right (List.length_pos_iff.mpr h)

/-! ## Storing unless there is a longer one -/

theorem putInto?_of_lt (h : ∀ g ∈ l, g.start < f.start) : f.putInto? l = some (l ++ [f]) := by
  induction l with
  | nil => rfl
  | cons g l ih =>
    have hg := h g (.head l)
    rw [putInto?, if_neg (by omega), if_pos hg, ih fun x hx => h x (.tail g hx)]
    rfl

theorem mem_of_putInto? (h : f.putInto? l = some m) : ∀ x ∈ m, x = f ∨ x ∈ l := by
  induction l generalizing m with
  | nil =>
    obtain rfl : [f] = m := Option.some.inj h
    simp
  | cons g l ih =>
    unfold putInto? at h
    split at h
    · obtain rfl := Option.some.inj h
      simp
    · split at h
      · obtain ⟨m', hm', rfl⟩ := Option.map_eq_some_iff.mp h
        intro x hx
        rcases List.mem_cons.mp hx with rfl | hx
        · exact .inr (.head l)
        · exact (ih hm' x hx).imp_right (.tail g)
      · split at h
        · obtain rfl := Option.some.inj h
          intro x hx
          rcases List.mem_cons.mp hx with rfl | hx
          · exact .inl rfl
          · exact .inr (.tail g hx)
        · cases h

theorem sorted_of_putInto? (hs : Sorted l) (h : f.putInto? l = some m) : Sorted m := by
  induction l generalizing m with
  | nil =>
    obtain rfl : [f] = m := Option.some.inj h
    exact List.pairwise_singleton ..
  | cons g l ih =>
    obtain ⟨hg, hl⟩ := List.pairwise_cons.mp hs
    unfold putInto? at h
    split at h
    next hlt =>
      obtain rfl := Option.some.inj h
      refine List.pairwise_cons.mpr ⟨fun x hx => ?_, hs⟩
      rcases List.mem_cons.mp hx with rfl | hx
      · exact hlt
      · exact Nat.lt_trans hlt (hg x hx)
    next hlt =>
      split at h
      next hgt =>
        obtain ⟨m', hm', rfl⟩ := Option.map_eq_some_iff.mp h
        refine List.pairwise_cons.mpr ⟨fun x hx => ?_, ih hl hm'⟩
        rcases mem_of_putInto? hm' x hx with rfl | hx
        · exact hgt
        · exact hg x hx
      next hgt =>
        split at h
        · obtain rfl := Option.some.inj h
          refine List.pairwise_cons.mpr ⟨fun x hx => ?_, hl⟩
          have := hg x hx
          omega
        · cases h

/-- What holds of a fragment if it holds of the one that makes way for it holds of one that was
stored if it did of one before, or holds of the new one. -/
theorem exists_putInto? {P : Fragment → Prop} (h : f.putInto? l = some m)
    (hP : ∀ g, g.start = f.start → g.stop ≤ f.stop → P g → P f) :
    (∃ g ∈ m, P g) ↔ P f ∨ ∃ g ∈ l, P g := by
  induction l generalizing m with
  | nil =>
    obtain rfl : [f] = m := Option.some.inj h
    simp
  | cons g l ih =>
    unfold putInto? at h
    split at h
    · obtain rfl := Option.some.inj h
      simp only [List.mem_cons, exists_eq_or_imp]
    next hlt =>
      split at h
      · obtain ⟨m', hm', rfl⟩ := Option.map_eq_some_iff.mp h
        simp only [List.mem_cons, exists_eq_or_imp, ih hm']
        exact or_left_comm
      next hgt =>
        split at h
        next hlen =>
          obtain rfl := Option.some.inj h
          have hg : P g → P f := hP g (by omega) (by unfold stop; omega)
          simp only [List.mem_cons, exists_eq_or_imp]
          rw [← or_assoc, or_iff_left_of_imp hg]
        · cases h

theorem covers_putInto? (h : f.putInto? l = some m) :
    (∃ g ∈ m, g.Covers p) ↔ f.Covers p ∨ ∃ g ∈ l, g.Covers p :=
  exists_putInto? h fun g hstart hstop hp =>
    ⟨by rw [← hstart]; exact hp.1, Nat.lt_of_lt_of_le hp.2 hstop⟩

/-- Where fragments begin, they still do, and the new one begins where it is put. -/
theorem starts_putInto? (h : f.putInto? l = some m) :
    (∃ g ∈ m, g.start = p) ↔ f.start = p ∨ ∃ g ∈ l, g.start = p :=
  exists_putInto? h fun _ hstart _ hp => hstart.symm.trans hp

/-- One of the fragments begins at `p` and reaches up to `n`. -/
def Spans (l : List Fragment) (p n : Nat) : Prop := ∃ f ∈ l, f.start = p ∧ n ≤ f.stop

theorem spans_putInto? {n : Nat} (h : f.putInto? l = some m) :
    Spans m p n ↔ (f.start = p ∧ n ≤ f.stop) ∨ Spans l p n :=
  exists_putInto? h fun _ hstart hstop hp => ⟨hstart.symm.trans hp.1, Nat.le_trans hp.2 hstop⟩

/-- A fragment is not stored exactly if one that begins there reaches as far. -/
theorem putInto?_eq_none_iff (hs : Sorted l) :
    f.putInto? l = none ↔ Spans l f.start f.stop := by
  unfold Spans
  induction l with
  | nil => simp [putInto?]
  | cons g l ih =>
    obtain ⟨hg, hl⟩ := List.pairwise_cons.mp hs
    simp only [List.mem_cons, exists_eq_or_imp]
    unfold putInto?
    split
    next hlt =>
      refine iff_of_false (by simp) ?_
      rintro (⟨heq, -⟩ | ⟨x, hx, heq, -⟩)
      · omega
      · have := hg x hx
        omega
    next hlt =>
      split
      next hgt =>
        rw [Option.map_eq_none_iff, ih hl]
        exact (or_iff_right fun h => by omega).symm
      next hgt =>
        have hsame : g.start = f.start := by omega
        have hrest : ¬ ∃ x ∈ l, x.start = f.start ∧ f.stop ≤ x.stop := by
          rintro ⟨x, hx, heq, -⟩
          have := hg x hx
          omega
        rw [or_iff_left hrest]
        unfold stop
        split
        · exact iff_of_false (by simp) (by omega)
        · exact iff_of_true rfl (by omega)

theorem covers_of_putInto?_eq_none (hs : Sorted l) (h : f.putInto? l = none) (hp : f.Covers p) :
    ∃ g ∈ l, g.Covers p := by
  obtain ⟨g, hg, hstart, hstop⟩ := (putInto?_eq_none_iff hs).mp h
  exact ⟨g, hg, by rw [Covers, hstart]; exact ⟨hp.1, Nat.lt_of_lt_of_le hp.2 hstop⟩⟩

/-- The first of the fragments has the smallest position. -/
theorem Sorted.lt_start (hs : Sorted l) (h : ∀ g ∈ l.head?, p < g.start) :
    ∀ g ∈ l, p < g.start := by
  cases l with
  | nil => simp
  | cons g rest =>
    have hg : p < g.start := h g rfl
    intro x hx
    rcases List.mem_cons.mp hx with rfl | hx
    · exact hg
    · exact Nat.lt_trans hg ((List.pairwise_cons.mp hs).1 x hx)

theorem Sorted.head?_eq (hs : Sorted l) (hf : f ∈ l) (h : ∀ g ∈ l, f.start ≤ g.start) :
    l.head? = some f := by
  cases l with
  | nil => cases hf
  | cons g rest =>
    rcases List.mem_cons.mp hf with rfl | hf
    · rfl
    · have := (List.pairwise_cons.mp hs).1 f hf
      have := h g (.head rest)
      omega

/-- The last of the fragments has the largest position. -/
theorem Sorted.le_last (hs : Sorted l) (hg : l.getLast? = some g) :
    ∀ x ∈ l, x.start ≤ g.start := by
  obtain ⟨init, rfl⟩ := List.getLast?_eq_some_iff.mp hg
  intro x hx
  rcases List.mem_append.mp hx with hx | hx
  · exact Nat.le_of_lt ((List.pairwise_append.mp hs).2.2 x hx g (by simp))
  · obtain rfl := List.mem_singleton.mp hx
    exact Nat.le_refl _

theorem toList_put? (hs : Sorted q.toList) :
    (f.put? q).map Queue.toList = f.putInto? q.toList := by
  unfold put?
  split
  next h =>
    simp only [Queue.head?_eq] at h
    cases hq : q.toList with
    | nil => simp [putInto?, hq]
    | cons g l =>
      rw [hq] at h
      have hlt : f.start < g.start := by simpa using h
      simp [putInto?, hq, hlt]
  next =>
    split
    next h =>
      simp only [Queue.last?_eq] at h
      rw [putInto?_of_lt, Option.map_some, Queue.toList_push]
      intro x hx
      obtain ⟨g, hg⟩ := Option.isSome_iff_exists.mp
        (List.getLast?_isSome.mpr (List.ne_nil_of_mem hx))
      rw [hg] at h
      have hlt : g.start < f.start := by simpa using h
      exact Nat.lt_of_le_of_lt (hs.le_last hg x hx) hlt
    next =>
      rw [Option.map_map]
      exact Option.map_id'

/-! ## Storing if the position is free -/

theorem toList_putIfAbsent (f : Fragment) (q : Queue Fragment) :
    (f.putIfAbsent q).toList = f.putIntoIfAbsent q.toList := by
  unfold putIfAbsent
  split
  next h =>
    simp only [Queue.head?_eq] at h
    cases hq : q.toList with
    | nil => simp [putIntoIfAbsent, hq]
    | cons g l =>
      rw [hq] at h
      have hlt : f.start < g.start := by simpa using h
      simp [putIntoIfAbsent, hq, hlt]
  next => rfl

theorem mem_putIntoIfAbsent (hs : Sorted l) :
    g ∈ f.putIntoIfAbsent l ↔ g ∈ l ∨ g = f ∧ ∀ x ∈ l, x.start ≠ f.start := by
  induction l with
  | nil => simp [putIntoIfAbsent]
  | cons y l ih =>
    obtain ⟨hy, hl⟩ := List.pairwise_cons.mp hs
    unfold putIntoIfAbsent
    split
    next hlt =>
      have hfree : ∀ x ∈ y :: l, x.start ≠ f.start := by
        intro x hx
        rcases List.mem_cons.mp hx with rfl | hx
        · omega
        · have := hy x hx
          omega
      rw [List.mem_cons, or_comm]
      exact or_congr_right (and_iff_left hfree).symm
    next =>
      split
      next hgt =>
        rw [List.mem_cons, ih hl, List.mem_cons, or_assoc]
        have : y.start ≠ f.start := by omega
        simp [this]
      next =>
        have : y.start = f.start := by omega
        simp [this]

theorem sorted_putIntoIfAbsent (hs : Sorted l) : Sorted (f.putIntoIfAbsent l) := by
  induction l with
  | nil => exact List.pairwise_singleton ..
  | cons y l ih =>
    obtain ⟨hy, hl⟩ := List.pairwise_cons.mp hs
    unfold putIntoIfAbsent
    split
    next hlt =>
      refine List.pairwise_cons.mpr ⟨fun x hx => ?_, hs⟩
      rcases List.mem_cons.mp hx with rfl | hx
      · exact hlt
      · exact Nat.lt_trans hlt (hy x hx)
    next =>
      split
      next hgt =>
        refine List.pairwise_cons.mpr ⟨fun x hx => ?_, ih hl⟩
        rcases (mem_putIntoIfAbsent hl).mp hx with hx | ⟨rfl, -⟩
        · exact hy x hx
        · exact hgt
      next => exact hs

/-- In front of all others the position is free. -/
theorem putIntoIfAbsent_of_lt (h : ∀ x ∈ l, f.start < x.start) :
    f.putIntoIfAbsent l = f :: l := by
  cases l with
  | nil => rfl
  | cons y l => rw [putIntoIfAbsent, if_pos (h y (.head l))]

end ReliableStream.Fragment
