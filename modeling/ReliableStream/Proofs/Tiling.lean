/-!
# Tilings

`Tiles start stop p l q`: the items `l` lie behind one another, without a gap and without an
overlap, from position `p` up to position `q`. The fragments that wait for delivery, the packets in
flight and the packets that wait to be sent are all kept this way.

* `tiles_append`: two tilings that meet make one.
* `Tiles.mem_bounds`, `Tiles.pairwise`, `Tiles.exists_mem`: where the items of a tiling lie, that
  they are in order, and that they leave no position out.
* `Tiles.dropWhile`, `Tiles.lt_of_mem_dropWhile`: what is left when the items that end early are
  dropped.
-/

namespace ReliableStream

section

variable {α β : Type} {start stop : α → Nat} {p q x : Nat} {l m : List α} {a : α}

/-- The items follow one another, the first from `p` on, the last up to `q`. -/
def Tiles (start stop : α → Nat) : Nat → List α → Nat → Prop
  | p, [], q => p = q
  | p, a :: l, q => start a = p ∧ Tiles start stop (stop a) l q

@[simp] theorem tiles_nil : Tiles start stop p [] q ↔ p = q := Iff.rfl

@[simp] theorem tiles_cons :
    Tiles start stop p (a :: l) q ↔ start a = p ∧ Tiles start stop (stop a) l q := Iff.rfl

theorem tiles_append :
    Tiles start stop p (l ++ m) q ↔ ∃ r, Tiles start stop p l r ∧ Tiles start stop r m q := by
  induction l generalizing p with
  | nil => simp
  | cons a l ih => simp [ih, and_assoc]

/-- A tiling goes on with an item that begins where it ends. -/
theorem Tiles.push (h : Tiles start stop p l q) (ha : start a = q) :
    Tiles start stop p (l ++ [a]) (stop a) :=
  tiles_append.mpr ⟨q, h, ha, rfl⟩

theorem tiles_map {f : β → α} {l : List β} :
    Tiles start stop p (l.map f) q ↔ Tiles (start ∘ f) (stop ∘ f) p l q := by
  induction l generalizing p with
  | nil => simp
  | cons b l ih => simp [ih]

/-- The items lie between the ends of the tiling. -/
theorem Tiles.mem_bounds (h : Tiles start stop p l q) (hle : ∀ a ∈ l, start a ≤ stop a) :
    p ≤ q ∧ ∀ a ∈ l, p ≤ start a ∧ stop a ≤ q := by
  induction l generalizing p with
  | nil => exact ⟨Nat.le_of_eq h, by simp⟩
  | cons a l ih =>
    obtain ⟨ha, hl⟩ := h
    obtain ⟨hq, hmem⟩ := ih hl fun b hb => hle b (.tail a hb)
    have hab := hle a (.head l)
    refine ⟨by omega, fun b hb => ?_⟩
    rcases List.mem_cons.mp hb with rfl | hb
    · omega
    · have := hmem b hb
      omega

theorem Tiles.le (h : Tiles start stop p l q) (hle : ∀ a ∈ l, start a ≤ stop a) : p ≤ q :=
  (h.mem_bounds hle).1

/-- Each item ends before any later one begins. -/
theorem Tiles.pairwise (h : Tiles start stop p l q) (hle : ∀ a ∈ l, start a ≤ stop a) :
    l.Pairwise fun a b => stop a ≤ start b := by
  induction l generalizing p with
  | nil => exact .nil
  | cons a l ih =>
    obtain ⟨-, hl⟩ := h
    have hle' : ∀ b ∈ l, start b ≤ stop b := fun b hb => hle b (.tail a hb)
    exact .cons (fun b hb => ((hl.mem_bounds hle').2 b hb).1) (ih hl hle')

/-- Where a tiling begins is settled by its items and its end. -/
theorem Tiles.begin_unique {p' : Nat} (h : Tiles start stop p l q)
    (h' : Tiles start stop p' l q) : p = p' := by
  cases l with
  | nil => exact h.trans h'.symm
  | cons a l => exact h.1.symm.trans h'.1

/-- Every position between the ends lies in an item. -/
theorem Tiles.exists_mem (h : Tiles start stop p l q) (hp : p ≤ x) (hq : x < q) :
    ∃ a ∈ l, start a ≤ x ∧ x < stop a := by
  induction l generalizing p with
  | nil =>
    have : p = q := h
    omega
  | cons a l ih =>
    obtain ⟨ha, hl⟩ := h
    by_cases hx : x < stop a
    · exact ⟨a, .head l, by omega, hx⟩
    · obtain ⟨b, hb, hbx⟩ := ih hl (by omega)
      exact ⟨b, .tail a hb, hbx⟩

/-- A tiling of nothing has no items. -/
theorem Tiles.eq_nil (h : Tiles start stop p l q) (hlt : ∀ a ∈ l, start a < stop a)
    (hqp : q ≤ p) : l = [] := by
  cases l with
  | nil => rfl
  | cons a l =>
    have := (h.mem_bounds fun b hb => Nat.le_of_lt (hlt b hb)).2 a (.head l)
    have := hlt a (.head l)
    omega

/-- When the items that end by `n` are dropped, the rest is a tiling that begins by `n`, or where
the whole one begins. -/
theorem Tiles.dropWhile (h : Tiles start stop p l q) (n : Nat) (hp : p ≤ n) :
    ∃ r ≤ n, Tiles start stop r (l.dropWhile (stop · ≤ n)) q := by
  induction l generalizing p with
  | nil => exact ⟨p, hp, h⟩
  | cons a l ih =>
    by_cases ha : stop a ≤ n
    · rw [List.dropWhile_cons_of_pos (by simpa using ha)]
      exact ih h.2 ha
    · rw [List.dropWhile_cons_of_neg (by simpa using ha)]
      exact ⟨p, hp, h⟩

/-- What is left then ends after `n`. -/
theorem Tiles.lt_of_mem_dropWhile (h : Tiles start stop p l q) (hle : ∀ a ∈ l, start a ≤ stop a)
    {n : Nat} : ∀ a ∈ l.dropWhile (stop · ≤ n), n < stop a := by
  induction l generalizing p with
  | nil => simp
  | cons a l ih =>
    obtain ⟨-, hl⟩ := h
    have hle' : ∀ b ∈ l, start b ≤ stop b := fun b hb => hle b (.tail a hb)
    by_cases ha : stop a ≤ n
    · rw [List.dropWhile_cons_of_pos (by simpa using ha)]
      exact ih hl hle'
    · rw [List.dropWhile_cons_of_neg (by simpa using ha)]
      intro b hb
      rcases List.mem_cons.mp hb with rfl | hb
      · omega
      · have := (hl.mem_bounds hle').2 b hb
        have := hle' b hb
        omega

end

end ReliableStream
