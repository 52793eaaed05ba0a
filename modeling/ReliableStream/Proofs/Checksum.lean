import ReliableStream.Checksum

/-!
# Sums of words

* `addWords_append`: the sum of a byte string is the sum of its parts; behind an odd part the words
  are shifted by one byte.
* `addWords_place`: each byte counts for itself or for 256 times that.
* `addWords_bigEndian`: a number of two bytes at an even place counts for itself.
* `foldCarries_spec`: folding keeps the remainder modulo 65535, and makes zero of zero only.
* `checksum_eq_iff`: bytes and their checksum add up to a multiple of 65535.
-/

namespace ReliableStream

variable {data : Bytes}

@[simp] theorem addWords_nil (sum : Nat) : addWords sum [] = sum := rfl

@[simp] theorem addWords_singleton (sum : Nat) (last : UInt8) :
    addWords sum [last] = sum + last.toNat * 256 := rfl

theorem addWords_eq_add (sum : Nat) : ∀ data : Bytes, addWords sum data = sum + addWords 0 data
  | [] => rfl
  | [last] => by simp
  | high :: low :: rest => by
    show addWords (sum + (high.toNat * 256 + low.toNat)) rest =
      sum + addWords (0 + (high.toNat * 256 + low.toNat)) rest
    rw [addWords_eq_add _ rest, addWords_eq_add (0 + _) rest]
    omega

@[simp] theorem addWords_cons_cons (high low : UInt8) (rest : Bytes) :
    addWords 0 (high :: low :: rest) = high.toNat * 256 + low.toNat + addWords 0 rest := by
  show addWords (0 + (high.toNat * 256 + low.toNat)) rest = _
  rw [addWords_eq_add, Nat.zero_add]

/-- Behind an odd number of bytes, a byte that was the high half of a word is the low half. -/
theorem addWords_append : ∀ xs ys : Bytes,
    addWords 0 (xs ++ ys) =
      addWords 0 xs + addWords 0 (List.replicate (xs.length % 2) 0 ++ ys)
  | [], ys => by simp
  | [x], [] => by simp
  | [x], y :: ys => by
    show addWords 0 (x :: y :: ys) = addWords 0 [x] + addWords 0 (0 :: y :: ys)
    simp
    omega
  | x :: x' :: xs, ys => by
    have hlen : (x :: x' :: xs).length % 2 = xs.length % 2 := by
      simp only [List.length_cons]
      omega
    simp only [List.cons_append, addWords_cons_cons, addWords_append xs ys, hlen, Nat.add_assoc]

theorem addWords_append_of_even {xs : Bytes} (h : xs.length % 2 = 0) (ys : Bytes) :
    addWords 0 (xs ++ ys) = addWords 0 xs + addWords 0 ys := by
  rw [addWords_append, h, List.replicate_zero, List.nil_append]

/-- What a byte counts for in the sum. -/
theorem addWords_place (xs ys : Bytes) : ∃ place rest, (place = 1 ∨ place = 256) ∧
    ∀ b : UInt8, addWords 0 (xs ++ b :: ys) = b.toNat * place + rest := by
  rcases Nat.mod_two_eq_zero_or_one xs.length with heven | hodd
  · refine ⟨256, addWords 0 xs + addWords 0 (0 :: ys), .inr rfl, fun b => ?_⟩
    rw [addWords_append_of_even heven]
    cases ys with
    | nil =>
      simp
      omega
    | cons y ys =>
      simp
      omega
  · refine ⟨1, addWords 0 xs + addWords 0 ys, .inl rfl, fun b => ?_⟩
    rw [addWords_append, hodd]
    simp
    omega

/-- A byte that is changed changes the sum, but by less than 65535. -/
theorem addWords_modify (data : Bytes) {i : Nat} {f : UInt8 → UInt8} (h : i < data.length)
    (hf : ∀ b, f b ≠ b) : ∃ change, 0 < change ∧ change < 65535 ∧
      (addWords 0 (data.modify i f) + change = addWords 0 data ∨
        addWords 0 (data.modify i f) = addWords 0 data + change) := by
  obtain ⟨xs, b, ys, rfl, -, hmodify⟩ := List.exists_of_modify f h
  obtain ⟨place, rest, hplace, hsum⟩ := addWords_place xs ys
  have hne : (f b).toNat ≠ b.toNat := fun heq => hf b (UInt8.toNat_inj.mp heq)
  have hlt := (f b).toNat_lt
  have hlt' := b.toNat_lt
  rw [hmodify, hsum, hsum]
  rcases hplace with rfl | rfl
  · rcases Nat.lt_or_gt_of_ne hne with h | h
    · exact ⟨b.toNat - (f b).toNat, by omega, by omega, .inl (by omega)⟩
    · exact ⟨(f b).toNat - b.toNat, by omega, by omega, .inr (by omega)⟩
  · rcases Nat.lt_or_gt_of_ne hne with h | h
    · exact ⟨(b.toNat - (f b).toNat) * 256, by omega, by omega, .inl (by omega)⟩
    · exact ⟨((f b).toNat - b.toNat) * 256, by omega, by omega, .inr (by omega)⟩

/-- Two bytes are a word. -/
theorem addWords_eq_ofBigEndian (h : data.length = 2) : addWords 0 data = ofBigEndian data := by
  match data, h with
  | [high, low], _ => simp [ofBigEndian]

/-- A number of two bytes at an even place is one of the words. -/
theorem addWords_bigEndian {ahead : Bytes} {n : Nat} (heven : ahead.length % 2 = 0)
    (h : n < 65536) (behind : Bytes) :
    addWords 0 (ahead ++ bigEndian 2 n ++ behind) = addWords 0 ahead + n + addWords 0 behind := by
  have hlen : (bigEndian 2 n).length = 2 := length_bigEndian 2 n
  have hword : addWords 0 (bigEndian 2 n) = n := by
    rw [addWords_eq_ofBigEndian hlen, ofBigEndian_bigEndian]
    exact Nat.mod_eq_of_lt h
  rw [List.append_assoc, addWords_append_of_even heven, addWords_append_of_even (by rw [hlen]),
    hword, Nat.add_assoc]

theorem foldCarries_spec (n : Nat) : foldCarries n < 65536 ∧
    foldCarries n % 65535 = n % 65535 ∧ (0 < n → 0 < foldCarries n) := by
  fun_induction foldCarries n with
  | case1 n hlt => exact ⟨hlt, rfl, id⟩
  | case2 n hge ih =>
    obtain ⟨hlt, hmod, hpos⟩ := ih
    exact ⟨hlt, by omega, fun _ => hpos (by omega)⟩

theorem toNat_checksum (data : Bytes) :
    (checksum data).toNat = 65535 - foldCarries (addWords 0 data) := by
  obtain ⟨hlt, -, -⟩ := foldCarries_spec (addWords 0 data)
  rw [checksum, UInt16.toNat_not, UInt16.toNat_ofNat', Nat.mod_eq_of_lt hlt]
  rfl

/-- With two zeros to choose from, the sum of bytes that are not all zero is never the first. -/
theorem checksum_eq_iff {c : UInt16} (h : 0 < addWords 0 data) :
    checksum data = c ↔ c.toNat ≠ 65535 ∧ 65535 ∣ c.toNat + addWords 0 data := by
  obtain ⟨hlt, hmod, hpos⟩ := foldCarries_spec (addWords 0 data)
  have hfold := hpos h
  have hc := c.toNat_lt
  rw [← UInt16.toNat_inj, toNat_checksum]
  omega

end ReliableStream
