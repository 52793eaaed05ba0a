/-!
# Byte strings

Byte strings are lists of bytes. Numbers are written big-endian, the most significant byte first.

* `bigEndian width n`: the last `width` base-256 digits of `n`.
* `ofBigEndian b`: the number that `b` spells. It undoes `bigEndian` up to the width
  (`ofBigEndian_bigEndian`), and `bigEndian` undoes it (`bigEndian_ofBigEndian`).
-/

namespace ReliableStream

abbrev Bytes := List UInt8

/-- The number that `b` spells in base 256, most significant byte first. -/
def ofBigEndian (b : Bytes) : Nat := b.foldl (fun n digit => n * 256 + digit.toNat) 0

/-- The last `width` base-256 digits of `n`, most significant first. -/
def bigEndian : (width n : Nat) → Bytes
  | 0, _ => []
  | width + 1, n => bigEndian width (n / 256) ++ [UInt8.ofNat n]

/-- The number in the `width` bytes of `data` that start at `offset`. -/
def Bytes.field (data : Bytes) (offset width : Nat) : Nat :=
  ofBigEndian ((data.drop offset).take width)

/-- `buffer` with `written` over its first bytes; what does not fit is left out. -/
def Bytes.overwrite (buffer written : Bytes) : Bytes :=
  written.take buffer.length ++ buffer.drop written.length

@[simp] theorem ofBigEndian_nil : ofBigEndian [] = 0 := rfl

@[simp] theorem ofBigEndian_append_singleton (b : Bytes) (d : UInt8) :
    ofBigEndian (b ++ [d]) = ofBigEndian b * 256 + d.toNat := by
  simp [ofBigEndian]

@[simp] theorem length_bigEndian (width n : Nat) : (bigEndian width n).length = width := by
  induction width generalizing n with
  | zero => rfl
  | succ width ih => simp [bigEndian, ih]

theorem ofBigEndian_bigEndian (width n : Nat) :
    ofBigEndian (bigEndian width n) = n % Nat.pow 256 width := by
  show _ = n % 256 ^ width
  induction width generalizing n with
  | zero => simp [bigEndian, Nat.mod_one]
  | succ width ih =>
    have h := Nat.mod_mul (x := n) (a := 256) (b := 256 ^ width)
    rw [← Nat.pow_succ'] at h
    rw [bigEndian, ofBigEndian_append_singleton, ih, UInt8.toNat_ofNat', h]
    omega

theorem ofBigEndian_lt (b : Bytes) : ofBigEndian b < Nat.pow 256 b.length := by
  suffices h : ∀ r : Bytes, ofBigEndian r.reverse < 256 ^ r.length by simpa using h b.reverse
  intro r
  induction r with
  | nil => simp
  | cons d r ih =>
    have hd := d.toNat_lt
    rw [List.reverse_cons, ofBigEndian_append_singleton, List.length_cons, Nat.pow_succ]
    omega

theorem bigEndian_ofBigEndian (b : Bytes) : bigEndian b.length (ofBigEndian b) = b := by
  suffices h : ∀ r : Bytes, bigEndian r.length (ofBigEndian r.reverse) = r.reverse by
    simpa using h b.reverse
  intro r
  induction r with
  | nil => rfl
  | cons d r ih =>
    have hd := d.toNat_lt
    rw [List.reverse_cons, ofBigEndian_append_singleton, List.length_cons, bigEndian,
      show (ofBigEndian r.reverse * 256 + d.toNat) / 256 = ofBigEndian r.reverse by omega, ih]
    congr 2
    apply UInt8.toNat_inj.mp
    rw [UInt8.toNat_ofNat']
    omega

@[simp] theorem Bytes.length_overwrite (buffer written : Bytes) :
    (buffer.overwrite written).length = buffer.length := by
  simp [Bytes.overwrite]
  omega

end ReliableStream
