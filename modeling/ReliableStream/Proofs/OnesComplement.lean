import Mathlib.Algebra.Ring.Nat
import ReliableStream.Proofs.Checksum
import ReliableStream.Proofs.Segment.Decoding

/-!
# One's complement sums

In a one's complement sum a carry out of the high bit of a word comes in again at the low one
(`addCarry`). Such a sum and the plain one are `OnesEq`, and so are a number and what is left of it
when its carries are folded. Two different numbers of 16 bits never are, so the carries may as well
come in all together at the end, as they do in a checksum (`checksum_eq_not_onesSum`).

* `checksum32?`: the checksum in words of 32 bits, by sums that fail where they take more, and in
  so many rounds of folding. It does not fail on bytes that a segment can have (`checksum32?_eq`).
* `checksum_sealAt`: once their checksum is written into them, the checksum of the bytes is zero.
* `checksum_verifies`: all this of any such bytes, and of any segment.
-/

namespace ReliableStream

variable {data : Bytes} {m n k rounds offset : Nat}

/-! ## Words -/

/-- The word of two bytes. -/
def word (high low : UInt8) : UInt16 := high.toUInt16 <<< 8 ||| low.toUInt16

/-- The words of the bytes; an odd last byte is followed by a zero. -/
def words : Bytes → List UInt16
  | [] => []
  | [last] => [word last 0]
  | high :: low :: rest => word high low :: words rest

theorem toNat_word (high low : UInt8) : (word high low).toNat = high.toNat * 256 + low.toNat := by
  have hhigh := high.toNat_lt
  have hlow := low.toNat_lt
  rw [word, UInt16.toNat_or, UInt16.toNat_shiftLeft, UInt8.toNat_toUInt16, UInt8.toNat_toUInt16]
  show high.toNat <<< 8 % 2 ^ 16 ||| low.toNat = _
  rw [Nat.mod_eq_of_lt (by rw [Nat.shiftLeft_eq]; omega),
    ← Nat.shiftLeft_add_eq_or_of_lt (i := 8) hlow, Nat.shiftLeft_eq]

theorem addWords_eq_sum : ∀ data : Bytes, addWords 0 data = ((words data).map UInt16.toNat).sum
  | [] => rfl
  | [last] => by simp [words, toNat_word]
  | high :: low :: rest => by simp [words, toNat_word, addWords_eq_sum rest]

theorem addWords_le : ∀ data : Bytes, addWords 0 data ≤ 65535 * ((data.length + 1) / 2)
  | [] => Nat.le_refl _
  | [last] => by
    have hlast := last.toNat_lt
    simp
    omega
  | high :: low :: rest => by
    have hhigh := high.toNat_lt
    have hlow := low.toNat_lt
    have hrest := addWords_le rest
    simp
    omega

/-! ## In 32 bits -/

/-- `a + b`, unless that takes more than 32 bits. -/
def add32? (a b : UInt32) : Option UInt32 :=
  if a.toNat + b.toNat < 0x100000000 then some (a + b) else none

/-- As `addWords`. -/
def addWords32? (sum : UInt32) : Bytes → Option UInt32
  | [] => some sum
  | [last] => add32? sum (last.toUInt32 <<< 8)
  | high :: low :: rest => do addWords32? (← add32? sum (word high low).toUInt32) rest

/-- As `foldCarries`, unless that takes more than so many rounds. -/
def foldCarries32? (rounds : Nat) (n : UInt32) : Option UInt32 :=
  if n >>> 16 = 0 then some n
  else
    match rounds with
    | 0 => none
    | rounds + 1 => do foldCarries32? rounds (← add32? (n &&& 0xffff) (n >>> 16))

/-- As `checksum`. -/
def checksum32? (rounds : Nat) (data : Bytes) : Option UInt16 := do
  let sum ← addWords32? 0 data
  let folded ← foldCarries32? rounds sum
  return ~~~ folded.toUInt16

theorem add32?_ofNat (h : m + n < 0x100000000) :
    add32? (UInt32.ofNat m) (UInt32.ofNat n) = some (UInt32.ofNat (m + n)) := by
  rw [add32?, UInt32.toNat_ofNat', UInt32.toNat_ofNat', Nat.mod_eq_of_lt (by omega),
    Nat.mod_eq_of_lt (by omega), if_pos h, UInt32.ofNat_add]

theorem toUInt32_word (high low : UInt8) :
    (word high low).toUInt32 = UInt32.ofNat (high.toNat * 256 + low.toNat) := by
  have hlt := (word high low).toNat_lt
  apply UInt32.toNat_inj.mp
  rw [UInt16.toNat_toUInt32, UInt32.toNat_ofNat', ← toNat_word, Nat.mod_eq_of_lt (by omega)]

theorem toUInt32_shiftLeft (b : UInt8) : b.toUInt32 <<< 8 = UInt32.ofNat (b.toNat * 256) := by
  have hb := b.toNat_lt
  apply UInt32.toNat_inj.mp
  rw [UInt32.toNat_shiftLeft, UInt8.toNat_toUInt32, UInt32.toNat_ofNat']
  show b.toNat <<< 8 % 0x100000000 = _
  rw [Nat.shiftLeft_eq]

/-- The sum fits if what it comes to does. -/
theorem addWords32?_ofNat (sum : Nat) (data : Bytes) (h : addWords sum data < 0x100000000) :
    addWords32? (UInt32.ofNat sum) data = some (UInt32.ofNat (addWords sum data)) := by
  fun_induction addWords sum data with
  | case1 => rfl
  | case2 sum last => rw [addWords32?, toUInt32_shiftLeft, add32?_ofNat h]
  | case3 sum high low rest ih =>
    have hfits : sum + (high.toNat * 256 + low.toNat) < 0x100000000 := by
      rw [addWords_eq_add] at h
      omega
    rw [addWords32?, toUInt32_word, add32?_ofNat hfits]
    exact ih h

theorem toNat_highHalf (h : n < 0x100000000) : (UInt32.ofNat n >>> 16).toNat = n / 65536 := by
  rw [UInt32.toNat_shiftRight, UInt32.toNat_ofNat', Nat.mod_eq_of_lt h]
  show n >>> 16 = _
  rw [Nat.shiftRight_eq_div_pow]

theorem toNat_lowHalf (h : n < 0x100000000) : (UInt32.ofNat n &&& 0xffff).toNat = n % 65536 := by
  rw [UInt32.toNat_and, UInt32.toNat_ofNat', Nat.mod_eq_of_lt h]
  exact Nat.and_two_pow_sub_one_eq_mod n 16

theorem foldCarries_of_lt (h : n < 65536) : foldCarries n = n := by
  rw [foldCarries, if_pos h]

theorem foldCarries_of_le (h : 65536 ≤ n) :
    foldCarries n = foldCarries (n % 65536 + n / 65536) := by
  rw [foldCarries, if_neg (Nat.not_lt.mpr h)]

theorem foldCarries32?_of_lt (h : n < 65536) :
    foldCarries32? rounds (UInt32.ofNat n) = some (UInt32.ofNat n) := by
  have hnone : UInt32.ofNat n >>> 16 = 0 := by
    apply UInt32.toNat_inj.mp
    rw [toNat_highHalf (by omega), Nat.div_eq_of_lt h, UInt32.toNat_zero]
  unfold foldCarries32?
  rw [if_pos hnone]

/-- One round of folding fits. -/
theorem foldCarries32?_of_le (h : 65536 ≤ n) (hn : n < 0x100000000) :
    foldCarries32? (rounds + 1) (UInt32.ofNat n) =
      foldCarries32? rounds (UInt32.ofNat (n % 65536 + n / 65536)) := by
  have hsome : UInt32.ofNat n >>> 16 ≠ 0 := by
    intro hzero
    have hquot := toNat_highHalf hn
    rw [hzero, UInt32.toNat_zero] at hquot
    omega
  have hadd : add32? (UInt32.ofNat n &&& 0xffff) (UInt32.ofNat n >>> 16) =
      some (UInt32.ofNat (n % 65536 + n / 65536)) := by
    rw [← add32?_ofNat (by omega), ← toNat_lowHalf hn, ← toNat_highHalf hn, UInt32.ofNat_toNat,
      UInt32.ofNat_toNat]
  rw [foldCarries32?, if_neg hsome, hadd]
  rfl

/-- Two rounds suffice: the first leaves a carry of one at most, and then there is room for it. -/
theorem foldCarries32?_ofNat (h : n < 0x100000000) :
    foldCarries32? 2 (UInt32.ofNat n) = some (UInt32.ofNat (foldCarries n)) := by
  have hlast : ∀ rounds m, m ≤ 131070 →
      foldCarries32? (rounds + 1) (UInt32.ofNat m) = some (UInt32.ofNat (foldCarries m)) := by
    intro rounds m hm
    rcases Nat.lt_or_ge m 65536 with hlt | hge
    · rw [foldCarries32?_of_lt hlt, foldCarries_of_lt hlt]
    · have hlt : m % 65536 + m / 65536 < 65536 := by omega
      rw [foldCarries32?_of_le hge (by omega), foldCarries_of_le hge, foldCarries32?_of_lt hlt,
        foldCarries_of_lt hlt]
  rcases Nat.lt_or_ge n 65536 with hlt | hge
  · exact hlast 1 n (by omega)
  · rw [foldCarries32?_of_le hge h, foldCarries_of_le hge]
    exact hlast 0 _ (by omega)

/-- On bytes that a segment can have no sum takes more than 32 bits, and the folding ends. -/
theorem checksum32?_eq (h : data.length ≤ 65535) : checksum32? 2 data = some (checksum data) := by
  have hle := addWords_le data
  have hsum : addWords 0 data < 0x100000000 := by omega
  have hwords : addWords32? 0 data = some (UInt32.ofNat (addWords 0 data)) :=
    addWords32?_ofNat 0 data hsum
  rw [checksum32?, hwords, Option.bind_eq_bind, Option.bind_some, foldCarries32?_ofNat hsum,
    Option.bind_some, UInt32.toUInt16_ofNat']
  rfl

/-! ## The same number -/

/-- The same number in one's complement arithmetic. Zero has two forms there, with no bit set and
with all bits set; only words that are all zero add up to the first. -/
structure OnesEq (m n : Nat) : Prop where
  mod_eq : m % 65535 = n % 65535
  pos_iff : 0 < m ↔ 0 < n

theorem OnesEq.eq (h : OnesEq m n) (hm : m < 65536) (hn : n < 65536) : m = n := by
  obtain ⟨hmod, hpos⟩ := h
  omega

theorem OnesEq.symm (h : OnesEq m n) : OnesEq n m := ⟨h.mod_eq.symm, h.pos_iff.symm⟩

theorem OnesEq.trans (h : OnesEq m n) (h' : OnesEq n k) : OnesEq m k :=
  ⟨h.mod_eq.trans h'.mod_eq, h.pos_iff.trans h'.pos_iff⟩

theorem OnesEq.add (h : OnesEq m n) (k : Nat) : OnesEq (m + k) (n + k) := by
  obtain ⟨hmod, hpos⟩ := h
  exact ⟨by omega, by omega⟩

theorem onesEq_foldCarries (n : Nat) : OnesEq (foldCarries n) n := by
  obtain ⟨-, hmod, hpos⟩ := foldCarries_spec n
  refine ⟨hmod, fun h => Nat.pos_of_ne_zero ?_, hpos⟩
  rintro rfl
  rw [foldCarries_of_lt (by decide)] at h
  exact Nat.lt_irrefl 0 h

/-! ## Carries that come in at once -/

/-- The sum of two words. A carry out of the high bit comes in again at the low one. -/
def addCarry (a b : UInt16) : UInt16 := if a + b < a then a + b + 1 else a + b

/-- The one's complement sum of the words. -/
def onesSum (words : List UInt16) : UInt16 := words.foldl addCarry 0

theorem onesEq_addCarry (a b : UInt16) : OnesEq (addCarry a b).toNat (a.toNat + b.toNat) := by
  have ha := a.toNat_lt
  have hb := b.toNat_lt
  have hsum : (a + b).toNat = (a.toNat + b.toNat) % 65536 := UInt16.toNat_add a b
  have hlt : a + b < a ↔ (a + b).toNat < a.toNat := UInt16.lt_iff_toNat_lt
  unfold addCarry
  split
  next hcarry =>
    rw [hlt] at hcarry
    have hwraps : (a + b).toNat = a.toNat + b.toNat - 65536 := by omega
    have hone : (a + b + 1).toNat = ((a + b).toNat + 1) % 65536 := UInt16.toNat_add (a + b) 1
    rw [hwraps, Nat.mod_eq_of_lt (by omega)] at hone
    exact ⟨by omega, by omega⟩
  next hnone =>
    rw [hlt] at hnone
    exact ⟨by omega, by omega⟩

theorem onesEq_foldl_addCarry (words : List UInt16) (a : UInt16) :
    OnesEq (words.foldl addCarry a).toNat (a.toNat + (words.map UInt16.toNat).sum) := by
  induction words generalizing a with
  | nil => exact ⟨rfl, Iff.rfl⟩
  | cons b words ih =>
    have hstep := (onesEq_addCarry a b).add (words.map UInt16.toNat).sum
    rw [List.foldl_cons, List.map_cons, List.sum_cons, ← Nat.add_assoc]
    exact (ih (addCarry a b)).trans hstep

/-- It makes no difference when the carries come in. -/
theorem foldCarries_eq_onesSum (data : Bytes) :
    foldCarries (addWords 0 data) = (onesSum (words data)).toNat := by
  have hsum : OnesEq (onesSum (words data)).toNat (addWords 0 data) := by
    have hsum := onesEq_foldl_addCarry (words data) 0
    rwa [← addWords_eq_sum, UInt16.toNat_zero, Nat.zero_add] at hsum
  have hsame := (onesEq_foldCarries (addWords 0 data)).trans hsum.symm
  exact hsame.eq (foldCarries_spec _).1 (onesSum (words data)).toNat_lt

theorem checksum_eq_not_onesSum (data : Bytes) : checksum data = ~~~ onesSum (words data) := by
  rw [checksum, foldCarries_eq_onesSum, UInt16.ofNat_toNat]

/-! ## A checksum in its place -/

/-- A field of two bytes at an even position is one of the words. -/
theorem addWords_take (data : Bytes) (offset : Nat) {total : Nat} (heven : offset % 2 = 0)
    (hfield : offset + 2 ≤ total) (htotal : total ≤ data.length) :
    addWords 0 (data.take total) = addWords 0 (data.take offset) + data.field offset 2 +
      addWords 0 ((data.take total).drop (offset + 2)) := by
  have hsplit : data.take total = data.take offset ++ bigEndian 2 (data.field offset 2) ++
      (data.take total).drop (offset + 2) := by
    have hahead : data.take (offset + 2) = (data.take total).take (offset + 2) := by
      rw [List.take_take, Nat.min_eq_left hfield]
    rw [Bytes.take_append_field (by omega), hahead, List.take_append_drop]
  have hlen : (data.take offset).length % 2 = 0 := by
    rw [List.length_take_of_le (by omega), heven]
  conv =>
    lhs
    rw [hsplit]
  exact addWords_bigEndian hlen (data.field_lt offset 2) _

/-- The bytes with their checksum in the two bytes at `offset`. -/
def Bytes.sealAt (data : Bytes) (offset : Nat) : Bytes :=
  data.take offset ++ bigEndian 2 (checksum data).toNat ++ data.drop (offset + 2)

/-- Bytes and their checksum add up to zero, in the form with all bits set. -/
theorem onesEq_checksum_add (data : Bytes) :
    OnesEq ((checksum data).toNat + addWords 0 data) 65535 := by
  obtain ⟨hmod, hpos⟩ := onesEq_foldCarries (addWords 0 data)
  have hlt := (foldCarries_spec (addWords 0 data)).1
  rw [toNat_checksum]
  exact ⟨by omega, by omega⟩

theorem checksum_eq_zero_of_onesEq (h : OnesEq (addWords 0 data) 65535) : checksum data = 0 := by
  have hfold : foldCarries (addWords 0 data) = 65535 :=
    ((onesEq_foldCarries _).trans h).eq (foldCarries_spec _).1 (by decide)
  rw [← UInt16.toNat_inj, toNat_checksum, hfold]
  rfl

theorem checksum_sealAt (heven : offset % 2 = 0) (h : offset + 2 ≤ data.length)
    (hzero : data.field offset 2 = 0) : checksum (data.sealAt offset) = 0 := by
  have hahead : (data.take offset).length % 2 = 0 := by
    rw [List.length_take_of_le (by omega), heven]
  have hplain := addWords_take data offset heven h (Nat.le_refl _)
  rw [List.take_length, hzero] at hplain
  have hsum : addWords 0 (data.sealAt offset) = (checksum data).toNat + addWords 0 data := by
    rw [Bytes.sealAt, addWords_bigEndian hahead (checksum data).toNat_lt, hplain]
    omega
  apply checksum_eq_zero_of_onesEq
  rw [hsum]
  exact onesEq_checksum_add data

namespace Segment

variable {s : Segment}

/-- Only the checksum field depends on the checksum. -/
theorem exists_encodeWith (s : Segment) : ∃ ahead : Bytes, ahead.length = 16 ∧
    ∀ c, s.encodeWith c = ahead ++ bigEndian 2 c.toNat ++ s.payload :=
  ⟨_, by simp only [List.length_append, length_bigEndian], fun _ => rfl⟩

/-- A sound segment is sealed as any other bytes are. -/
theorem Sound.checksum_encode (h : s.Sound) : ReliableStream.checksum s.encode = 0 := by
  obtain ⟨ahead, hlen, hsplit⟩ := s.exists_encodeWith
  have hsealed : s.encode = (s.encodeWith 0).sealAt 16 := by
    have hahead : (s.encodeWith 0).take 16 = ahead := by
      rw [hsplit, List.append_assoc, List.take_left' hlen]
    have hbehind : (s.encodeWith 0).drop (16 + 2) = s.payload := drop_headerLen_encodeWith s 0
    rw [Bytes.sealAt, hahead, hbehind, ← rightChecksum, ← h.checksum, encode, hsplit]
  have hblank : (s.encodeWith 0).field 16 2 = 0 := by
    rw [hsplit, List.append_assoc, Bytes.field_append_of_le (Nat.le_of_eq hlen), hlen]
    exact Bytes.field_bigEndian_append (by decide) s.payload
  have hin : 16 + 2 ≤ (s.encodeWith 0).length := by
    rw [length_encodeWith]
    exact Nat.le_add_right headerLen s.payload.length
  rw [hsealed]
  exact checksum_sealAt (by rfl) hin hblank

end Segment

/-- The checksum of bytes that a segment can have comes out of 32-bit words as it should, it is the
complement of the one's complement sum, and it is zero once it is part of what it is taken of. -/
theorem checksum_verifies :
    (∀ data : Bytes, data.length ≤ 65535 →
      checksum32? 2 data = some (checksum data) ∧
        checksum data = ~~~ onesSum (words data) ∧
        ∀ offset, offset % 2 = 0 → offset + 2 ≤ data.length → data.field offset 2 = 0 →
          checksum (data.sealAt offset) = 0) ∧
      ∀ (seqno ackno : UInt32) (flags : Flags) (window : UInt16) (payload : Bytes) (s : Segment),
        Segment.sealed? seqno ackno flags window payload = .ok s → checksum s.encode = 0 :=
  ⟨fun data h => ⟨checksum32?_eq h, checksum_eq_not_onesSum data,
      fun _ heven hin hzero => checksum_sealAt heven hin hzero⟩,
    fun _ _ _ _ _ _ hs => (Segment.sound_of_sealed? hs).checksum_encode⟩

/-- Three words, the second of them zero; the last byte is alone, and their sum carries. -/
def oddBytes : Bytes := [0x12, 0x34, 0, 0, 0xff]

theorem oddBytes_verify :
    checksum32? 2 oddBytes = some 0xeeca ∧ checksum oddBytes = 0xeeca ∧
      checksum [0x12, 0x34, 0xee, 0xca, 0xff] = 0 ∧
      ∃ s, Segment.sealed? 1 7 .fin 9 oddBytes = .ok s ∧ checksum s.encode = 0 := by
  obtain ⟨hbytes, hsegments⟩ := checksum_verifies
  obtain ⟨hwords, hcarries, hsealed⟩ := hbytes oddBytes (by decide)
  have hsum : checksum oddBytes = 0xeeca := hcarries.trans (by decide)
  have hzero := hsealed 2 (by decide) (by decide) (by decide)
  rw [Bytes.sealAt, hsum] at hzero
  rw [hsum] at hwords
  exact ⟨hwords, hsum, hzero, _, rfl, hsegments 1 7 .fin 9 oddBytes _ rfl⟩

end ReliableStream
