import ReliableStream.Link
import ReliableStream.Proofs.OnesComplement

/-!
# Corrupted datagrams

A datagram is accepted if its length field is in order and its words, the checksum among them, add
up to a multiple of 65535 (`exists_decode_iff`). One byte that is changed changes the sum by less
than that. In the length field it also changes which bytes are summed, and then what is left out can
make up for the change (`Masks`). What arrives is a shorter segment then, and what follows a segment
in its datagram is ignored.

* `decode_modify_of_outside`: outside of the length field no changed byte is accepted.
* `exists_decode_modify_iff`: a changed byte in the length field is accepted if it is masked.
* `flip_rejected_iff_not_masks`: what this says of single bits.
-/

namespace ReliableStream

theorem xor_bit_ne (bit : Nat) (b : UInt8) : b ^^^ UInt8.ofNat (1 <<< (bit % 8)) ≠ b := by
  have hne : ∀ i < 8, UInt8.ofNat (1 <<< i) ≠ 0 := by decide
  intro heq
  refine hne (bit % 8) (Nat.mod_lt bit (by decide)) ?_
  rw [← UInt8.xor_self (a := b), ← UInt8.xor_right_inj b, heq]
  simp

namespace Segment

variable {s : Segment} {data : Bytes}

/-- If the length field says `cut` instead of the size, it is too small by as much as the bytes that
are cut off lack to a multiple of 65535. -/
def Masks (s : Segment) (cut : Nat) : Prop :=
  headerLen ≤ cut ∧ cut < s.size ∧
    65535 ∣ (s.size - cut) +
      addWords 0 (List.replicate (cut % 2) 0 ++ s.payload.drop (cut - headerLen))

/-! ## What is accepted -/

/-- The checksum field is zero when the checksum is computed, and one of the words otherwise. -/
theorem addWords_clearChecksum {total : Nat} (hheader : headerLen ≤ total)
    (htotal : total ≤ data.length) :
    data.field 8 2 ≤ addWords 0 (clearChecksum data total) ∧
      data.field 16 2 + addWords 0 (clearChecksum data total) = addWords 0 (data.take total) := by
  have hlen : (data.take 16).length = 16 := by
    unfold headerLen at hheader
    exact List.length_take_of_le (by omega)
  have hclear : addWords 0 (clearChecksum data total) =
      addWords 0 (data.take 16) + 0 + addWords 0 ((data.take total).drop headerLen) :=
    addWords_bigEndian (n := 0) (by rw [hlen]) (by decide) _
  have hall := addWords_take data 16 (by rfl) hheader htotal
  have hfront := addWords_take data 8 (by rfl) (show 8 + 2 ≤ 16 by decide)
    (by unfold headerLen at hheader; omega)
  have hend : headerLen = 16 + 2 := rfl
  rw [hclear, hall, hend]
  omega

/-- What it takes for a datagram to be accepted. -/
theorem exists_decode_iff : (∃ s, decode data = .ok s) ↔
    headerLen ≤ data.field 8 2 ∧ data.field 8 2 ≤ data.length ∧ data.field 16 2 ≠ 65535 ∧
      65535 ∣ addWords 0 (data.take (data.field 8 2)) := by
  have hiff : ∀ hheader : headerLen ≤ data.field 8 2, ∀ htotal : data.field 8 2 ≤ data.length,
      ReliableStream.checksum (clearChecksum data (data.field 8 2)) =
          UInt16.ofNat (data.field 16 2) ↔
        data.field 16 2 ≠ 65535 ∧ 65535 ∣ addWords 0 (data.take (data.field 8 2)) := by
    intro hheader htotal
    obtain ⟨hle, hsum⟩ := addWords_clearChecksum hheader htotal
    have hpos : 0 < headerLen := by decide
    rw [checksum_eq_iff (by omega), Bytes.toNat_field_two, hsum]
  constructor
  · rintro ⟨s, h⟩
    obtain ⟨hheader, htotal, rfl, hsum⟩ := eq_of_decode h
    exact ⟨hheader, htotal, (hiff hheader htotal).mp hsum.symm⟩
  · rintro ⟨hheader, htotal, hsum⟩
    have hshort : ¬ data.length < headerLen := by omega
    unfold decode
    simp only
    rw [if_neg hshort, if_neg (by omega), if_neg (by omega),
      if_neg (Decidable.not_not.mpr ((hiff hheader htotal).mpr hsum))]
    exact ⟨_, rfl⟩

/-! ## What is accepted of a corrupted segment -/

/-- The fields of an encoded segment that matter here, and the sum of its words. -/
theorem Sound.words (h : s.Sound) : s.encode.field 8 2 = s.size ∧
    s.encode.field 16 2 ≠ 65535 ∧ 65535 ∣ addWords 0 s.encode := by
  have hread : ∃ s', decode s.encode = .ok s' := ⟨s, decode_encode h⟩
  obtain ⟨-, -, hlength, -⟩ := s.fields_encode []
  rw [List.append_nil, h.lengthField_eq] at hlength
  obtain ⟨-, -, hcarried, hsum⟩ := exists_decode_iff.mp hread
  rw [hlength, List.take_of_length_le (Nat.le_of_eq (length_encode s))] at hsum
  exact ⟨hlength, hcarried, hsum⟩

variable {i : Nat} {f : UInt8 → UInt8}

theorem field_modify {offset width : Nat} (h : i < offset ∨ offset + width ≤ i) :
    Bytes.field (data.modify i f) offset width = data.field offset width := by
  unfold Bytes.field
  rcases h with h | h
  · rw [List.drop_modify_of_lt f i offset data h]
  · rw [List.drop_modify_of_ge f i offset data (by omega), List.take_modify,
      List.modify_eq_self (by rw [List.length_take]; omega)]

/-- Outside of the length field a changed byte shows. -/
theorem decode_modify_of_outside (h : s.Sound) (hi : i < s.size) (hf : ∀ b, f b ≠ b)
    (hout : i < 8 ∨ 10 ≤ i) : ¬ ∃ s', decode (s.encode.modify i f) = .ok s' := by
  obtain ⟨hlength, -, hsum⟩ := h.words
  obtain ⟨change, hpos, hlt, hchange⟩ := addWords_modify s.encode (by simpa using hi) hf
  rw [exists_decode_iff, field_modify hout, hlength, List.take_of_length_le (by simp)]
  rintro ⟨-, -, -, hsum'⟩
  omega

/-- In the length field it shows unless it is masked. -/
theorem exists_decode_modify_iff (h : s.Sound) (hi : i = 8 ∨ i = 9) (hf : ∀ b, f b ≠ b) :
    (∃ s', decode (s.encode.modify i f) = .ok s') ↔
      s.Masks (Bytes.field (s.encode.modify i f) 8 2) := by
  obtain ⟨hlength, hcarried, hsum⟩ := h.words
  have hheader : headerLen ≤ s.size := Nat.le_add_right _ _
  have hlen : s.encode.length = s.size := length_encode s
  have hlen' : (s.encode.modify i f).length = s.size := by rw [List.length_modify, hlen]
  obtain ⟨change, hpos, -, hchange⟩ :=
    addWords_modify s.encode (i := i) (by unfold headerLen at hheader; omega) hf
  have hfront : (s.encode.modify i f).take 8 = s.encode.take 8 := by
    rw [List.take_modify, List.modify_eq_self (by rw [List.length_take]; omega)]
  have hback : ∀ n, 10 ≤ n → (s.encode.modify i f).drop n = s.encode.drop n := fun n hn =>
    List.drop_modify_of_lt f i n s.encode (by omega)
  have hcarried' : Bytes.field (s.encode.modify i f) 16 2 ≠ 65535 := by
    rw [field_modify (.inl (by omega))]
    exact hcarried
  rw [exists_decode_iff, and_iff_right hcarried', hlen']
  unfold Masks
  generalize s.encode.modify i f = corrupt at *
  -- the sums differ as the lengths do
  have hwords : addWords 0 corrupt + s.size = addWords 0 s.encode + Bytes.field corrupt 8 2 := by
    have hsent := addWords_take s.encode 8 (by rfl) (by unfold headerLen at hheader; omega)
      (Nat.le_refl _)
    have hcorrupt := addWords_take corrupt 8 (by rfl) (by unfold headerLen at hheader; omega)
      (Nat.le_refl _)
    rw [List.take_length, hlength] at hsent
    rw [List.take_length, hfront, hback (8 + 2) (Nat.le_refl _)] at hcorrupt
    omega
  generalize Bytes.field corrupt 8 2 = cut at *
  refine and_congr_right fun hcut => ?_
  by_cases hlt : cut < s.size
  · rw [and_iff_right hlt, and_iff_right (Nat.le_of_lt hlt)]
    have htail : corrupt.drop cut = s.payload.drop (cut - headerLen) := by
      have hend := drop_headerLen_encodeWith s s.checksum
      rw [hback cut (Nat.le_trans (by decide) hcut), ← hend, List.drop_drop, ← encode]
      congr 1
      omega
    have hparts := addWords_append (corrupt.take cut) (corrupt.drop cut)
    rw [List.take_append_drop, List.length_take_of_le (by omega), htail] at hparts
    omega
  · exact iff_of_false (by omega) (by omega)

/-- A flipped bit is noticed, and the datagram refused as invalid, unless the flip shortens the
length that the segment has in its header and what is cut off makes up for that. -/
theorem flip_rejected_iff_not_masks (seqno ackno : UInt32) (flags : Flags) (window : UInt16)
    (payload : Bytes) (s : Segment) (hs : sealed? seqno ackno flags window payload = .ok s)
    (bit : Nat) :
    (∃ e, decode (flipBit bit s.encode) = .error e ∧ e.isBadDatagram = true) ↔
      ¬ s.Masks ((flipBit bit s.encode).field 8 2) := by
  have hsound := sound_of_sealed? hs
  have hpos : 0 < s.size := Nat.lt_of_lt_of_le (by decide) (Nat.le_add_right headerLen _)
  have hf := xor_bit_ne bit
  rw [flipBit, length_encode]
  have hi := Nat.mod_lt (bit / 8) hpos
  generalize bit / 8 % s.size = i at hi ⊢
  refine exists_error_iff.trans (not_congr ?_)
  by_cases hin : i = 8 ∨ i = 9
  · exact exists_decode_modify_iff hsound hin hf
  · have hout : i < 8 ∨ 10 ≤ i := by omega
    refine iff_of_false (decode_modify_of_outside hsound hi hf hout) ?_
    rw [field_modify hout, hsound.words.1]
    rintro ⟨-, hlt, -⟩
    exact Nat.lt_irrefl _ hlt

/-! ### Four bytes, and the last two cut off -/

def fourBytes : Segment := sealed 1 1 .ack 1440 [0x61, 0x62, 0xff, 0xfd]

/-- The flip makes the length 20 instead of 22, and the two bytes behind that are `0xfffd`. What
arrives is a segment of two bytes, and the two that follow it are no part of it. -/
theorem flip_accepted_fourBytes :
    sealed? 1 1 .ack 1440 [0x61, 0x62, 0xff, 0xfd] = .ok fourBytes ∧
      73 < 8 * fourBytes.encode.length ∧ fourBytes.Masks 20 ∧
      flipBit 73 fourBytes.encode = (sealed 1 1 .ack 1440 [0x61, 0x62]).encode ++ [0xff, 0xfd] ∧
      decode (flipBit 73 fourBytes.encode) = .ok { fourBytes with payload := [0x61, 0x62] } ∧
      ¬ ∃ e, decode (flipBit 73 fourBytes.encode) = .error e ∧ e.isBadDatagram = true := by
  have hsome : (decode (flipBit 73 fourBytes.encode)).toOption =
      some { fourBytes with payload := [0x61, 0x62] } := by decide +kernel
  have hread : decode (flipBit 73 fourBytes.encode) =
      .ok { fourBytes with payload := [0x61, 0x62] } := by
    revert hsome
    cases decode (flipBit 73 fourBytes.encode) with
    | error e => exact fun h => by cases h
    | ok s => exact fun h => congrArg Except.ok (Option.some.inj h)
  refine ⟨rfl, by decide +kernel, ?_, by decide +kernel, hread, ?_⟩
  · unfold Masks
    decide +kernel
  · exact fun h => exists_error_iff.mp h ⟨_, hread⟩

/-- The flip makes the length 18, and the four bytes behind that do not make up for it. -/
theorem flip_rejected_fourBytes :
    sealed? 1 1 .ack 1440 [0x61, 0x62, 0xff, 0xfd] = .ok fourBytes ∧
      (flipBit 74 fourBytes.encode).field 8 2 = 18 ∧
      ∃ e, decode (flipBit 74 fourBytes.encode) = .error e ∧ e.isBadDatagram = true := by
  have hcut : (flipBit 74 fourBytes.encode).field 8 2 = 18 := by decide +kernel
  refine ⟨rfl, hcut, ?_⟩
  rw [flip_rejected_iff_not_masks 1 1 .ack 1440 [0x61, 0x62, 0xff, 0xfd] fourBytes rfl 74, hcut]
  unfold Masks
  decide +kernel

end Segment

end ReliableStream
