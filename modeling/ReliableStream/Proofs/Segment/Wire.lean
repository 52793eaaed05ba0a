import ReliableStream.Segment.Wire

/-!
# Reading what was written

A `Sound` segment carries its right checksum, and its length fits in the header. Reading the encoded
form of such a segment gives the segment back, whatever comes after it (`decode_encode_append`).
-/

namespace ReliableStream

namespace Bytes

theorem field_append_of_le {ahead behind : Bytes} {offset width : Nat}
    (h : ahead.length ≤ offset) :
    Bytes.field (ahead ++ behind) offset width =
      Bytes.field behind (offset - ahead.length) width := by
  rw [field, List.drop_append, List.drop_eq_nil_of_le h, List.nil_append, field]

/-- A number is read from where it was written. -/
theorem field_bigEndian_append {width n : Nat} (h : n < Nat.pow 256 width) (behind : Bytes) :
    Bytes.field (bigEndian width n ++ behind) 0 width = n := by
  rw [field, List.drop_zero, List.take_left' (length_bigEndian width n), ofBigEndian_bigEndian,
    Nat.mod_eq_of_lt h]

end Bytes

namespace Segment

variable {s : Segment}

/-- The segment is one that can be read again. -/
structure Sound (s : Segment) : Prop where
  checksum : s.checksum = s.rightChecksum
  payload : s.payload.length ≤ maxPayload

theorem sound_sealed {seqno ackno : UInt32} {flags : Flags} {window : UInt16} {payload : Bytes}
    (h : payload.length ≤ maxPayload) : (Segment.sealed seqno ackno flags window payload).Sound :=
  ⟨rfl, h⟩

theorem sound_of_sealed? {seqno ackno : UInt32} {flags : Flags} {window : UInt16} {payload : Bytes}
    (h : sealed? seqno ackno flags window payload = .ok s) : s.Sound := by
  unfold sealed? at h
  split at h
  · cases h
  next hroom =>
    obtain rfl := Except.ok.inj h
    exact sound_sealed (Nat.le_of_not_lt hroom)

theorem Sound.size_lt (h : s.Sound) : s.size < 65536 := by
  have := h.payload
  unfold maxPayload headerLen at this
  unfold size headerLen
  omega

/-- Clearing the checksum undoes that one was written. -/
theorem clearChecksum_encodeWith (s : Segment) (c : UInt16) :
    clearChecksum (s.encodeWith c) s.size = s.encodeWith 0 := by
  unfold clearChecksum
  rw [List.take_of_length_le (Nat.le_of_eq (length_encodeWith s c))]
  simp [encodeWith, headerLen, bigEndian]

/-- What comes after the segment has no part in its checksum. -/
theorem clearChecksum_append (data rest : Bytes) {total : Nat} (h : total ≤ data.length)
    (hheader : headerLen ≤ total) :
    clearChecksum (data ++ rest) total = clearChecksum data total := by
  unfold headerLen at hheader
  unfold clearChecksum
  rw [List.take_append_of_le_length h, List.take_append_of_le_length (by omega)]

theorem drop_headerLen_encodeWith (s : Segment) (c : UInt16) :
    (s.encodeWith c).drop headerLen = s.payload :=
  List.drop_left' (by simp [headerLen])

/-- The header fields of an encoded segment, whatever comes after it. -/
theorem fields_encode (s : Segment) (rest : Bytes) :
    (s.encode ++ rest).field 0 4 = s.seqno.toNat ∧ (s.encode ++ rest).field 4 4 = s.ackno.toNat ∧
      (s.encode ++ rest).field 8 2 = s.lengthField.toNat ∧
      (s.encode ++ rest).field 10 4 = s.flags.bits.toNat ∧
      (s.encode ++ rest).field 14 2 = s.window.toNat ∧
      (s.encode ++ rest).field 16 2 = s.checksum.toNat := by
  unfold encode encodeWith
  simp only [List.append_assoc]
  refine ⟨Bytes.field_bigEndian_append s.seqno.toNat_lt _, ?_, ?_, ?_, ?_, ?_⟩ <;>
    simp only [Bytes.field_append_of_le, length_bigEndian, Nat.le_refl, Nat.reduceLeDiff,
      Nat.reduceSub]
  · exact Bytes.field_bigEndian_append s.ackno.toNat_lt _
  · exact Bytes.field_bigEndian_append s.lengthField.toNat_lt _
  · exact Bytes.field_bigEndian_append s.flags.bits.toNat_lt _
  · exact Bytes.field_bigEndian_append s.window.toNat_lt _
  · exact Bytes.field_bigEndian_append s.checksum.toNat_lt _

/-- The length that the header carries is the size of the segment. -/
theorem Sound.lengthField_eq (h : s.Sound) : s.lengthField.toNat = s.size := by
  rw [lengthField, UInt16.toNat_ofNat', Nat.mod_eq_of_lt h.size_lt]

/-- A segment is read from the beginning of its datagram. -/
theorem decode_encode_append (h : s.Sound) (rest : Bytes) :
    decode (s.encode ++ rest) = .ok s := by
  have hlen : (s.encode ++ rest).length = s.size + rest.length := by simp
  have hheader : headerLen ≤ s.size := Nat.le_add_right _ _
  have htake : (s.encode ++ rest).take s.size = s.encode := List.take_left' (length_encode s)
  obtain ⟨hseqno, hackno, hlength, hflags, hwindow, hchecksum⟩ := s.fields_encode rest
  rw [h.lengthField_eq] at hlength
  have hcarried : UInt16.ofNat ((s.encode ++ rest).field 16 2) = s.checksum := by
    rw [hchecksum]
    simp
  have hcomputed :
      ReliableStream.checksum (clearChecksum (s.encode ++ rest) s.size) = s.checksum := by
    rw [clearChecksum_append s.encode rest (Nat.le_of_eq (length_encode s).symm) hheader, encode,
      clearChecksum_encodeWith, h.checksum, rightChecksum]
  unfold decode
  simp only [hlength, hcarried, hcomputed, hlen]
  rw [if_neg (by omega), if_neg (by omega), if_neg (by omega), if_neg (by simp), htake, encode,
    drop_headerLen_encodeWith, ← encode, hseqno, hackno, hflags, hwindow]
  simp

theorem decode_encode (h : s.Sound) : decode s.encode = .ok s := by
  simpa using decode_encode_append h []

end Segment

end ReliableStream
