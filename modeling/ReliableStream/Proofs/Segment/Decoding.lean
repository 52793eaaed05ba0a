import ReliableStream.Proofs.Segment.Wire

/-!
# What is read was written

Reading undoes writing and nothing else: a datagram is accepted exactly if it begins with the
encoded form of a sound segment, and the segment is that one (`decode_eq_ok_iff`).

* `eq_of_decode`: what an accepted datagram looks like. Its header fields are those of the segment,
  written as they would be (`Bytes.take_append_field`), so its first bytes are the encoded segment
  (`encode_of_decode`).
* `decode?` reads by `Bytes.slice?`, which fails where the bytes that are asked for are not there.
  It never fails (`decode?_eq`): every read of `decode` stays within the datagram.
-/

namespace ReliableStream

namespace Bytes

variable {data : Bytes} {offset width : Nat}

/-- The bytes from `start` up to `stop`, if the data has all of them. -/
def slice? (data : Bytes) (start stop : Nat) : Option Bytes :=
  if start ≤ stop ∧ stop ≤ data.length then some ((data.take stop).drop start) else none

theorem slice?_eq {start stop : Nat} (h : start ≤ stop) (h' : stop ≤ data.length) :
    data.slice? start stop = some ((data.drop start).take (stop - start)) := by
  rw [slice?, if_pos ⟨h, h'⟩, List.drop_take]

theorem slice?_zero {stop : Nat} (h : stop ≤ data.length) :
    data.slice? 0 stop = some (data.take stop) := by
  rw [slice?, if_pos ⟨Nat.zero_le _, h⟩, List.drop_zero]

theorem slice?_length {start : Nat} (h : start ≤ data.length) :
    data.slice? start data.length = some (data.drop start) := by
  rw [slice?, if_pos ⟨h, Nat.le_refl _⟩, List.take_length]

/-- A field of the first bytes is one of the data. -/
theorem field_take {total : Nat} (h : offset + width ≤ total) :
    Bytes.field (data.take total) offset width = data.field offset width := by
  rw [field, List.drop_take, List.take_take, Nat.min_eq_left (by omega), field]

theorem field_lt (data : Bytes) (offset width : Nat) :
    data.field offset width < Nat.pow 256 width := by
  have hlen : ((data.drop offset).take width).length ≤ width := List.length_take_le _ _
  exact Nat.lt_of_lt_of_le (ofBigEndian_lt _) (Nat.pow_le_pow_right (by decide) hlen)

/-- Fields of two and of four bytes fit in words of that width. -/
theorem toNat_field_two (data : Bytes) (offset : Nat) :
    (UInt16.ofNat (data.field offset 2)).toNat = data.field offset 2 := by
  rw [UInt16.toNat_ofNat']
  exact Nat.mod_eq_of_lt (data.field_lt offset 2)

theorem toNat_field_four (data : Bytes) (offset : Nat) :
    (UInt32.ofNat (data.field offset 4)).toNat = data.field offset 4 := by
  rw [UInt32.toNat_ofNat']
  exact Nat.mod_eq_of_lt (data.field_lt offset 4)

/-- What was read from the data is written back to its place. -/
theorem take_append_field (h : offset + width ≤ data.length) :
    data.take offset ++ bigEndian width (data.field offset width) = data.take (offset + width) := by
  have hlen : ((data.drop offset).take width).length = width := by
    rw [List.length_take, List.length_drop]
    omega
  have hback := bigEndian_ofBigEndian ((data.drop offset).take width)
  rw [hlen] at hback
  rw [field, hback, ← List.take_add]

end Bytes

namespace Segment

variable {s : Segment} {data : Bytes}

/-! ## Accepted datagrams -/

/-- The segment in the first `total` bytes of a datagram. -/
def ofFields (data : Bytes) (total : Nat) : Segment where
  seqno := UInt32.ofNat (data.field 0 4)
  ackno := UInt32.ofNat (data.field 4 4)
  flags := ⟨UInt32.ofNat (data.field 10 4)⟩
  window := UInt16.ofNat (data.field 14 2)
  checksum := UInt16.ofNat (data.field 16 2)
  payload := (data.take total).drop headerLen

/-- All that an accepted datagram says. -/
theorem eq_of_decode (h : decode data = .ok s) :
    headerLen ≤ data.field 8 2 ∧ data.field 8 2 ≤ data.length ∧ s = ofFields data (data.field 8 2) ∧
      s.checksum = ReliableStream.checksum (clearChecksum data (data.field 8 2)) := by
  unfold decode at h
  simp only at h
  split at h
  · cases h
  · split at h
    · cases h
    next hheader =>
      split at h
      · cases h
      next htotal =>
        split at h
        · cases h
        next hsum =>
          obtain rfl := Except.ok.inj h
          exact ⟨by omega, by omega, rfl, (Decidable.not_not.mp hsum).symm⟩

/-- A datagram is refused for what it is, and for nothing else. -/
theorem isBadDatagram_of_decode {e : Error} (h : decode data = .error e) :
    e.isBadDatagram = true := by
  unfold decode at h
  simp only at h
  split at h
  · obtain rfl := Except.error.inj h
    rfl
  · split at h
    · obtain rfl := Except.error.inj h
      rfl
    · split at h
      · obtain rfl := Except.error.inj h
        rfl
      · split at h
        · obtain rfl := Except.error.inj h
          rfl
        · cases h

theorem exists_error_iff : (∃ e, decode data = .error e ∧ e.isBadDatagram = true) ↔
    ¬ ∃ s, decode data = .ok s := by
  cases hread : decode data with
  | error e => simp [isBadDatagram_of_decode hread]
  | ok s => simp

/-- The header of a segment that was read, as it stands in the datagram. -/
theorem encodeWith_ofFields {total : Nat} (hheader : headerLen ≤ total)
    (htotal : total ≤ data.length) (hlen : total = data.field 8 2) (c : UInt16) :
    (ofFields data total).encodeWith c =
      data.take 16 ++ bigEndian 2 c.toNat ++ (data.take total).drop headerLen := by
  unfold headerLen at hheader
  have hlt : total < 65536 := by
    rw [hlen]
    exact Bytes.field_lt data 8 2
  have hlength : (ofFields data total).lengthField.toNat = data.field 8 2 := by
    have hsize : (ofFields data total).size = total := by
      simp only [size, ofFields, headerLen, List.length_drop, List.length_take]
      omega
    rw [lengthField, hsize, UInt16.toNat_ofNat', Nat.mod_eq_of_lt hlt, hlen]
  -- the fields lie side by side, from the beginning of the datagram on
  have hfields : bigEndian 4 (data.field 0 4) ++ bigEndian 4 (data.field 4 4) ++
      bigEndian 2 (data.field 8 2) ++ bigEndian 4 (data.field 10 4) ++
      bigEndian 2 (data.field 14 2) = data.take 16 := by
    have hfirst : bigEndian 4 (data.field 0 4) = data.take 4 := by
      have h := @Bytes.take_append_field data 0 4 (by omega)
      rwa [List.take_zero, List.nil_append] at h
    rw [hfirst, Bytes.take_append_field (by omega), Bytes.take_append_field (by omega),
      Bytes.take_append_field (by omega), Bytes.take_append_field (by omega)]
  rw [encodeWith, hlength]
  simp only [ofFields, Bytes.toNat_field_two, Bytes.toNat_field_four]
  rw [hfields]

/-- A segment that was read is sound, and the datagram begins with its encoded form. -/
theorem encode_of_decode (h : decode data = .ok s) :
    s.Sound ∧ s.encode = data.take (data.field 8 2) ∧ data.field 8 2 ≤ data.length := by
  obtain ⟨hheader, htotal, rfl, hsum⟩ := eq_of_decode h
  have hlt := Bytes.field_lt data 8 2
  generalize hlen : data.field 8 2 = total at *
  have hencode := encodeWith_ofFields hheader htotal hlen.symm
  unfold headerLen at hheader
  refine ⟨⟨?_, ?_⟩, ?_, htotal⟩
  · rw [hsum, rightChecksum, hencode]
    rfl
  · simp only [ofFields, maxPayload, headerLen, List.length_drop, List.length_take]
    have : Nat.pow 256 2 = 65536 := rfl
    omega
  · have hfront : data.take (16 + 2) = (data.take total).take headerLen := by
      rw [List.take_take, Nat.min_eq_left (show headerLen ≤ total from hheader), headerLen]
    have hcarried : (ofFields data total).checksum.toNat = data.field 16 2 :=
      Bytes.toNat_field_two data 16
    rw [encode, hencode, hcarried, Bytes.take_append_field (by omega), hfront,
      List.take_append_drop]

/-! ## Reads stay within the datagram -/

/-- As `decode`, with all reads by `slice?`. -/
def decode? (data : Bytes) : Option (Except Error Segment) :=
  if data.length < headerLen then some (.error (.truncated headerLen data.length))
  else do
    let header ← data.slice? 0 headerLen
    let seqno ← header.slice? 0 4
    let ackno ← header.slice? 4 8
    let len ← header.slice? 8 10
    let flags ← header.slice? 10 14
    let window ← header.slice? 14 16
    let sum ← header.slice? 16 18
    let total := ofBigEndian len
    if total < headerLen then some (.error (.lengthBelowHeader (UInt16.ofNat total)))
    else if data.length < total then some (.error (.truncated total data.length))
    else
      let segment ← data.slice? 0 total
      let covered ← segment.slice? 0 16
      let payload ← segment.slice? headerLen total
      let carried := UInt16.ofNat (ofBigEndian sum)
      let computed := ReliableStream.checksum (covered ++ [0, 0] ++ payload)
      if computed ≠ carried then some (.error (.checksumMismatch carried computed))
      else some (.ok {
        seqno := UInt32.ofNat (ofBigEndian seqno)
        ackno := UInt32.ofNat (ofBigEndian ackno)
        flags := ⟨UInt32.ofNat (ofBigEndian flags)⟩
        window := UInt16.ofNat (ofBigEndian window)
        checksum := carried
        payload })

/-- A part of the header, read as a number. -/
theorem slice?_header (hdata : headerLen ≤ data.length) (start width : Nat)
    (h : start + width ≤ headerLen) :
    ∃ part, Bytes.slice? (data.take headerLen) start (start + width) = some part ∧
      ofBigEndian part = data.field start width := by
  have hlen : (data.take headerLen).length = headerLen := List.length_take_of_le hdata
  refine ⟨_, Bytes.slice?_eq (Nat.le_add_right _ _) (by omega), ?_⟩
  rw [Nat.add_sub_cancel_left, ← Bytes.field, Bytes.field_take h]

theorem decode?_eq (data : Bytes) : decode? data = some (decode data) := by
  unfold decode? decode
  split
  · rfl
  next hshort =>
    have hdata : headerLen ≤ data.length := Nat.le_of_not_lt hshort
    obtain ⟨seqno, hseqno, hseqno'⟩ := slice?_header hdata 0 4 (by decide)
    obtain ⟨ackno, hackno, hackno'⟩ := slice?_header hdata 4 4 (by decide)
    obtain ⟨len, hlen, hlen'⟩ := slice?_header hdata 8 2 (by decide)
    obtain ⟨flags, hflags, hflags'⟩ := slice?_header hdata 10 4 (by decide)
    obtain ⟨window, hwindow, hwindow'⟩ := slice?_header hdata 14 2 (by decide)
    obtain ⟨sum, hsum, hsum'⟩ := slice?_header hdata 16 2 (by decide)
    simp only [Nat.zero_add, Nat.reduceAdd] at hseqno hackno hlen hflags hwindow hsum
    simp only [Bytes.slice?_zero hdata, hseqno, hackno, hlen, hflags, hwindow, hsum,
      Option.bind_eq_bind, Option.bind_some, hseqno', hackno', hlen', hflags', hwindow', hsum']
    split
    · rfl
    · split
      · rfl
      next hheader htotal =>
        have htotal' : data.field 8 2 ≤ data.length := Nat.le_of_not_lt htotal
        have hsize := List.length_take_of_le htotal'
        have hcovered : Bytes.slice? (data.take (data.field 8 2)) 0 16 = some (data.take 16) := by
          unfold headerLen at hheader
          rw [Bytes.slice?_zero (by omega), List.take_take, Nat.min_eq_left (by omega)]
        have hpayload : Bytes.slice? (data.take (data.field 8 2)) headerLen (data.field 8 2) =
            some ((data.take (data.field 8 2)).drop headerLen) := by
          rw [Bytes.slice?, if_pos (by omega), List.take_take, Nat.min_self]
        simp only [Bytes.slice?_zero htotal', hcovered, hpayload, Option.bind_some]
        rw [← clearChecksum, apply_ite some]

/-! ## Reading and writing -/

/-- A datagram is accepted exactly if it begins with the encoded form of a segment that carries its
right checksum and whose length fits in the header, and that segment is the result. -/
theorem decode_eq_ok_iff :
    (∀ data s, decode data = .ok s ↔
      s.payload.length ≤ maxPayload ∧ s.checksum = s.rightChecksum ∧
        ∃ rest, data = s.encode ++ rest) ∧
    (∀ seqno ackno flags window payload s rest,
      sealed? seqno ackno flags window payload = .ok s → decode (s.encode ++ rest) = .ok s) ∧
    (∀ data s, decode data = .ok s → s.encode = data.take (data.field 8 2)) ∧
    ∀ data, decode? data = some (decode data) := by
  refine ⟨fun data s => ⟨fun h => ?_, ?_⟩, ?_, fun data s h => (encode_of_decode h).2.1, decode?_eq⟩
  · obtain ⟨hsound, hencode, -⟩ := encode_of_decode h
    refine ⟨hsound.payload, hsound.checksum, data.drop (data.field 8 2), ?_⟩
    rw [hencode, List.take_append_drop]
  · rintro ⟨hpayload, hchecksum, rest, rfl⟩
    exact decode_encode_append ⟨hchecksum, hpayload⟩ rest
  · intro seqno ackno flags window payload s rest h
    exact decode_encode_append (sound_of_sealed? h) rest

/-- A letter and a FIN with two bytes behind them. -/
theorem decode_letter : ∃ s, sealed? 1 7 .fin 9 [104] = .ok s ∧
    decode (s.encode ++ [0, 1]) = .ok s ∧
    s.encode = (s.encode ++ [0, 1]).take ((s.encode ++ [0, 1]).field 8 2) := by
  have hread := decode_eq_ok_iff.2.1 1 7 .fin 9 [104] _ [0, 1] rfl
  exact ⟨_, rfl, hread, decode_eq_ok_iff.2.2.1 _ _ hread⟩

end Segment

end ReliableStream
