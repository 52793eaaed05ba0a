import ReliableStream.Checksum
import ReliableStream.Error
import ReliableStream.Segment.Basic

/-!
# The wire form of segments

All header fields are big-endian:

| field    | offset | width |
|----------|--------|-------|
| seqno    | 0      | 4     |
| ackno    | 4      | 4     |
| len      | 8      | 2     |
| flags    | 10     | 4     |
| window   | 14     | 2     |
| checksum | 16     | 2     |

The payload follows the header. The checksum covers header and payload, with the checksum field
taken as zero.

* `encode` writes a segment with the checksum it holds; `sealed` builds one with the right checksum.
* `decode` reads a segment from the start of a datagram, refuses one whose length or checksum is
  wrong, and ignores what comes after the segment.
-/

namespace ReliableStream.Segment

/-- The encoded segment with `checksum` in its checksum field. -/
def encodeWith (s : Segment) (checksum : UInt16) : Bytes :=
  bigEndian 4 s.seqno.toNat ++ bigEndian 4 s.ackno.toNat ++ bigEndian 2 s.lengthField.toNat ++
    bigEndian 4 s.flags.bits.toNat ++ bigEndian 2 s.window.toNat ++ bigEndian 2 checksum.toNat ++
    s.payload

def encode (s : Segment) : Bytes := s.encodeWith s.checksum

/-- The checksum that the segment should carry. -/
def rightChecksum (s : Segment) : UInt16 := ReliableStream.checksum (s.encodeWith 0)

/-- The segment with these fields and the checksum that goes with them. -/
def sealed (seqno ackno : UInt32) (flags : Flags) (window : UInt16) (payload : Bytes) : Segment :=
  let blank : Segment := ⟨seqno, ackno, flags, window, 0, payload⟩
  { blank with checksum := blank.rightChecksum }

/-- As `sealed`, for a payload that the length field has room for. -/
def sealed? (seqno ackno : UInt32) (flags : Flags) (window : UInt16) (payload : Bytes) :
    Except Error Segment :=
  if maxPayload < payload.length then .error (.payloadTooLarge payload.length maxPayload)
  else .ok (sealed seqno ackno flags window payload)

/-- The first `total` bytes of `data` with the checksum field cleared. -/
def clearChecksum (data : Bytes) (total : Nat) : Bytes :=
  data.take 16 ++ [0, 0] ++ (data.take total).drop headerLen

def decode (data : Bytes) : Except Error Segment :=
  if data.length < headerLen then .error (.truncated headerLen data.length)
  else
    let total := data.field 8 2
    if total < headerLen then .error (.lengthBelowHeader (UInt16.ofNat total))
    else if data.length < total then .error (.truncated total data.length)
    else
      let carried := UInt16.ofNat (data.field 16 2)
      let computed := ReliableStream.checksum (clearChecksum data total)
      if computed ≠ carried then .error (.checksumMismatch carried computed)
      else .ok {
        seqno := UInt32.ofNat (data.field 0 4)
        ackno := UInt32.ofNat (data.field 4 4)
        flags := ⟨UInt32.ofNat (data.field 10 4)⟩
        window := UInt16.ofNat (data.field 14 2)
        checksum := carried
        payload := (data.take total).drop headerLen }

@[simp] theorem length_encodeWith (s : Segment) (c : UInt16) :
    (s.encodeWith c).length = s.size := by
  simp [encodeWith, size, headerLen]
  omega

@[simp] theorem length_encode (s : Segment) : s.encode.length = s.size :=
  length_encodeWith s s.checksum

end ReliableStream.Segment
