import SovProbe.Checked
import SovProbe.BigEndian

/-! # The WAL record contract

The record format of `wal/header.rs`, version 0.4: a header of 64 bytes followed
by the payload.

```text
 0  magic (2)  version (1)  tcp_flags (1)      28  proto (1)
 4  crc32 (4)                                  29  tcp_seq (4)  tcp_ack (4)
 8  timestamp_ns (8)                           37  window_size (2)
16  src_ip (4)  dst_ip (4)                     39  flags (1)  reserved (16)
24  src_port (2)  dst_port (2)                 56  payload_len (4)  orig_payload_len (4)
```

All integers are big-endian.  The checksum covers the record without its own
field.  The functions here are the source's, statement by statement, in the
`Checked` monad: every range, index and subtraction that could panic is an
operation that could fault.  The checksum function is a parameter, applied to the
concatenation of the slices the hasher is fed.
-/

namespace SovProbe
open BigEndian Checked

/-- `WAL_HEADER_SIZE` -/
def walHeaderSize : Nat := 64

/-- `WAL_VERSION` -/
def walVersion : UInt8 := 0x04

/-- "SP" -/
def walMagic : UInt16 := 0x5350

/-- The logical flag stored as bit 0 of the flags byte. -/
def flagDegraded : UInt64 := 1

/-- The logical flag derived from the two lengths; it occupies no bit of the header. -/
def flagTruncated : UInt64 := 2

/-- An IPv4 address, `[u8; 4]`. -/
structure Octets where
  a : UInt8
  b : UInt8
  c : UInt8
  d : UInt8
  deriving DecidableEq, Repr

namespace Octets

/-- The four bytes of an address. -/
def toList (ip : Octets) : List UInt8 := [ip.a, ip.b, ip.c, ip.d]

@[simp] theorem toList_length (ip : Octets) : ip.toList.length = 4 := rfl

/-- The array conversion of a slice. -/
def ofSlice : List UInt8 → Checked Octets
  | [a, b, c, d] => .ok ⟨a, b, c, d⟩
  | _ => .error .wrongLength

end Octets

/-- A record: the logical view, not the layout on disk. -/
structure WalRecord where
  timestampNs : UInt64
  flags : UInt64
  tcpFlags : UInt8
  tcpSeq : UInt32
  tcpAck : UInt32
  windowSize : UInt16
  srcIp : Octets
  dstIp : Octets
  srcPort : UInt16
  dstPort : UInt16
  proto : UInt16
  origPayloadLen : UInt32
  payload : List UInt8
  deriving DecidableEq, Repr

/-- The checksum of a record: all of it except bytes 4 to 8. -/
def crc32Of (crc32 : List UInt8 → UInt32) (buf : List UInt8) : Checked UInt32 := do
  let lead ← slice buf 0 4
  let body ← slice buf 8 buf.length
  return crc32 (lead ++ body)

namespace WalRecord

/-- The part of `encode` that fills the header `h`, all but the checksum. -/
def writeHeader (self : WalRecord) (h : List UInt8) : Checked (List UInt8) := do
  let h ← patch h 0 (writeU16 walMagic)
  let h ← patch h 2 [walVersion]
  let h ← patch h 3 [self.tcpFlags]
  let h ← patch h 8 (writeU64 self.timestampNs)
  let h ← patch h 16 self.srcIp.toList
  let h ← patch h 20 self.dstIp.toList
  let h ← patch h 24 (writeU16 self.srcPort)
  let h ← patch h 26 (writeU16 self.dstPort)
  let h ← patch h 28 [self.proto.toUInt8]
  let h ← patch h 29 (writeU32 self.tcpSeq)
  let h ← patch h 33 (writeU32 self.tcpAck)
  let h ← patch h 37 (writeU16 self.windowSize)
  let h ← patch h 39 [if self.flags &&& flagDegraded ≠ 0 then 0x01 else 0]
  let h ← patch h 56 (writeU32 (UInt32.ofNat self.payload.length))
  patch h 60 (writeU32 self.origPayloadLen)

/-- Appends the record to `out`: header, payload, and then the checksum, written
back into the header. -/
def encode (crc32 : List UInt8 → UInt32) (self : WalRecord) (out : List UInt8) :
    Checked (List UInt8) := do
  let start := out.length
  let out := out ++ List.replicate walHeaderSize 0
  let h ← self.writeHeader (← slice out start (start + walHeaderSize))
  let out ← patch out start h
  let out := out ++ self.payload
  let crc ← crc32Of crc32 (← slice out start out.length)
  patch out (start + 4) (writeU32 crc)

/-- The four checks (magic, version, length, checksum) and the record behind them.
Any check that fails gives `none`: the tail is dirty. -/
def tryDecode (crc32 : List UInt8 → UInt32) (buf : List UInt8) (pos : Nat) :
    Checked (Option (WalRecord × Nat)) := do
  if (← sub buf.length pos) < walHeaderSize then
    return none
  let h ← slice buf pos (pos + walHeaderSize)
  if readU16 (← slice h 0 2) ≠ walMagic then
    return none
  if (← index h 2) ≠ walVersion then
    return none
  let payloadLen := (readU32 (← slice h 56 60)).toNat
  let total := walHeaderSize + payloadLen
  if (← sub buf.length pos) < total then
    return none
  let expected := readU32 (← slice h 4 8)
  let actual ← crc32Of crc32 (← slice buf pos (pos + total))
  if actual ≠ expected then
    return none
  let origLen := readU32 (← slice h 60 64)
  let flags : UInt64 := 0
  let flags := if origLen > UInt32.ofNat payloadLen then flags ||| flagTruncated else flags
  let flags := if (← index h 39) &&& 0x01 ≠ 0 then flags ||| flagDegraded else flags
  return some
    ({  timestampNs := readU64 (← slice h 8 16)
        flags := flags
        tcpFlags := ← index h 3
        tcpSeq := readU32 (← slice h 29 33)
        tcpAck := readU32 (← slice h 33 37)
        windowSize := readU16 (← slice h 37 39)
        srcIp := ← Octets.ofSlice (← slice h 16 20)
        dstIp := ← Octets.ofSlice (← slice h 20 24)
        srcPort := readU16 (← slice h 24 26)
        dstPort := readU16 (← slice h 26 28)
        proto := (← index h 28).toUInt16
        origPayloadLen := origLen
        payload := ← slice buf (pos + walHeaderSize) (pos + total) },
      pos + total)

/-- The loop of `decode_stream`, with a bound on its number of iterations. -/
def decodeLoop (crc32 : List UInt8 → UInt32) (buf : List UInt8) :
    Nat → List WalRecord → Nat → Checked (List WalRecord × Nat)
  | 0, _, _ => .error .outOfFuel
  | fuel + 1, records, pos => do
    match ← tryDecode crc32 buf pos with
    | some (rec, next) => decodeLoop crc32 buf fuel (records ++ [rec]) next
    | none => return (records, ← sub buf.length pos)

/-- All complete records of a stream and the number of residual bytes.  The loop
never needs more than one iteration for each byte and a last one to stop. -/
def decodeStream (crc32 : List UInt8 → UInt32) (buf : List UInt8) :
    Checked (List WalRecord × Nat) :=
  decodeLoop crc32 buf (buf.length + 1) [] 0

end WalRecord
end SovProbe
