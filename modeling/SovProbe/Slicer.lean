import SovProbe.WalStream
import SovProbe.Internet

/-! # From a frame to a record

`parse/slicer.rs`.  The packet parser is a library outside the source: it is a
parameter, a function from the frame to the slices of its headers and the bytes behind
them.
-/

namespace SovProbe

/-- `TCP_FIN` -/
def tcpFin : UInt8 := 0x01
/-- `TCP_SYN` -/
def tcpSyn : UInt8 := 0x02
/-- `TCP_RST` -/
def tcpRst : UInt8 := 0x04
/-- `TCP_PSH` -/
def tcpPsh : UInt8 := 0x08
/-- `TCP_ACK` -/
def tcpAck : UInt8 := 0x10
/-- `TCP_URG` -/
def tcpUrg : UInt8 := 0x20

/-! ## What the packet parser gives -/

/-- The fields of an IPv4 header that are read. -/
structure Ipv4HeaderSlice where
  sourceAddr : Octets
  destinationAddr : Octets
  protocol : UInt8

/-- A network header; of one of IPv6 nothing is read. -/
inductive InternetSlice where
  | ipv4 (header : Ipv4HeaderSlice)
  | ipv6

/-- The fields of a TCP header that are read. -/
structure TcpHeaderSlice where
  sourcePort : UInt16
  destinationPort : UInt16
  sequenceNumber : UInt32
  acknowledgmentNumber : UInt32
  windowSize : UInt16
  fin : Bool
  syn : Bool
  rst : Bool
  psh : Bool
  ack : Bool
  urg : Bool

/-- The ports of a UDP header. -/
structure UdpHeaderSlice where
  sourcePort : UInt16
  destinationPort : UInt16

/-- What stands behind the network header. -/
inductive TransportSlice where
  | icmpv4
  | icmpv6
  | udp (header : UdpHeaderSlice)
  | tcp (header : TcpHeaderSlice)
  | unknown (protocol : UInt8)

/-- A packet taken apart; `payload` is what follows the last header. -/
structure SlicedPacket where
  ip : Option InternetSlice
  transport : Option TransportSlice
  payload : List UInt8

/-- `SlicedPacket::from_ethernet`, `none` for its errors. -/
abbrev FromEthernet := List UInt8 → Option SlicedPacket

/-- A packet parser that knows the headers of TCP and UDP over IPv4, and takes for the
payload whatever follows them.  A packet whose total length does not hold its IPv4 header
is an error. -/
def headersOnly : FromEthernet := fun bs =>
  let headers := (Internet.layout bs).filter fun found =>
    found.transport ≤ 14 + Internet.totalLength bs
  headers.map fun found =>
    let l4 := found.transport
    let octets := fun i => (⟨Internet.byteAt bs i, Internet.byteAt bs (i + 1),
      Internet.byteAt bs (i + 2), Internet.byteAt bs (i + 3)⟩ : Octets)
    let u16 := fun i => BigEndian.readU16 (Internet.part bs i 2)
    let flag := fun i => (Internet.byteAt bs (l4 + 13)).toNat.testBit i
    { ip := some (.ipv4 ⟨octets 26, octets 30, Internet.byteAt bs 23⟩)
      transport := some
        (if Internet.byteAt bs 23 = 6 then
          .tcp
            { sourcePort := u16 l4
              destinationPort := u16 (l4 + 2)
              sequenceNumber := BigEndian.readU32 (Internet.part bs (l4 + 4) 4)
              acknowledgmentNumber := BigEndian.readU32 (Internet.part bs (l4 + 8) 4)
              windowSize := u16 (l4 + 14)
              fin := flag 0
              syn := flag 1
              rst := flag 2
              psh := flag 3
              ack := flag 4
              urg := flag 5 }
        else .udp ⟨u16 l4, u16 (l4 + 2)⟩)
      payload := bs.drop found.payload }

/-! ## The slicer -/

/-- `Slicer` -/
structure Slicer where
  maxPayload : Nat

/-- What `transport_header` gives: ports, flags, sequence numbers, window and payload. -/
structure TransportMeta where
  srcPort : UInt16
  dstPort : UInt16
  flags : UInt8
  seq : UInt32
  ack : UInt32
  window : UInt16
  app : List UInt8

/-- `extract_tcp_flags`: one bit for each flag. -/
def extractTcpFlags (tcp : TcpHeaderSlice) : UInt8 :=
  let f : UInt8 := 0
  let f := if tcp.fin then f ||| tcpFin else f
  let f := if tcp.syn then f ||| tcpSyn else f
  let f := if tcp.rst then f ||| tcpRst else f
  let f := if tcp.psh then f ||| tcpPsh else f
  let f := if tcp.ack then f ||| tcpAck else f
  if tcp.urg then f ||| tcpUrg else f

/-- `transport_header`: what it can of TCP and UDP, nothing of others. -/
def transportHeader (packet : SlicedPacket) : Option TransportMeta :=
  match packet.transport with
  | some (.tcp tcp) =>
    some ⟨tcp.sourcePort, tcp.destinationPort, extractTcpFlags tcp, tcp.sequenceNumber,
      tcp.acknowledgmentNumber, tcp.windowSize, packet.payload⟩
  | some (.udp udp) => some ⟨udp.sourcePort, udp.destinationPort, 0, 0, 0, 0, packet.payload⟩
  | _ => none

namespace Slicer

/-- `Slicer::process`: the record of a frame, if it is TCP or UDP over IPv4. -/
def process (fromEthernet : FromEthernet) (self : Slicer) (frame : List UInt8) (tsNs : UInt64)
    (degraded : Bool) : Option WalRecord := do
  let packet ← fromEthernet frame
  match packet.ip with
  | some (.ipv4 hdr) =>
    let transport ← transportHeader packet
    let origPayloadLen := UInt32.ofNat transport.app.length
    let truncated := decide (transport.app.length > self.maxPayload)
    let sliced := if truncated then transport.app.take self.maxPayload else transport.app
    let flags : UInt64 := 0
    let flags := if degraded then flags ||| flagDegraded else flags
    let flags := if truncated then flags ||| flagTruncated else flags
    return {
      timestampNs := tsNs
      flags := flags
      tcpFlags := transport.flags
      tcpSeq := transport.seq
      tcpAck := transport.ack
      windowSize := transport.window
      srcIp := hdr.sourceAddr
      dstIp := hdr.destinationAddr
      srcPort := transport.srcPort
      dstPort := transport.dstPort
      proto := hdr.protocol.toUInt16
      origPayloadLen := origPayloadLen
      payload := sliced }
  | _ => none

end Slicer

/-! ## What the slicer makes of a packet -/

/-- What a record made from a packet has of it. -/
structure SlicedFrom (maxPayload : Nat) (hdr : Ipv4HeaderSlice) (transport : TransportMeta)
    (tsNs : UInt64) (degraded : Bool) (r : WalRecord) : Prop where
  timestampNs : r.timestampNs = tsNs
  proto : r.proto = hdr.protocol.toUInt16
  tcpFlags : r.tcpFlags = transport.flags
  payload : r.payload = transport.app.take maxPayload
  origPayloadLen : r.origPayloadLen = UInt32.ofNat transport.app.length
  flags : r.flags = WalRecord.flagsOf (transport.app.length > maxPayload) (degraded = true)

variable {fromEthernet : FromEthernet} {slicer : Slicer} {frame : List UInt8} {tsNs : UInt64}
  {degraded : Bool} {packet : SlicedPacket} {r : WalRecord} {hdr : Ipv4HeaderSlice}
  {transport : TransportMeta}

/-- The flags the slicer sets are those a decoder derives. -/
theorem slicer_flags (truncated : Prop) [Decidable truncated] (degraded : Bool) :
    (if truncated then (if degraded then 0 ||| flagDegraded else 0) ||| flagTruncated
      else if degraded then 0 ||| flagDegraded else 0) =
      WalRecord.flagsOf truncated (degraded = true) := by
  unfold WalRecord.flagsOf
  by_cases h : truncated <;> cases degraded <;> simp [h, UInt64.or_comm]

variable (slicer tsNs degraded) in
/-- **What the slicer computes** on a packet it accepts. -/
theorem process_eq (hpacket : fromEthernet frame = some packet)
    (hip : packet.ip = some (.ipv4 hdr)) (htransport : transportHeader packet = some transport) :
    ∃ r, slicer.process fromEthernet frame tsNs degraded = some r ∧
      SlicedFrom slicer.maxPayload hdr transport tsNs degraded r := by
  have hsliced : (if transport.app.length > slicer.maxPayload then
      transport.app.take slicer.maxPayload else transport.app) =
        transport.app.take slicer.maxPayload := by
    by_cases hlong : transport.app.length > slicer.maxPayload
    · rw [if_pos hlong]
    · rw [if_neg hlong, List.take_of_length_le (Nat.not_lt.mp hlong)]
  unfold Slicer.process
  simp only [hpacket, hip, htransport, Option.bind_eq_bind, Option.bind_some, Option.pure_def,
    decide_eq_true_eq, hsliced, slicer_flags, Option.some.injEq, exists_eq_left']
  exact ⟨rfl, rfl, rfl, rfl, rfl, rfl⟩

/-- It accepts only TCP and UDP over IPv4. -/
theorem accepted_of_process (h : slicer.process fromEthernet frame tsNs degraded = some r) :
    ∃ packet hdr transport, fromEthernet frame = some packet ∧ packet.ip = some (.ipv4 hdr) ∧
      transportHeader packet = some transport := by
  unfold Slicer.process at h
  cases hpacket : fromEthernet frame with
  | none =>
    rw [hpacket] at h
    cases h
  | some packet =>
    rw [hpacket, Option.bind_eq_bind, Option.bind_some] at h
    split at h
    · rename_i hdr hip
      cases htransport : transportHeader packet with
      | none =>
        rw [htransport] at h
        cases h
      | some transport => exact ⟨packet, hdr, transport, rfl, hip, htransport⟩
    · cases h

/-- **What the slicer computes.** -/
theorem slicedFrom_of_process (h : slicer.process fromEthernet frame tsNs degraded = some r) :
    ∃ packet hdr transport, fromEthernet frame = some packet ∧ packet.ip = some (.ipv4 hdr) ∧
      transportHeader packet = some transport ∧
      SlicedFrom slicer.maxPayload hdr transport tsNs degraded r := by
  obtain ⟨packet, hdr, transport, hpacket, hip, htransport⟩ := accepted_of_process h
  obtain ⟨r', hr', hsliced⟩ := process_eq slicer tsNs degraded hpacket hip htransport
  obtain rfl : r' = r := Option.some.inj (hr'.symm.trans h)
  exact ⟨packet, hdr, transport, hpacket, hip, htransport, hsliced⟩

/-- The payload of the record is what follows the headers the parser found. -/
theorem app_of_transportHeader (h : transportHeader packet = some transport) :
    transport.app = packet.payload := by
  unfold transportHeader at h
  split at h
  · rw [← Option.some.inj h]
  · rw [← Option.some.inj h]
  · cases h

/-- The six flags fit six bits. -/
theorem extractTcpFlags_and (tcp : TcpHeaderSlice) :
    extractTcpFlags tcp &&& 0x3F = extractTcpFlags tcp := by
  obtain ⟨_, _, _, _, _, fin, syn, rst, psh, ack, urg⟩ := tcp
  have key : ∀ fin syn rst psh ack urg : Bool,
      extractTcpFlags ⟨0, 0, 0, 0, 0, fin, syn, rst, psh, ack, urg⟩ &&& 0x3F =
        extractTcpFlags ⟨0, 0, 0, 0, 0, fin, syn, rst, psh, ack, urg⟩ := by decide
  exact key fin syn rst psh ack urg

end SovProbe
