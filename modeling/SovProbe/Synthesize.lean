import SovProbe.Slicer

/-! # From a record to a frame

`synthesize` of `sov2pcap.rs`, and what is left of a packet's metadata at the end: the
slicer, the 64-byte header and the synthesized frame are three layouts of the same
fields.
-/

namespace SovProbe
open BigEndian Internet

/-- `src_mac` -/
def srcMac : List UInt8 := [0x02, 0x00, 0x00, 0x00, 0x00, 0x01]
/-- `dst_mac` -/
def dstMac : List UInt8 := [0x02, 0x00, 0x00, 0x00, 0x00, 0x02]

/-- The length of the transport header `synthesize` writes. -/
def l4HeaderLen (proto : UInt16) : Nat := if proto = 6 then 20 else 8

/-- A complete frame: Ethernet, IPv4, TCP or UDP, and the payload; the checksums are zero. -/
def synthesize (rec : WalRecord) : List UInt8 :=
  let l4Len := l4HeaderLen rec.proto + rec.payload.length
  let out := dstMac ++ srcMac ++ [0x08, 0x00]
  let total := 20 + l4Len
  let tHi := UInt8.ofNat ((total >>> 8) &&& 0xFF)
  let tLo := UInt8.ofNat (total &&& 0xFF)
  let out := out ++ [0x45, 0x00, tHi, tLo]
  let out := out ++ [0x00, 0x01, 0x40, 0x00, 0x40, rec.proto.toUInt8, 0x00, 0x00]
  let out := out ++ rec.srcIp.toList
  let out := out ++ rec.dstIp.toList
  let spHi := (rec.srcPort >>> 8).toUInt8
  let spLo := (rec.srcPort &&& 0xFF).toUInt8
  let dpHi := (rec.dstPort >>> 8).toUInt8
  let dpLo := (rec.dstPort &&& 0xFF).toUInt8
  let transport :=
    if rec.proto = 6 then
      let winHi := (rec.windowSize >>> 8).toUInt8
      let winLo := (rec.windowSize &&& 0xFF).toUInt8
      [spHi, spLo, dpHi, dpLo] ++ writeU32 rec.tcpSeq ++ writeU32 rec.tcpAck ++
        [0x50, rec.tcpFlags, winHi, winLo, 0, 0, 0, 0]
    else
      [spHi, spLo, dpHi, dpLo] ++ writeU16 (UInt16.ofNat (8 + rec.payload.length)) ++ [0, 0]
  let out := out ++ transport
  out ++ rec.payload

/-- The packet a record describes. -/
def WalRecord.datagram (r : WalRecord) : Datagram where
  source := r.srcIp.toList
  destination := r.dstIp.toList
  protocol := r.proto.toUInt8
  srcPort := r.srcPort
  dstPort := r.dstPort
  transport := if r.proto = 6 then .tcp r.tcpSeq r.tcpAck r.tcpFlags r.windowSize else .udp
  payload := r.payload

/-! ## Splitting numbers into bytes -/

/-- A port, byte by byte. -/
theorem split_u16 (x : UInt16) : [(x >>> 8).toUInt8, (x &&& 0xFF).toUInt8] = writeU16 x := by
  have hlt : x.toNat < 65536 := x.toNat_lt
  have hhi : (x >>> 8).toUInt8 = UInt8.ofNat (x.toNat / 256 ^ 1) := by
    apply UInt8.toNat_inj.mp
    rw [UInt16.toNat_toUInt8, UInt16.toNat_shiftRight, UInt8.toNat_ofNat']
    show x.toNat >>> 8 % 2 ^ 8 = _
    rw [Nat.shiftRight_eq_div_pow, Nat.pow_one]
  have hlo : (x &&& 0xFF).toUInt8 = UInt8.ofNat (x.toNat / 256 ^ 0) := by
    apply UInt8.toNat_inj.mp
    rw [UInt16.toNat_toUInt8, UInt16.toNat_and, UInt8.toNat_ofNat', Nat.pow_zero, Nat.div_one]
    show (x.toNat &&& (2 ^ 8 - 1)) % 2 ^ 8 = _
    rw [Nat.and_two_pow_sub_one_eq_mod, Nat.mod_mod]
  rw [hhi, hlo]
  rfl

/-- The total length, byte by byte. -/
theorem split_total (n : Nat) :
    [UInt8.ofNat ((n >>> 8) &&& 0xFF), UInt8.ofNat (n &&& 0xFF)] = bytes 2 n := by
  have hbyte : ∀ m : Nat, UInt8.ofNat (m &&& 0xFF) = UInt8.ofNat m := by
    intro m
    apply UInt8.toNat_inj.mp
    rw [UInt8.toNat_ofNat', UInt8.toNat_ofNat', Nat.and_two_pow_sub_one_eq_mod m 8, Nat.mod_mod]
  rw [hbyte, hbyte, Nat.shiftRight_eq_div_pow, bytes, bytes, bytes, Nat.pow_zero, Nat.div_one,
    Nat.pow_one]

theorem readU16_bytes {n : Nat} (h : n < 2 ^ 16) : (readU16 (bytes 2 n)).toNat = n := by
  rw [readU16, value_bytes, UInt16.toNat_ofNat']
  omega

/-! ## Reading the frame back -/

/-- The IPv4 total length `synthesize` writes. -/
def totalLen (r : WalRecord) : Nat := 20 + (l4HeaderLen r.proto + r.payload.length)

/-- The network and link headers, and the payload behind a transport header. -/
def frameOf (r : WalRecord) (transport : List UInt8) : List UInt8 :=
  dstMac ++ (srcMac ++ ([0x08, 0x00, 0x45, 0x00] ++ (bytes 2 (totalLen r) ++
    ([0x00, 0x01, 0x40, 0x00, 0x40, r.proto.toUInt8, 0x00, 0x00] ++ (r.srcIp.toList ++
      (r.dstIp.toList ++ (transport ++ r.payload)))))))

theorem synthesize_tcp {r : WalRecord} (h : r.proto = 6) :
    synthesize r = frameOf r (writeU16 r.srcPort ++ (writeU16 r.dstPort ++ (writeU32 r.tcpSeq ++
      (writeU32 r.tcpAck ++
        ([0x50, r.tcpFlags] ++ (writeU16 r.windowSize ++ [0, 0, 0, 0])))))) := by
  rw [frameOf, totalLen, ← split_total, ← split_u16, ← split_u16, ← split_u16]
  unfold synthesize
  simp only [if_pos h, List.append_assoc, List.cons_append, List.nil_append]

theorem synthesize_udp {r : WalRecord} (h : r.proto ≠ 6) :
    synthesize r = frameOf r (writeU16 r.srcPort ++ (writeU16 r.dstPort ++
      (writeU16 (UInt16.ofNat (8 + r.payload.length)) ++ [0, 0]))) := by
  rw [frameOf, totalLen, ← split_total, ← split_u16 r.srcPort, ← split_u16 r.dstPort]
  unfold synthesize
  simp only [if_neg h, List.append_assoc, List.cons_append, List.nil_append]

/-- What a reader finds in the network and link headers. -/
theorem frameOf_headers (r : WalRecord) (transport : List UInt8) :
    (frameOf r transport).length = 34 + transport.length + r.payload.length ∧
      readU16 (part (frameOf r transport) 12 2) = 0x0800 ∧
      byteAt (frameOf r transport) 14 = 0x45 ∧
      readU16 (part (frameOf r transport) 20 2) &&& 0x3FFF = 0 ∧
      part (frameOf r transport) 16 2 = bytes 2 (totalLen r) ∧
      byteAt (frameOf r transport) 23 = r.proto.toUInt8 ∧
      part (frameOf r transport) 26 4 = r.srcIp.toList ∧
      part (frameOf r transport) 30 4 = r.dstIp.toList := by
  have hetherType : part (frameOf r transport) 12 2 = [0x08, 0x00] := rfl
  have hfragment : part (frameOf r transport) 20 2 = [0x40, 0x00] := rfl
  refine ⟨?_, ?_, rfl, ?_, rfl, rfl, rfl, rfl⟩
  · simp only [frameOf, List.length_append, bytes_length, Octets.toList_length]
    show 6 + (6 + (4 + (2 + (8 + (4 + (4 + _)))))) = _
    omega
  · rw [hetherType]
    decide
  · rw [hfragment]
    decide

/-- The layout a reader finds. -/
theorem layout_frameOf {r : WalRecord} {transport : List UInt8}
    (hends : TransportEnds (frameOf r transport) 34 (34 + transport.length)) :
    layout (frameOf r transport) = some ⟨34, 34 + transport.length⟩ := by
  obtain ⟨hlength, hetherType, hfirst, hfragment, -⟩ := frameOf_headers r transport
  refine layout_eq_some.mpr ?_
  exact {
    complete := by rw [hlength]; exact Nat.le_add_right _ _
    etherType := hetherType
    version := by rw [hfirst]; rfl
    headerLen := by rw [hfirst]; rfl
    network := Nat.le_refl _
    whole := hfragment
    ends := hends }

/-- A TCP packet is read back. -/
theorem parse_synthesize_tcp {r : WalRecord} (hproto : r.proto = 6)
    (hflags : r.tcpFlags &&& 0x3F = r.tcpFlags) (hfits : totalLen r < 2 ^ 16) :
    parse (synthesize r) = some r.datagram := by
  rw [synthesize_tcp hproto]
  generalize htransport : writeU16 r.srcPort ++ _ = transport
  have hlen : transport.length = 20 := by
    rw [← htransport]
    rfl
  obtain ⟨hlength, -, -, -, htotal, hprotocol, hsource, hdestination⟩ :=
    frameOf_headers r transport
  have htotalLen : totalLen r = 40 + r.payload.length := by
    rw [totalLen, l4HeaderLen, if_pos hproto]
    omega
  have hprotocol6 : byteAt (frameOf r transport) 23 = 6 := by
    rw [hprotocol, hproto]
    rfl
  have hlayout : layout (frameOf r transport) = some ⟨34, 54⟩ := by
    have hoffset : byteAt (frameOf r transport) 46 = 0x50 := htransport ▸ rfl
    have hlayout := layout_frameOf (.tcp hprotocol6 (by rw [hoffset, hlen]; rfl) (by omega))
    rwa [hlen] at hlayout
  have hstop : 14 + (readU16 (part (frameOf r transport) 16 2)).toNat =
      54 + r.payload.length := by
    rw [htotal, readU16_bytes hfits, htotalLen]
    omega
  have hsrc : part (frameOf r transport) 34 2 = writeU16 r.srcPort := htransport ▸ rfl
  have hdst : part (frameOf r transport) 36 2 = writeU16 r.dstPort := htransport ▸ rfl
  have hseq : part (frameOf r transport) 38 4 = writeU32 r.tcpSeq := htransport ▸ rfl
  have hack : part (frameOf r transport) 42 4 = writeU32 r.tcpAck := htransport ▸ rfl
  have hflagByte : byteAt (frameOf r transport) 47 = r.tcpFlags := htransport ▸ rfl
  have hwindow : part (frameOf r transport) 48 2 = writeU16 r.windowSize := htransport ▸ rfl
  have hpayload : part (frameOf r transport) 54 (54 + r.payload.length - 54) = r.payload := by
    have hdrop : (frameOf r transport).drop 54 = r.payload := htransport ▸ rfl
    rw [part, hdrop, Nat.add_sub_cancel_left, List.take_length]
  rw [parse_tcp hlayout hprotocol6 hstop (Nat.le_add_right _ _) (by omega), fieldsAt, tcpAt,
    WalRecord.datagram, if_pos hproto, hsource, hdestination, hprotocol]
  simp only [hsrc, hdst, hseq, hack, hflagByte, hflags, hwindow, hpayload, readU16_writeU16,
    readU32_writeU32]

/-- A UDP packet is read back. -/
theorem parse_synthesize_udp {r : WalRecord} (hproto : r.proto = 17)
    (hfits : totalLen r < 2 ^ 16) : parse (synthesize r) = some r.datagram := by
  have hnot : r.proto ≠ 6 := by
    rw [hproto]
    decide
  rw [synthesize_udp hnot]
  generalize htransport : writeU16 r.srcPort ++ _ = transport
  have hlen : transport.length = 8 := by
    rw [← htransport]
    rfl
  obtain ⟨hlength, -, -, -, htotal, hprotocol, hsource, hdestination⟩ :=
    frameOf_headers r transport
  have htotalLen : totalLen r = 28 + r.payload.length := by
    rw [totalLen, l4HeaderLen, if_neg hnot]
    omega
  have hprotocol17 : byteAt (frameOf r transport) 23 = 17 := by
    rw [hprotocol, hproto]
    rfl
  have hlayout : layout (frameOf r transport) = some ⟨34, 42⟩ := by
    have hlayout := layout_frameOf (.udp hprotocol17 (by rw [hlen]))
    rwa [hlen] at hlayout
  have hstop : 14 + (readU16 (part (frameOf r transport) 16 2)).toNat =
      42 + r.payload.length := by
    rw [htotal, readU16_bytes hfits, htotalLen]
    omega
  have hudpStop : 34 + (readU16 (part (frameOf r transport) (34 + 4) 2)).toNat =
      42 + r.payload.length := by
    have hfield : part (frameOf r transport) (34 + 4) 2 =
        writeU16 (UInt16.ofNat (8 + r.payload.length)) := htransport ▸ rfl
    rw [hfield, readU16_writeU16, UInt16.toNat_ofNat']
    omega
  have hsrc : part (frameOf r transport) 34 2 = writeU16 r.srcPort := htransport ▸ rfl
  have hdst : part (frameOf r transport) 36 2 = writeU16 r.dstPort := htransport ▸ rfl
  have hpayload : part (frameOf r transport) 42 (42 + r.payload.length - 42) = r.payload := by
    have hdrop : (frameOf r transport).drop 42 = r.payload := htransport ▸ rfl
    rw [part, hdrop, Nat.add_sub_cancel_left, List.take_length]
  rw [parse_udp hlayout hprotocol17 hstop hudpStop (Nat.le_add_right _ _) (Nat.le_refl _)
      (by omega), fieldsAt, WalRecord.datagram, if_neg hnot, hsource, hdestination, hprotocol]
  simp only [hsrc, hdst, hpayload, readU16_writeU16]

/-! ## From frame to frame -/

/-- What a standard parser says about protocols: a TCP header is not found in a packet
of protocol 17, nor a UDP header in one of protocol 6. -/
structure Standard (fromEthernet : FromEthernet) : Prop where
  tcp : ∀ {frame hdr tcp payload}, fromEthernet frame =
    some ⟨some (.ipv4 hdr), some (.tcp tcp), payload⟩ → hdr.protocol ≠ 17
  udp : ∀ {frame hdr udp payload}, fromEthernet frame =
    some ⟨some (.ipv4 hdr), some (.udp udp), payload⟩ → hdr.protocol ≠ 6

section
variable {fromEthernet : FromEthernet} {slicer : Slicer} {frame : List UInt8} {tsNs : UInt64}
  {degraded : Bool} {packet : SlicedPacket} {r : WalRecord} {hdr : Ipv4HeaderSlice}
  {transport : TransportMeta} {maxPayload : Nat}

/-- **The explicit truncation flag is the derived one**: decoding changes nothing. -/
theorem SlicedFrom.normalised_eq (h : SlicedFrom maxPayload hdr transport tsNs degraded r)
    (happ : transport.app.length < 2 ^ 32) : r.normalised = r := by
  have htruncated : r.origPayloadLen.toNat > r.payload.length ↔
      transport.app.length > maxPayload := by
    rw [h.origPayloadLen, UInt32.toNat_ofNat', Nat.mod_eq_of_lt happ, h.payload, List.length_take]
    omega
  have hdegraded : r.flags &&& flagDegraded ≠ 0 ↔ degraded = true := by
    rw [h.flags, WalRecord.flagsOf_and_degraded]
  have hflags : WalRecord.flagsOf (r.origPayloadLen.toNat > r.payload.length)
      (r.flags &&& flagDegraded ≠ 0) = r.flags := by
    simp only [htruncated, hdegraded]
    exact h.flags.symm
  unfold WalRecord.normalised
  dsimp only
  rw [hflags]

theorem SlicedFrom.encodable (h : SlicedFrom maxPayload hdr transport tsNs degraded r)
    (happ : transport.app.length < 2 ^ 32) : r.Encodable where
  proto_lt := by
    rw [h.proto, UInt8.toNat_toUInt16]
    exact hdr.protocol.toNat_lt
  payload_lt := by
    rw [h.payload, List.length_take]
    omega

/-- A record of protocol 6 is made from a TCP header. -/
theorem tcpFlags_of_process (hstandard : Standard fromEthernet)
    (hpacket : fromEthernet frame = some packet) (hip : packet.ip = some (.ipv4 hdr))
    (htransport : transportHeader packet = some transport) (hprotocol : hdr.protocol = 6) :
    transport.flags &&& 0x3F = transport.flags := by
  obtain ⟨ip, l4, payload⟩ := packet
  obtain rfl : ip = _ := hip
  unfold transportHeader at htransport
  split at htransport
  · rw [← Option.some.inj htransport]
    exact extractTcpFlags_and _
  · rename_i udp hudp
    obtain rfl : l4 = _ := hudp
    exact absurd hprotocol (hstandard.udp hpacket)
  · cases htransport

/-- **Metadata fidelity from frame to frame.**  A record the slicer makes from a TCP or
UDP packet decodes from its encoding to itself, flags included, and a standard reader
finds in the frame synthesized from it exactly what the record says: addresses,
protocol, ports and payload, and for TCP sequence and acknowledgment number, window
and flags. -/
theorem metadata_fidelity (crc32 : List UInt8 → UInt32) (hstandard : Standard fromEthernet)
    (hpacket : fromEthernet frame = some packet)
    (hr : slicer.process fromEthernet frame tsNs degraded = some r)
    (hproto : r.proto = 6 ∨ r.proto = 17) (happ : packet.payload.length < 2 ^ 32)
    (hfits : 20 + (l4HeaderLen r.proto + r.payload.length) < 2 ^ 16) :
    (∃ bytes, r.encode crc32 [] = .ok bytes ∧
      WalRecord.decodeStream crc32 bytes = .ok ([r], 0)) ∧
    parse (synthesize r) = some r.datagram := by
  obtain ⟨packet', hdr, transport, hpacket', hip, htransport, hsliced⟩ := slicedFrom_of_process hr
  obtain rfl : packet' = packet := Option.some.inj (hpacket'.symm.trans hpacket)
  rw [← app_of_transportHeader htransport] at happ
  constructor
  · refine ⟨r.frame crc32, WalRecord.encode_eq crc32 r [], ?_⟩
    have hencodable : ∀ r' ∈ [r], r'.Encodable :=
      fun r' hr' => List.mem_singleton.mp hr' ▸ hsliced.encodable happ
    have hdecode : WalRecord.decodeStream crc32 _ = _ :=
      WalRecord.decodeStream_encoding hencodable
    rw [WalRecord.encoding, List.flatMap_singleton, List.map_singleton,
      hsliced.normalised_eq happ] at hdecode
    exact hdecode
  · rcases hproto with htcp | hudp
    · have hprotocol : hdr.protocol = 6 := by
        apply UInt8.toNat_inj.mp
        rw [← UInt8.toNat_toUInt16, ← hsliced.proto, htcp]
        rfl
      refine parse_synthesize_tcp htcp ?_ hfits
      rw [hsliced.tcpFlags]
      exact tcpFlags_of_process hstandard hpacket hip htransport hprotocol
    · exact parse_synthesize_udp hudp hfits

end

/-- The parser that knows the headers only is a standard one in this respect. -/
theorem headersOnly_standard : Standard headersOnly where
  tcp {frame hdr tcp payload} h := by
    obtain ⟨found, -, hpacket⟩ := Option.map_eq_some_iff.mp h
    obtain ⟨hip, htransport, -⟩ := SlicedPacket.mk.inj hpacket
    have hprotocol : byteAt frame 23 = hdr.protocol :=
      congrArg Ipv4HeaderSlice.protocol (InternetSlice.ipv4.inj (Option.some.inj hip))
    rw [← hprotocol]
    intro hudp
    rw [hudp] at htransport
    cases htransport
  udp {frame hdr udp payload} h := by
    obtain ⟨found, -, hpacket⟩ := Option.map_eq_some_iff.mp h
    obtain ⟨hip, htransport, -⟩ := SlicedPacket.mk.inj hpacket
    have hprotocol : byteAt frame 23 = hdr.protocol :=
      congrArg Ipv4HeaderSlice.protocol (InternetSlice.ipv4.inj (Option.some.inj hip))
    rw [← hprotocol]
    intro htcp
    rw [htcp] at htransport
    cases htransport

/-- A TCP segment over IPv4 with five bytes of payload. -/
def sampleFrame : List UInt8 :=
  [0, 0, 0, 0, 0, 1, 0, 0, 0, 0, 0, 2, 0x08, 0x00,
    0x45, 0, 0, 45, 0, 0, 0, 0, 64, 6, 0, 0, 192, 168, 1, 10, 10, 0, 0, 1,
    0x30, 0x39, 0x01, 0xBB, 0, 0, 0, 1, 0, 0, 0, 2, 0x50, 0x18, 0x10, 0, 0, 0, 0, 0,
    104, 101, 108, 108, 111]

theorem metadata_fidelity_truncated : ∃ r,
    (Slicer.mk 3).process headersOnly sampleFrame 7 true = some r ∧
      (∃ bytes, r.encode Crc.ieee [] = .ok bytes ∧
        WalRecord.decodeStream Crc.ieee bytes = .ok ([r], 0)) ∧
      parse (synthesize r) = some r.datagram := by
  have hsome : ((Slicer.mk 3).process headersOnly sampleFrame 7 true).isSome = true := by decide
  obtain ⟨r, hr⟩ := Option.isSome_iff_exists.mp hsome
  have hpacket : (headersOnly sampleFrame).isSome = true := by decide
  obtain ⟨packet, hpacket⟩ := Option.isSome_iff_exists.mp hpacket
  have hpayload : (headersOnly sampleFrame).map SlicedPacket.payload =
      some [104, 101, 108, 108, 111] := by decide
  have hrecord : ((Slicer.mk 3).process headersOnly sampleFrame 7 true).map
      (fun r => (r.proto, r.payload)) = some (6, [104, 101, 108]) := by decide
  rw [hpacket] at hpayload
  rw [hr] at hrecord
  obtain ⟨hproto, hsliced⟩ := Prod.mk.inj (Option.some.inj hrecord)
  refine ⟨r, hr, metadata_fidelity Crc.ieee headersOnly_standard hpacket hr (Or.inl hproto) ?_ ?_⟩
  · rw [Option.some.inj hpayload]
    decide
  · rw [hproto, hsliced]
    decide

end SovProbe
