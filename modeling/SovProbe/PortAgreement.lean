import SovProbe.OnWire
import SovProbe.ProbeLog
import SovProbe.Sov2Pcap

/-! # Two filters for ports

A port can be asked for in two places: in the whitelist of the kernel's classifier, which
reads it from the packet, and with `--filter-port` when the log is converted, from a record
that another parser has made.  They agree: what the classifier submits for the ports `V` is
what it submits for more ports, less the records without a port in `V` (`captured_filter`).
So it makes no difference to the packets that come out whether a port is asked for when
they are captured or when they are converted (`filter_then_convert`).
-/

namespace SovProbe
open BigEndian

/-- The packet parser reads the ports of a TCP or UDP packet behind its IPv4 header, and does
not take an IPv6 packet for one. -/
structure ReadsPorts (fromEthernet : FromEthernet) : Prop where
  ports : ∀ {frame packet hdr transport b}, fromEthernet frame = some packet →
    packet.ip = some (.ipv4 hdr) → transportHeader packet = some transport →
    readU16 ((frame.drop 12).take 2) = ethPIp →
    frame[23]? = some ipprotoTcp ∨ frame[23]? = some ipprotoUdp → frame[14]? = some b →
    transport.srcPort = srcPortAt frame (14 + 4 * (b.toNat % 16)) ∧
      transport.dstPort = dstPortAt frame (14 + 4 * (b.toNat % 16))
  ipv6 : ∀ {frame packet hdr}, fromEthernet frame = some packet →
    readU16 ((frame.drop 12).take 2) = ethPIpv6 → packet.ip ≠ some (.ipv4 hdr)

/-- A packet at the interface, and what the capture thread finds when it takes it. -/
structure Passing where
  skb : SkBuff
  tsNs : UInt64
  degraded : Bool

/-- The record that comes of it, if it is submitted and can be sliced. -/
def Passing.captured (fromEthernet : FromEthernet) (slicer : Slicer) (helpers : Helpers)
    (e : Endian) (map : List (List UInt8)) (p : Passing) : Option WalRecord :=
  match sovprobeClassify helpers e map p.skb with
  | .ok ⟨_, some buf⟩ => slicer.process fromEthernet buf p.tsNs p.degraded
  | _ => none

/-- One of its ports is among them. -/
def WalRecord.hasPort (ports : List UInt16) (r : WalRecord) : Bool :=
  decide (r.srcPort ∈ ports ∨ r.dstPort ∈ ports)

/-! ## What the slicer reads -/

section
variable {fromEthernet : FromEthernet} {slicer : Slicer} {frame data : List UInt8} {tsNs : UInt64}
  {degraded : Bool} {r : WalRecord}

theorem take_drop_take {i n k : Nat} (h : i + n ≤ k) :
    ((frame.take k).drop i).take n = (frame.drop i).take n := by
  rw [List.drop_take, List.take_take, Nat.min_eq_left (by omega)]

/-- The ports of a record are those the parser has read. -/
theorem ports_of_process (h : slicer.process fromEthernet frame tsNs degraded = some r) :
    ∃ packet hdr transport, fromEthernet frame = some packet ∧ packet.ip = some (.ipv4 hdr) ∧
      transportHeader packet = some transport ∧ r.srcPort = transport.srcPort ∧
      r.dstPort = transport.dstPort := by
  obtain ⟨packet, hdr, transport, hpacket, hip, htransport⟩ := accepted_of_process h
  refine ⟨packet, hdr, transport, hpacket, hip, htransport, ?_⟩
  unfold Slicer.process at h
  simp only [hpacket, hip, htransport, Option.bind_eq_bind, Option.bind_some, Option.pure_def] at h
  rw [← Option.some.inj h]
  exact ⟨rfl, rfl⟩

/-- **The record and the classifier read the same ports**, though the slicer sees a copy and
the classifier the linear part. -/
theorem ReadsPorts.of_classified (hparser : ReadsPorts fromEthernet) {skb : SkBuff} {off : Nat}
    (h : TransportAt skb.linear off)
    (hr : slicer.process fromEthernet (skb.bytes.take (min skb.bytes.length 4608)) tsNs degraded =
      some r) :
    r.srcPort = srcPortAt skb.linear off ∧ r.dstPort = dstPortAt skb.linear off := by
  obtain ⟨hheaders, hend⟩ := h
  have hlength : skb.linear.length = min skb.linearLen skb.bytes.length := List.length_take
  -- what is read lies in the linear part and in the copy
  have hpart : ∀ i, i + 2 ≤ skb.linear.length → i + 2 ≤ 4608 →
      ((skb.bytes.take (min skb.bytes.length 4608)).drop i).take 2 =
        (skb.linear.drop i).take 2 := by
    intro i hlinear hcopy
    rw [SkBuff.linear, take_drop_take (by omega), take_drop_take (by omega)]
  have hbyte : ∀ i, i < skb.linear.length → i < 4608 →
      (skb.bytes.take (min skb.bytes.length 4608))[i]? = skb.linear[i]? := by
    intro i hlinear hcopy
    rw [SkBuff.linear, List.getElem?_take_of_lt (by omega), List.getElem?_take_of_lt (by omega)]
  obtain ⟨packet, hdr, transport, hpacket, hip, htransport, hsrc, hdst⟩ := ports_of_process hr
  rcases hheaders with ⟨hmin, htype, hprotocol, b, hfirst, rfl⟩ | ⟨hmin, htype, -, -⟩
  · rw [← hpart 12 (by omega) (by omega)] at htype
    rw [← hbyte 23 (by omega) (by omega)] at hprotocol
    rw [← hbyte 14 (by omega) (by omega)] at hfirst
    have hports := hparser.ports hpacket hip htransport htype hprotocol hfirst
    have hihl : b.toNat % 16 < 16 := Nat.mod_lt _ (by decide)
    rw [hsrc, hdst, hports.1, hports.2, srcPortAt, srcPortAt, dstPortAt, dstPortAt]
    rw [hpart _ (by omega) (by omega), hpart _ (by omega) (by omega)]
    exact ⟨rfl, rfl⟩
  · rw [← hpart 12 (by omega) (by omega)] at htype
    exact absurd hip (hparser.ipv6 hpacket htype)

end

/-! ## The filters -/

section
variable {fromEthernet : FromEthernet} {helpers : Helpers} {e : Endian} {V W : List UInt16}
  {mapV mapW : List (List UInt8)}

/-- **What is captured** of a packet: its record, if one of its ports is asked for. -/
theorem Passing.captured_eq_some {slicer : Slicer} {r : WalRecord}
    (hparser : ReadsPorts fromEthernet) (hload : PortFilter.load e W = .ok mapW) {p : Passing}
    (hhelpers : helpers.Succeed p.skb) :
    p.captured fromEthernet slicer helpers e mapW = some r ↔
      (∃ off, TransportAt p.skb.linear off) ∧
      slicer.process fromEthernet (p.skb.bytes.take (min p.skb.bytes.length 4608)) p.tsNs
        p.degraded = some r ∧ r.hasPort W = true := by
  obtain ⟨submitted, hclassify, hiff, hcopy⟩ := sovprobeClassify_eq hload hhelpers
  unfold captured
  rw [hclassify]
  cases submitted with
  | none =>
    refine iff_of_false nofun ?_
    rintro ⟨⟨off, hoff⟩, hprocess, hport⟩
    obtain ⟨hsrc, hdst⟩ := hparser.of_classified hoff hprocess
    rw [WalRecord.hasPort, decide_eq_true_eq, hsrc, hdst] at hport
    cases hiff.mpr ⟨off, hoff, hport⟩
  | some buf =>
    obtain ⟨off, hoff, hports⟩ := hiff.mp rfl
    obtain rfl := hcopy buf rfl
    constructor
    · intro hprocess
      obtain ⟨hsrc, hdst⟩ := hparser.of_classified hoff hprocess
      refine ⟨⟨off, hoff⟩, hprocess, ?_⟩
      rwa [WalRecord.hasPort, decide_eq_true_eq, hsrc, hdst]
    · rintro ⟨-, hprocess, -⟩
      exact hprocess

/-- **The classifier keeps what a filter of the records would keep.** -/
theorem captured_filter (slicer : Slicer) (hparser : ReadsPorts fromEthernet)
    (hV : PortFilter.load e V = .ok mapV) (hW : PortFilter.load e W = .ok mapW) (hsub : V ⊆ W)
    {ps : List Passing} (hhelpers : ∀ p ∈ ps, helpers.Succeed p.skb) :
    (ps.filterMap (Passing.captured fromEthernet slicer helpers e mapW)).filter
        (WalRecord.hasPort V) =
      ps.filterMap (Passing.captured fromEthernet slicer helpers e mapV) := by
  rw [List.filter_filterMap]
  refine List.filterMap_congr fun p hp => Option.ext fun r => ?_
  rw [Option.filter_eq_some_iff, Passing.captured_eq_some hparser hW (hhelpers p hp),
    Passing.captured_eq_some hparser hV (hhelpers p hp)]
  constructor
  · rintro ⟨⟨htransport, hprocess, -⟩, hport⟩
    exact ⟨htransport, hprocess, hport⟩
  · rintro ⟨htransport, hprocess, hport⟩
    refine ⟨⟨htransport, hprocess, ?_⟩, hport⟩
    rw [WalRecord.hasPort, decide_eq_true_eq] at hport ⊢
    exact hport.imp (fun h => hsub h) fun h => hsub h

end

/-- The converter's filter is the one for its port. -/
theorem writePackets_some (port : UInt16) (records : List WalRecord) :
    writePackets (some port) records =
      writePackets none (records.filter (WalRecord.hasPort [port])) := by
  induction records with
  | nil => rfl
  | cons r records ih =>
    have hpasses : passes (some port) r = r.hasPort [port] := by
      rw [Bool.eq_iff_iff]
      simp [passes, WalRecord.hasPort, or_iff_not_imp_left, not_imp_comm]
    by_cases hport : r.hasPort [port] = true
    · rw [writePackets, hpasses, if_pos hport, List.filter_cons_of_pos hport, writePackets, ih]
      rfl
    · rw [writePackets, hpasses, if_neg hport, List.filter_cons_of_neg hport, ih]

/-- What the log keeps of a record has its ports. -/
theorem filter_normalised (ports : List UInt16) (records : List WalRecord) :
    (records.map WalRecord.normalised).filter (WalRecord.hasPort ports) =
      (records.filter (WalRecord.hasPort ports)).map WalRecord.normalised := by
  have hsame : WalRecord.hasPort ports ∘ WalRecord.normalised = WalRecord.hasPort ports := rfl
  rw [List.filter_map, hsame]

section
variable {fromEthernet : FromEthernet} {helpers : Helpers} {e : Endian} {cfg : Config}
  {mapPort mapW : List (List UInt8)} {port : UInt16}

/-- What is captured can be encoded. -/
theorem captured_encodable (hvalid : cfg.validate = .ok ()) (map : List (List UInt8))
    (ps : List Passing) :
    ∀ r ∈ ps.filterMap (Passing.captured fromEthernet ⟨cfg.sliceBytes.toNat⟩ helpers e map),
      r.Encodable := by
  intro r hr
  obtain ⟨p, -, hcaptured⟩ := List.mem_filterMap.mp hr
  unfold Passing.captured at hcaptured
  split at hcaptured
  · exact encodable_of_process hvalid hcaptured
  · cases hcaptured

/-- **A port can be asked for early or late.**  Of the same packets two logs are made: one with
a whitelist that has the port among others, and one with a whitelist of this port alone.  Both
decode, and the packets the first gives under `--filter-port` are those the second gives,
with the filter and without. -/
theorem filter_then_convert (hvalid : cfg.validate = .ok ()) (hparser : ReadsPorts fromEthernet)
    (hport : port ∈ cfg.capturePorts) (hW : PortFilter.load e cfg.capturePorts = .ok mapW)
    (hmap : PortFilter.load e [port] = .ok mapPort) {ps : List Passing}
    (hhelpers : ∀ p ∈ ps, helpers.Succeed p.skb) (crc32 : List UInt8 → UInt32)
    (format : PcapFormat) :
    ∃ wide narrow,
      decoded crc32 format (some (.raw (WalRecord.encoding crc32
        (ps.filterMap (Passing.captured fromEthernet ⟨cfg.sliceBytes.toNat⟩ helpers e mapW))))) =
          some wide ∧
      decoded crc32 format (some (.raw (WalRecord.encoding crc32
        (ps.filterMap (Passing.captured fromEthernet ⟨cfg.sliceBytes.toNat⟩ helpers e mapPort))))) =
          some narrow ∧
      writePackets (some port) wide = writePackets none narrow ∧
      writePackets (some port) narrow = writePackets none narrow := by
  have hagree := captured_filter ⟨cfg.sliceBytes.toNat⟩ hparser hmap hW
    (List.cons_subset.mpr ⟨hport, List.nil_subset _⟩) hhelpers
  have hidle := captured_filter ⟨cfg.sliceBytes.toNat⟩ hparser hmap hmap
    (List.Subset.refl _) hhelpers
  refine ⟨_, _, decoded_encoding crc32 format (captured_encodable hvalid mapW ps),
    decoded_encoding crc32 format (captured_encodable hvalid mapPort ps), ?_, ?_⟩
  · rw [writePackets_some, filter_normalised, hagree]
  · rw [writePackets_some, filter_normalised, hidle]

end

/-! ## A parser that reads ports -/

theorem headersOnly_readsPorts : ReadsPorts headersOnly where
  ports := by
    intro frame packet hdr transport b hpacket hip htransport _ _ hfirst
    obtain ⟨found, hfound, rfl⟩ := Option.map_eq_some_iff.mp hpacket
    have hheaders := Internet.layout_eq_some.mp (Option.filter_eq_some_iff.mp hfound).1
    have hbyte : Internet.byteAt frame 14 = b := by rw [Internet.byteAt, hfirst, Option.getD_some]
    have hl4 : found.transport = 14 + 4 * (b.toNat % 16) := by
      rw [hheaders.headerLen, hbyte, ihl_toNat]
    rw [← hl4]
    by_cases htcp : Internet.byteAt frame 23 = 6
    · simp only [htcp, if_true, transportHeader] at htransport
      rw [← Option.some.inj htransport]
      exact ⟨rfl, rfl⟩
    · simp only [htcp, if_false, transportHeader] at htransport
      rw [← Option.some.inj htransport]
      exact ⟨rfl, rfl⟩
  ipv6 := by
    intro frame packet hdr hpacket htype
    obtain ⟨found, hfound, -⟩ := Option.map_eq_some_iff.mp hpacket
    have hipv4 : readU16 ((frame.drop 12).take 2) = 0x0800 :=
      (Internet.layout_eq_some.mp (Option.filter_eq_some_iff.mp hfound).1).etherType
    exact absurd (hipv4.symm.trans htype) (by decide)

/-- A whitelist with two ports. -/
def webConfig : Config := { defaultConfig with capturePorts := [80, 443] }

theorem filter_then_convert_https : ∃ wide narrow,
    decoded Crc.ieee .standard (some (.raw (WalRecord.encoding Crc.ieee
      ([⟨sampleSkb, 7, false⟩].filterMap (Passing.captured headersOnly ⟨webConfig.sliceBytes.toNat⟩
        roomyKernel .little [[0xBB, 0x01], [0x50, 0x00]]))))) = some wide ∧
    decoded Crc.ieee .standard (some (.raw (WalRecord.encoding Crc.ieee
      ([⟨sampleSkb, 7, false⟩].filterMap (Passing.captured headersOnly ⟨webConfig.sliceBytes.toNat⟩
        roomyKernel .little [[0xBB, 0x01]]))))) = some narrow ∧
    writePackets (some 443) wide = writePackets none narrow := by
  have hvalid : webConfig.validate = .ok () := by
    rw [Config.validate_eq_ok]
    decide
  have hport : (443 : UInt16) ∈ webConfig.capturePorts := by decide
  have hhelpers : ∀ p ∈ [(⟨sampleSkb, 7, false⟩ : Passing)], roomyKernel.Succeed p.skb :=
    fun p _ => roomyKernel_succeed p.skb
  obtain ⟨wide, narrow, hwide, hnarrow, hsame, -⟩ := filter_then_convert (e := .little) hvalid
    headersOnly_readsPorts hport rfl rfl hhelpers Crc.ieee .standard
  exact ⟨wide, narrow, hwide, hnarrow, hsame⟩

end SovProbe
