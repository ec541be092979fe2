import SovProbe.PortFilter
import SovProbe.Config
import SovProbe.Slicer

/-! # What a record says of the wire

A packet is cut twice: the kernel copies at most 4608 bytes of it, and the slicer keeps
at most `slice_bytes` of the payload.  The slicer sees only the copy.  So what it takes
for the length on the wire is the length of what the copy has behind the headers.
-/

namespace SovProbe
open Internet

/-- The packet parser reads the headers of every TCP or UDP packet over IPv4 whose total
length holds the IPv4 header, and takes for the payload the rest of the frame.  With a
smaller total length it is an error. -/
structure RestIsPayload (fromEthernet : FromEthernet) : Prop where
  accepts : ∀ {frame found}, layout frame = some found →
    found.transport ≤ 14 + totalLength frame → ∃ packet hdr transport,
      fromEthernet frame = some packet ∧ packet.ip = some (.ipv4 hdr) ∧
        transportHeader packet = some transport ∧ packet.payload = frame.drop found.payload
  rejects : ∀ {frame found}, layout frame = some found →
    14 + totalLength frame < found.transport → fromEthernet frame = none

/-- The record states the truth about a packet with the payload `onWire`. -/
structure StatesTruth (sliceBytes : Nat) (onWire : List UInt8) (r : WalRecord) : Prop where
  origPayloadLen : r.origPayloadLen.toNat = onWire.length
  payload : r.payload = onWire.take (min sliceBytes onWire.length)
  truncated : r.flags &&& flagTruncated ≠ 0 ↔ r.payload.length < onWire.length

variable {fromEthernet : FromEthernet} {sliceBytes : Nat} {onWire trailer : List UInt8}
  {hdr : Ipv4HeaderSlice} {transport : TransportMeta} {tsNs : UInt64} {degraded : Bool}
  {r : WalRecord} {helpers : Helpers} {e : Endian} {map : List (List UInt8)} {skb : SkBuff}
  {cfg : Config} {verdict : Int} {buf : List UInt8} {found : Layout}

/-- A record whose slicer saw the whole payload and nothing else. -/
theorem SlicedFrom.statesTruth (h : SlicedFrom sliceBytes hdr transport tsNs degraded r)
    (happ : transport.app = onWire) (hlen : onWire.length < 2 ^ 32) :
    StatesTruth sliceBytes onWire r where
  origPayloadLen := by
    rw [h.origPayloadLen, happ, UInt32.toNat_ofNat', Nat.mod_eq_of_lt hlen]
  payload := by rw [h.payload, happ, ← List.take_eq_take_min]
  truncated := by
    rw [h.flags, WalRecord.flagsOf_and_truncated, h.payload, happ, List.length_take]
    omega

/-- **The truth is what the slicer sees**: the first `n` bytes of payload and trailer
are the payload. -/
theorem SlicedFrom.statesTruth_iff_length
    (h : SlicedFrom sliceBytes hdr transport tsNs degraded r) {n : Nat}
    (happ : transport.app = (onWire ++ trailer).take n) (hn : n < 2 ^ 32) :
    StatesTruth sliceBytes onWire r ↔ onWire.length = min n (onWire ++ trailer).length := by
  have hlength : transport.app.length = min n (onWire ++ trailer).length := by
    rw [happ, List.length_take]
  constructor
  · intro htruth
    have horig := htruth.origPayloadLen
    rw [h.origPayloadLen, UInt32.toNat_ofNat', Nat.mod_eq_of_lt (by omega), hlength] at horig
    exact horig.symm
  · intro hall
    refine h.statesTruth ?_ (by omega)
    rw [happ, List.take_eq_take_min, ← hall, List.take_left]

/-- The copy has the headers, and so the total length. -/
theorem layout_copy (hlayout : layout skb.bytes = some found)
    (hbuf : buf = skb.bytes.take (min skb.bytes.length 4608)) :
    layout buf = some found ∧ totalLength buf = totalLength skb.bytes := by
  have hheaders := layout_eq_some.mp hlayout
  have hnetwork := hheaders.network
  have hends := hheaders.ends.le
  have hcopied : found.payload ≤ min skb.bytes.length 4608 :=
    Nat.le_min.mpr ⟨hheaders.complete, Nat.le_trans hheaders.payload_le (by decide)⟩
  rw [hbuf]
  exact ⟨layout_take hlayout hcopied, totalLength_take (by omega)⟩

variable (tsNs degraded) in
/-- What the slicer sees of a packet the kernel copied. -/
theorem process_copy (hparser : RestIsPayload fromEthernet) (slicer : Slicer)
    (hlayout : layout skb.bytes = some found)
    (htotal : found.transport ≤ 14 + totalLength skb.bytes)
    (hbuf : buf = skb.bytes.take (min skb.bytes.length 4608)) :
    ∃ r hdr transport, slicer.process fromEthernet buf tsNs degraded = some r ∧
      SlicedFrom slicer.maxPayload hdr transport tsNs degraded r ∧
      transport.app = (skb.bytes.drop found.payload).take
        (min skb.bytes.length 4608 - found.payload) := by
  obtain ⟨hcopy, hsame⟩ := layout_copy hlayout hbuf
  obtain ⟨packet, hdr, transport, hpacket, hip, htransport, hpayload⟩ :=
    hparser.accepts hcopy (hsame ▸ htotal)
  obtain ⟨r, hr, hsliced⟩ := process_eq slicer tsNs degraded hpacket hip htransport
  refine ⟨r, hdr, transport, hr, hsliced, ?_⟩
  rw [app_of_transportHeader htransport, hpayload, hbuf, List.drop_take]

/-- There is no record of a packet whose total length does not hold the IPv4 header. -/
theorem RestIsPayload.process_none (hparser : RestIsPayload fromEthernet) (slicer : Slicer)
    (hlayout : layout skb.bytes = some found)
    (htotal : 14 + totalLength skb.bytes < found.transport)
    (hbuf : buf = skb.bytes.take (min skb.bytes.length 4608)) :
    slicer.process fromEthernet buf tsNs degraded = none := by
  obtain ⟨hcopy, hsame⟩ := layout_copy hlayout hbuf
  rw [Slicer.process, hparser.rejects hcopy (hsame ▸ htotal)]
  rfl

/-- **A record states the truth exactly when the copy ends where the payload ends.**
A packet with TCP or UDP headers that the filter submits gives a record iff its total
length holds the IPv4 header.  The record's length field, its payload and its flag are those
of the payload on the wire iff headers and payload are what was copied: the packet fits 4608
bytes, and nothing follows the payload before that. -/
theorem statesTruth_iff (hparser : RestIsPayload fromEthernet)
    (hmap : PortFilter.load e cfg.capturePorts = .ok map) (hhelpers : helpers.Succeed skb)
    (hsubmitted : sovprobeClassify helpers e map skb = .ok ⟨verdict, some buf⟩)
    (hlayout : layout skb.bytes = some found)
    (hbytes : skb.bytes.drop found.payload = onWire ++ trailer) (tsNs : UInt64)
    (degraded : Bool) :
    ((∃ r, (Slicer.mk cfg.sliceBytes.toNat).process fromEthernet buf tsNs degraded = some r) ↔
        found.transport ≤ 14 + totalLength skb.bytes) ∧
      ∀ r, (Slicer.mk cfg.sliceBytes.toNat).process fromEthernet buf tsNs degraded = some r →
        (StatesTruth cfg.sliceBytes.toNat onWire r ↔
          found.payload + onWire.length = min skb.bytes.length 4608) := by
  obtain ⟨submitted, hclassify, -, hcopy⟩ := sovprobeClassify_eq hmap hhelpers
  rw [hclassify] at hsubmitted
  have hbuf := hcopy buf (Classified.mk.inj (Except.ok.inj hsubmitted)).2
  by_cases htotal : found.transport ≤ 14 + totalLength skb.bytes
  · obtain ⟨r, hdr, transport, hr, hsliced, happ⟩ :=
      process_copy tsNs degraded hparser ⟨cfg.sliceBytes.toNat⟩ hlayout htotal hbuf
    refine ⟨iff_of_true ⟨r, hr⟩ htotal, fun r' hr' => ?_⟩
    obtain rfl : r = r' := Option.some.inj (hr.symm.trans hr')
    rw [hbytes] at happ
    have hheaders := layout_eq_some.mp hlayout
    have hlength : skb.bytes.length = found.payload + (onWire ++ trailer).length := by
      rw [← hbytes, List.length_drop]
      exact (Nat.add_sub_cancel' hheaders.complete).symm
    have hle := hheaders.payload_le
    rw [hsliced.statesTruth_iff_length happ (by omega)]
    omega
  · have hnone : (Slicer.mk cfg.sliceBytes.toNat).process fromEthernet buf tsNs degraded = none :=
      hparser.process_none _ hlayout (Nat.not_le.mp htotal) hbuf
    rw [hnone]
    exact ⟨iff_of_false nofun htotal, nofun⟩

theorem headersOnly_restIsPayload : RestIsPayload headersOnly where
  accepts := by
    intro frame found hlayout htotal
    simp only [headersOnly, hlayout, Option.filter_some, htotal, decide_true, if_true,
      Option.map_some]
    by_cases htcp : byteAt frame 23 = 6
    · simp only [htcp, if_true]
      exact ⟨_, _, _, rfl, rfl, rfl, rfl⟩
    · simp only [htcp, if_false]
      exact ⟨_, _, _, rfl, rfl, rfl, rfl⟩
  rejects := by
    intro frame found hlayout htotal
    simp only [headersOnly, hlayout, Option.filter_some, Nat.not_le.mpr htotal, decide_false,
      Bool.false_eq_true, if_false, Option.map_none]

/-- The defaults with one port. -/
def httpsConfig : Config := { defaultConfig with capturePorts := [443] }

/-- A TCP segment over IPv4 with six bytes of payload. -/
def spokenSkb : SkBuff where
  bytes :=
    [0, 0, 0, 0, 0, 1, 0, 0, 0, 0, 0, 2, 0x08, 0x00,
      0x45, 0, 0, 46, 0, 0, 0, 0, 64, 6, 0, 0, 192, 168, 1, 10, 10, 0, 0, 1,
      0x30, 0x39, 0x01, 0xBB, 0, 0, 0, 1, 0, 0, 0, 2, 0x50, 0x18, 0x10, 0, 0, 0, 0, 0,
      104, 101, 108, 108, 111, 10]
  linearLen := 54
  linear_le := by decide
  length_lt := by decide

/-- Its record states the truth. -/
theorem statesTruth_iff_spoken : ∃ r,
    (Slicer.mk httpsConfig.sliceBytes.toNat).process headersOnly spokenSkb.bytes 7 false = some r ∧
      StatesTruth httpsConfig.sliceBytes.toNat [104, 101, 108, 108, 111, 10] r := by
  have hmap : PortFilter.load .little httpsConfig.capturePorts = .ok [[0xBB, 0x01]] := rfl
  have hclassify : sovprobeClassify roomyKernel .little [[0xBB, 0x01]] spokenSkb =
      .ok ⟨tcActOk, some spokenSkb.bytes⟩ := rfl
  have hlayout : layout spokenSkb.bytes = some ⟨34, 54⟩ := by decide
  have hbytes : spokenSkb.bytes.drop 54 = [104, 101, 108, 108, 111, 10] ++ [] := by decide
  obtain ⟨hrecorded, htruth⟩ := statesTruth_iff headersOnly_restIsPayload hmap
    (roomyKernel_succeed spokenSkb) hclassify hlayout hbytes 7 false
  obtain ⟨r, hr⟩ := hrecorded.mpr (by decide)
  exact ⟨r, hr, (htruth r hr).mpr (by decide)⟩

/-- The headers of a TCP segment over IPv4 with 5000 bytes of payload. -/
def jumboHeaders : List UInt8 :=
  [0, 0, 0, 0, 0, 1, 0, 0, 0, 0, 0, 2, 0x08, 0x00,
    0x45, 0, 0x13, 0xB0, 0, 0, 0, 0, 64, 6, 0, 0, 192, 168, 1, 10, 10, 0, 0, 1,
    0x30, 0x39, 0x01, 0xBB, 0, 0, 0, 1, 0, 0, 0, 0, 0x50, 0x10, 0x10, 0, 0, 0, 0, 0]

/-- The packet; only its headers are in the linear part. -/
def jumboSkb : SkBuff where
  bytes := jumboHeaders ++ List.replicate 5000 0
  linearLen := 54
  linear_le := by
    rw [List.length_append, List.length_replicate]
    decide
  length_lt := by
    rw [List.length_append, List.length_replicate]
    decide

theorem jumboSkb_length : jumboSkb.bytes.length = 5054 := by
  rw [jumboSkb, List.length_append, List.length_replicate]
  rfl

theorem jumboSkb_layout : layout jumboSkb.bytes = some ⟨34, 54⟩ := by
  have hheaders : layout jumboHeaders = some ⟨34, 54⟩ := by decide
  exact layout_append hheaders

theorem jumboSkb_total : 34 ≤ 14 + totalLength jumboSkb.bytes := by
  have hheaders : totalLength jumboSkb.bytes = totalLength jumboHeaders := by
    have hfront : jumboSkb.bytes.take 54 = jumboHeaders := List.take_left' rfl
    rw [← hfront, totalLength_take (by decide)]
  rw [hheaders]
  decide

theorem jumboSkb_submitted : sovprobeClassify roomyKernel .little [[0xBB, 0x01]] jumboSkb =
    .ok ⟨tcActOk, some (jumboSkb.bytes.take (min jumboSkb.bytes.length 4608))⟩ := by
  have hmap : PortFilter.load .little [443] = .ok [[0xBB, 0x01]] := rfl
  have hlinear : jumboSkb.linear = jumboHeaders := List.take_left' rfl
  obtain ⟨submitted, hclassify, hiff, hcopy⟩ :=
    sovprobeClassify_eq hmap (roomyKernel_succeed jumboSkb)
  have htransport : TransportAt jumboSkb.linear 34 := by
    rw [hlinear]
    exact ⟨Or.inl ⟨by decide, by decide, by decide, 0x45, by decide, by decide⟩, by decide⟩
  have hport : dstPortAt jumboSkb.linear 34 ∈ ([443] : List UInt16) := by
    rw [hlinear]
    decide
  obtain ⟨buf, rfl⟩ := Option.isSome_iff_exists.mp (hiff.mpr ⟨34, htransport, Or.inr hport⟩)
  rw [hclassify, hcopy buf rfl]

/-- **A long packet is recorded as a shorter one**: 4554 bytes on the wire instead of
5000. -/
theorem statesTruth_fails :
    ¬ ∀ (fromEthernet : FromEthernet) (cfg : Config) (helpers : Helpers) (e : Endian)
        (map : List (List UInt8)) (skb : SkBuff) (verdict : Int) (buf : List UInt8) (found : Layout)
        (tsNs : UInt64) (degraded : Bool) (r : WalRecord),
        RestIsPayload fromEthernet → cfg.validate = .ok () →
        PortFilter.load e cfg.capturePorts = .ok map → helpers.Succeed skb →
        sovprobeClassify helpers e map skb = .ok ⟨verdict, some buf⟩ →
        layout skb.bytes = some found →
        (Slicer.mk cfg.sliceBytes.toNat).process fromEthernet buf tsNs degraded = some r →
        StatesTruth cfg.sliceBytes.toNat (skb.bytes.drop found.payload) r := by
  intro h
  have hvalid : httpsConfig.validate = .ok () := by
    rw [Config.validate_eq_ok]
    decide
  have hmap : PortFilter.load .little httpsConfig.capturePorts = .ok [[0xBB, 0x01]] := rfl
  obtain ⟨r, hdr, transport, hr, hsliced, happ⟩ := process_copy 7 false headersOnly_restIsPayload
    ⟨httpsConfig.sliceBytes.toNat⟩ jumboSkb_layout jumboSkb_total rfl
  have htruth := h headersOnly httpsConfig roomyKernel .little _ jumboSkb _ _ _ 7 false r
    headersOnly_restIsPayload hvalid hmap (roomyKernel_succeed jumboSkb) jumboSkb_submitted
    jumboSkb_layout hr
  have hlength := jumboSkb_length
  rw [← List.append_nil (jumboSkb.bytes.drop 54)] at happ
  have hall := (hsliced.statesTruth_iff_length happ (by omega)).mp htruth
  rw [List.append_nil, List.length_drop, hlength] at hall
  exact absurd hall (by decide)

end SovProbe
