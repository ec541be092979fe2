import SovProbe.OnWire

/-! # Padding behind the packet

Ethernet pads short frames, and what it pads with lies behind the packet: the IPv4
total length says where the packet ends.  The packet parser hands over everything
behind the transport header, and the slicer takes all of it for payload.

So the padding is recorded as payload.  `padding_iff` says when it makes no
difference to the record: when there is none, or when it lies wholly behind the cut
and its length vanishes from the 32 bits of `orig_payload_len`.
-/

namespace SovProbe
open BigEndian Internet

/-- The packet parser reads the headers of a TCP or UDP packet over IPv4, whose total length
holds the IPv4 header, from the bytes of the headers, and takes for the payload every byte
behind them. -/
def HeadersThenRest (fromEthernet : FromEthernet) : Prop :=
  ∀ {frame found}, layout frame = some found → found.transport ≤ 14 + totalLength frame →
    ∃ hdr l4, ((∃ tcp, l4 = .tcp tcp) ∨ ∃ udp, l4 = .udp udp) ∧
      ∀ rest, fromEthernet (frame ++ rest) =
        some ⟨some (.ipv4 hdr), some l4, (frame ++ rest).drop found.payload⟩

/-- The length of the IPv4 header in 32-bit words. -/
def ihl (frame : List UInt8) : Nat := (byteAt frame 14 &&& 0x0F).toNat

/-- The slicer makes the same record of a frame with and without padding, and records
the payload length that the headers announce. -/
def PaddingIgnored (fromEthernet : FromEthernet) (slicer : Slicer) (frame padding : List UInt8)
    (found : Layout) (tsNs : UInt64) (degraded : Bool) : Prop :=
  ∃ r, slicer.process fromEthernet (frame ++ padding) tsNs degraded = some r ∧
    slicer.process fromEthernet frame tsNs degraded = some r ∧
    r.origPayloadLen.toNat =
      totalLength frame - 4 * ihl frame - (found.payload - found.transport)

variable {fromEthernet : FromEthernet} {slicer : Slicer} {frame padding : List UInt8}
  {found : Layout} {tsNs : UInt64} {degraded : Bool} {hdr : Ipv4HeaderSlice}
  {l4 : TransportSlice} {app app' : List UInt8} {r : WalRecord}

/-- The payload as the slicer cuts it. -/
theorem sliced_eq (app : List UInt8) (max : Nat) :
    (if app.length > max then app.take max else app) = app.take max := by
  split
  · rfl
  · rename_i hshort
    exact (List.take_of_length_le (Nat.not_lt.mp hshort)).symm

/-- The record of a packet with given headers depends on the payload through its length
modulo 2^32, the bytes kept, and whether any were cut. -/
theorem process_congr {frame' : List UInt8} (hl4 : (∃ tcp, l4 = .tcp tcp) ∨ ∃ udp, l4 = .udp udp)
    (hpacket : fromEthernet frame = some ⟨some (.ipv4 hdr), some l4, app⟩)
    (hpacket' : fromEthernet frame' = some ⟨some (.ipv4 hdr), some l4, app'⟩)
    (hlength : UInt32.ofNat app'.length = UInt32.ofNat app.length)
    (hkept : app'.take slicer.maxPayload = app.take slicer.maxPayload)
    (hcut : app'.length > slicer.maxPayload ↔ app.length > slicer.maxPayload) :
    slicer.process fromEthernet frame' tsNs degraded =
      slicer.process fromEthernet frame tsNs degraded := by
  unfold Slicer.process
  rcases hl4 with ⟨tcp, rfl⟩ | ⟨udp, rfl⟩ <;>
    simp only [hpacket, hpacket', transportHeader, Option.bind_eq_bind, Option.bind_some,
      Option.pure_def, decide_eq_true_eq, sliced_eq, slicer_flags, hlength, hkept, hcut]

variable (slicer tsNs degraded) in
/-- A packet with such headers gives a record. -/
theorem process_headers (hl4 : (∃ tcp, l4 = .tcp tcp) ∨ ∃ udp, l4 = .udp udp)
    (hpacket : fromEthernet frame = some ⟨some (.ipv4 hdr), some l4, app⟩) :
    ∃ r transport, slicer.process fromEthernet frame tsNs degraded = some r ∧
      SlicedFrom slicer.maxPayload hdr transport tsNs degraded r ∧ transport.app = app := by
  obtain ⟨transport, htransport⟩ : ∃ transport,
      transportHeader ⟨some (.ipv4 hdr), some l4, app⟩ = some transport := by
    rcases hl4 with ⟨tcp, rfl⟩ | ⟨udp, rfl⟩ <;> exact ⟨_, rfl⟩
  obtain ⟨r, hr, hsliced⟩ := process_eq slicer tsNs degraded hpacket rfl htransport
  exact ⟨r, transport, hr, hsliced, app_of_transportHeader htransport⟩

/-- The payload length the headers announce is that of what follows them, and fits 16 bits. -/
theorem announced_length (hlayout : layout frame = some found)
    (htotal : frame.length = 14 + totalLength frame) :
    totalLength frame - 4 * ihl frame - (found.payload - found.transport) =
      (frame.drop found.payload).length ∧ (frame.drop found.payload).length < 2 ^ 16 := by
  have hheaders := layout_eq_some.mp hlayout
  have hnetwork := hheaders.network
  have hends := hheaders.ends.le
  have hheaderLen : found.transport = 14 + 4 * ihl frame := hheaders.headerLen
  have hword : totalLength frame < 2 ^ 16 := (readU16 (part frame 16 2)).toNat_lt
  rw [List.length_drop]
  omega

/-- A record that does not tell a payload from the same with padding. -/
theorem padding_unseen {transport transport' : TransportMeta} {padding : List UInt8}
    (hsliced : SlicedFrom slicer.maxPayload hdr transport tsNs degraded r)
    (hsliced' : SlicedFrom slicer.maxPayload hdr transport' tsNs degraded r)
    (htransport : transport.app = app) (htransport' : transport'.app = app ++ padding)
    (hfits : app.length < 2 ^ 16) :
    padding = [] ∨ 2 ^ 32 ∣ padding.length ∧ slicer.maxPayload < app.length := by
  have horig : r.origPayloadLen.toNat = app.length := by
    rw [hsliced.origPayloadLen, htransport, UInt32.toNat_ofNat', Nat.mod_eq_of_lt (by omega)]
  have horig' : r.origPayloadLen.toNat = (app.length + padding.length) % 2 ^ 32 := by
    rw [hsliced'.origPayloadLen, htransport', UInt32.toNat_ofNat', List.length_append]
  have hkept : (app ++ padding).take slicer.maxPayload = app.take slicer.maxPayload := by
    rw [← htransport', ← hsliced'.payload, hsliced.payload, htransport]
  by_cases hbehind : slicer.maxPayload < app.length
  · refine Or.inr ⟨?_, hbehind⟩
    apply Nat.dvd_of_mod_eq_zero
    omega
  · left
    have hcut : r.flags &&& flagTruncated ≠ 0 ↔ app.length > slicer.maxPayload := by
      rw [hsliced.flags, WalRecord.flagsOf_and_truncated, htransport]
    rw [hsliced'.flags, WalRecord.flagsOf_and_truncated, htransport', List.length_append] at hcut
    have hlengths := congrArg List.length hkept
    rw [List.length_take, List.length_take, List.length_append] at hlengths
    apply List.eq_nil_of_length_eq_zero
    omega

/-- **Padding makes no difference exactly if there is none**, but for padding whose
length is a multiple of 2^32 and that lies behind the cut. -/
theorem padding_iff (hparser : HeadersThenRest fromEthernet) (hlayout : layout frame = some found)
    (htotal : frame.length = 14 + totalLength frame) (slicer : Slicer) (padding : List UInt8)
    (tsNs : UInt64) (degraded : Bool) :
    PaddingIgnored fromEthernet slicer frame padding found tsNs degraded ↔
      padding = [] ∨
        2 ^ 32 ∣ padding.length ∧ slicer.maxPayload < frame.length - found.payload := by
  have hheaders := layout_eq_some.mp hlayout
  have hcomplete := hheaders.complete
  have hends := hheaders.ends.le
  obtain ⟨hannounced, hfits⟩ := announced_length hlayout htotal
  obtain ⟨hdr, l4, hl4, hrest⟩ := hparser hlayout (by omega)
  have hpacket := hrest []
  rw [List.append_nil] at hpacket
  have hpadded := hrest padding
  rw [List.drop_append_of_le_length hcomplete] at hpadded
  rw [← List.length_drop]
  generalize frame.drop found.payload = app at *
  obtain ⟨r, transport, hr, hsliced, htransport⟩ :=
    process_headers slicer tsNs degraded hl4 hpacket
  obtain ⟨r', transport', hr', hsliced', htransport'⟩ :=
    process_headers slicer tsNs degraded hl4 hpadded
  constructor
  · rintro ⟨r₀, hr₀, hsame, -⟩
    obtain rfl : r' = r :=
      Option.some.inj (hr'.symm.trans (hr₀.trans (hsame.symm.trans hr)))
    exact padding_unseen hsliced hsliced' htransport htransport' hfits
  · intro hcases
    have horig : r.origPayloadLen.toNat = app.length := by
      rw [hsliced.origPayloadLen, htransport, UInt32.toNat_ofNat', Nat.mod_eq_of_lt (by omega)]
    refine ⟨r, ?_, hr, horig.trans hannounced.symm⟩
    rcases hcases with rfl | ⟨hmultiple, hbehind⟩
    · rw [List.append_nil]
      exact hr
    · rw [← hr]
      apply process_congr hl4 hpacket hpadded
      · apply UInt32.toNat_inj.mp
        rw [UInt32.toNat_ofNat', UInt32.toNat_ofNat', List.length_append]
        omega
      · exact List.take_append_of_le_length (Nat.le_of_lt hbehind)
      · rw [List.length_append]
        omega

/-- What follows the headers changes nothing but the payload. -/
theorem headersOnly_append (hlayout : layout frame = some found)
    (htotal : found.transport ≤ 14 + totalLength frame) (rest : List UInt8) :
    headersOnly (frame ++ rest) = (headersOnly frame).map fun packet =>
      { packet with payload := (frame ++ rest).drop found.payload } := by
  have hheaders := layout_eq_some.mp hlayout
  have hnetwork := hheaders.network
  have hends := hheaders.ends.le
  have hcomplete := hheaders.complete
  have hbyte {i : Nat} (hi : i < found.payload) : byteAt (frame ++ rest) i = byteAt frame i := by
    rw [byteAt, byteAt, List.getElem?_append_left (by omega)]
  have hpart {i n : Nat} (hin : i + n ≤ found.payload) :
      part (frame ++ rest) i n = part frame i n := by
    rw [part, part, List.drop_append_of_le_length (by omega),
      List.take_append_of_le_length (by rw [List.length_drop]; omega)]
  have htotal' : found.transport ≤ 14 + totalLength (frame ++ rest) := by
    rwa [totalLength, hpart (by omega)]
  simp only [headersOnly, layout_append hlayout, hlayout, Option.filter_some, htotal, htotal',
    decide_true, if_true, Option.map_some]
  by_cases htcp : byteAt frame 23 = 6
  · have hlong : found.transport + 20 ≤ found.payload := by
      cases hheaders.ends with
      | tcp _ _ hle => exact hle
      | udp hudp _ =>
        rw [htcp] at hudp
        cases hudp
    simp only [hbyte (show 23 < found.payload by omega), htcp, if_true]
    simp only [hbyte (show 26 < found.payload by omega), hbyte (show 27 < found.payload by omega),
      hbyte (show 28 < found.payload by omega), hbyte (show 29 < found.payload by omega),
      hbyte (show 30 < found.payload by omega), hbyte (show 31 < found.payload by omega),
      hbyte (show 32 < found.payload by omega), hbyte (show 33 < found.payload by omega),
      hbyte (show found.transport + 13 < found.payload by omega),
      hpart (show found.transport + 2 ≤ found.payload by omega),
      hpart (show found.transport + 2 + 2 ≤ found.payload by omega),
      hpart (show found.transport + 4 + 4 ≤ found.payload by omega),
      hpart (show found.transport + 8 + 4 ≤ found.payload by omega),
      hpart (show found.transport + 14 + 2 ≤ found.payload by omega)]
  · simp only [hbyte (show 23 < found.payload by omega), htcp, if_false]
    simp only [hbyte (show 26 < found.payload by omega), hbyte (show 27 < found.payload by omega),
      hbyte (show 28 < found.payload by omega), hbyte (show 29 < found.payload by omega),
      hbyte (show 30 < found.payload by omega), hbyte (show 31 < found.payload by omega),
      hbyte (show 32 < found.payload by omega), hbyte (show 33 < found.payload by omega),
      hpart (show found.transport + 2 ≤ found.payload by omega),
      hpart (show found.transport + 2 + 2 ≤ found.payload by omega)]

theorem headersOnly_headersThenRest : HeadersThenRest headersOnly := by
  intro frame found hlayout htotal
  have hread : ∃ hdr l4, ((∃ tcp, l4 = .tcp tcp) ∨ ∃ udp, l4 = .udp udp) ∧
      headersOnly frame = some ⟨some (.ipv4 hdr), some l4, frame.drop found.payload⟩ := by
    simp only [headersOnly, hlayout, Option.filter_some, htotal, decide_true, if_true,
      Option.map_some]
    by_cases htcp : byteAt frame 23 = 6
    · simp only [htcp, if_true]
      exact ⟨_, _, Or.inl ⟨_, rfl⟩, rfl⟩
    · simp only [htcp, if_false]
      exact ⟨_, _, Or.inr ⟨_, rfl⟩, rfl⟩
  obtain ⟨hdr, l4, hl4, hread⟩ := hread
  refine ⟨hdr, l4, hl4, fun rest => ?_⟩
  rw [headersOnly_append hlayout htotal, hread, Option.map_some]

/-- A TCP segment without payload: the shortest frame that Ethernet pads. -/
def bareAck : List UInt8 :=
  [0, 0, 0, 0, 0, 1, 0, 0, 0, 0, 0, 2, 0x08, 0x00,
    0x45, 0, 0, 40, 0, 0, 0, 0, 64, 6, 0, 0, 192, 168, 1, 10, 10, 0, 0, 1,
    0x30, 0x39, 0x01, 0xBB, 0, 0, 0, 1, 0, 0, 0, 2, 0x50, 0x10, 0x10, 0, 0, 0, 0, 0]

/-- Six bytes of padding make a difference. -/
theorem padding_iff_bareAck :
    ¬ PaddingIgnored headersOnly ⟨4096⟩ bareAck (List.replicate 6 0) ⟨34, 54⟩ 7 false := by
  have hlayout : layout bareAck = some ⟨34, 54⟩ := by decide
  rw [padding_iff headersOnly_headersThenRest hlayout (by decide) ⟨4096⟩ _ 7 false]
  decide

/-- **The padding of a bare acknowledgment is recorded as six bytes of payload.** -/
theorem padding_recorded :
    ¬ ∀ (fromEthernet : FromEthernet) (slicer : Slicer) (frame padding : List UInt8)
        (found : Layout) (tsNs : UInt64) (degraded : Bool), HeadersThenRest fromEthernet →
        layout frame = some found → frame.length = 14 + totalLength frame →
        PaddingIgnored fromEthernet slicer frame padding found tsNs degraded := by
  intro h
  obtain ⟨r, hpadded, hbare, -⟩ :=
    h headersOnly ⟨4096⟩ bareAck (List.replicate 6 0) ⟨34, 54⟩ 7 false
    headersOnly_headersThenRest (by decide) (by decide)
  have hsame := congrArg (Option.map WalRecord.payload) (hpadded.trans hbare.symm)
  revert hsame
  decide

end SovProbe
