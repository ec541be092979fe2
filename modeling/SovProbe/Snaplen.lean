import SovProbe.Synthesize

/-! # Truncated records as packets with a snaplen

A capture with a snap length keeps the first bytes of a packet and says how long the
packet was; the headers it keeps are those of the whole packet.  A record with a cut
payload is such a capture, and `sov2pcap` writes two lengths for it: the one it keeps
and `orig_len`, the one on the wire.

`orig_len` is right, but `synthesize` takes the lengths in the IPv4 and UDP headers
from the payload that is left.  So what it makes of a record is a snaplen prefix of
the packet on the wire iff nothing was cut (`snaplenPrefix_iff`).
-/

namespace SovProbe
open BigEndian Internet

/-- The `orig_len` that `main` writes for a record: link, network and transport
headers and the payload on the wire. -/
def origLen (rec : WalRecord) : UInt32 :=
  let l4Len := if rec.proto = 6 then 20 else 8
  UInt32.ofNat (14 + 20 + l4Len + rec.origPayloadLen.toNat)

/-- A record of a packet with the payload `p` of which the first `n` bytes were kept. -/
def WalRecord.cut (r : WalRecord) (p : List UInt8) (n : Nat) : WalRecord :=
  { r with payload := p.take n, origPayloadLen := UInt32.ofNat p.length }

/-- The length fields of the headers in a packet agree with a length of the whole
packet. -/
structure LengthsAgree (proto : UInt16) (packet : List UInt8) (len : Nat) : Prop where
  ipv4 : 14 + (readU16 (part packet 16 2)).toNat = len
  udp : proto = 17 → 34 + (readU16 (part packet 38 2)).toNat = len

/-- The packet synthesized from the cut record is a snaplen prefix of the one
synthesized from the whole. -/
structure SnaplenPrefix (r : WalRecord) (p : List UInt8) (n : Nat) : Prop where
  isPrefix : synthesize (r.cut p n) <+: synthesize (r.cut p p.length)
  origLen_eq : (origLen (r.cut p n)).toNat = (synthesize (r.cut p p.length)).length
  lengths : LengthsAgree r.proto (synthesize (r.cut p n)) (origLen (r.cut p n)).toNat

variable {r : WalRecord} {p : List UInt8} {n : Nat}

/-- The frame `synthesize` makes, and the length of its transport header. -/
theorem synthesize_eq_frameOf (r : WalRecord) :
    ∃ transport, transport.length = l4HeaderLen r.proto ∧ synthesize r = frameOf r transport := by
  by_cases htcp : r.proto = 6
  · refine ⟨_, ?_, synthesize_tcp htcp⟩
    rw [l4HeaderLen, if_pos htcp]
    rfl
  · refine ⟨_, ?_, synthesize_udp htcp⟩
    rw [l4HeaderLen, if_neg htcp]
    rfl

theorem synthesize_length (r : WalRecord) : (synthesize r).length = 14 + totalLen r := by
  obtain ⟨transport, htransport, heq⟩ := synthesize_eq_frameOf r
  obtain ⟨hlength, -⟩ := frameOf_headers r transport
  rw [heq, hlength, htransport, totalLen]
  omega

/-- The IPv4 total length in the packet. -/
theorem synthesize_totalLen (r : WalRecord) :
    part (synthesize r) 16 2 = bytes 2 (totalLen r) := by
  obtain ⟨transport, -, heq⟩ := synthesize_eq_frameOf r
  obtain ⟨-, -, -, -, htotal, -⟩ := frameOf_headers r transport
  rw [heq, htotal]

/-- The UDP length in the packet. -/
theorem synthesize_udpLen {r : WalRecord} (hudp : r.proto ≠ 6) :
    part (synthesize r) 38 2 = writeU16 (UInt16.ofNat (8 + r.payload.length)) := by
  rw [synthesize_udp hudp]
  rfl

/-- **`orig_len` is the length of the whole packet**, however much was cut. -/
theorem origLen_cut (hfits : 20 + (l4HeaderLen r.proto + p.length) ≤ 65535) (n : Nat) :
    (origLen (r.cut p n)).toNat = (synthesize (r.cut p p.length)).length := by
  have horig : (origLen (r.cut p n)).toNat =
      (14 + 20 + l4HeaderLen r.proto + (UInt32.ofNat p.length).toNat) % 2 ^ 32 :=
    UInt32.toNat_ofNat'
  have htotal : totalLen (r.cut p p.length) = 20 + (l4HeaderLen r.proto + p.length) := by
    rw [totalLen, WalRecord.cut, List.take_length]
  rw [horig, synthesize_length, htotal, UInt32.toNat_ofNat']
  omega

/-- **A snaplen prefix exactly if nothing was cut.** -/
theorem snaplenPrefix_iff (hfits : 20 + (l4HeaderLen r.proto + p.length) ≤ 65535) (n : Nat) :
    SnaplenPrefix r p n ↔ p.length ≤ n := by
  have htotal : ∀ m, totalLen (r.cut p m) = 20 + (l4HeaderLen r.proto + (p.take m).length) :=
    fun _ => rfl
  have hlength := synthesize_length (r.cut p n)
  have hwhole := synthesize_length (r.cut p p.length)
  have horig := origLen_cut hfits n
  rw [htotal] at hlength hwhole
  rw [List.take_length] at hwhole
  have hshort : (p.take n).length ≤ p.length := List.length_take_le' n p
  have hipv4 : (readU16 (part (synthesize (r.cut p n)) 16 2)).toNat =
      20 + (l4HeaderLen r.proto + (p.take n).length) := by
    rw [synthesize_totalLen, htotal, readU16_bytes (by omega)]
  constructor
  · intro h
    have hagree := h.lengths.ipv4
    rw [horig, hipv4, hwhole] at hagree
    rw [List.length_take] at hagree
    omega
  · intro hall
    have hkept : p.take n = p := List.take_of_length_le hall
    have hsame : r.cut p n = r.cut p p.length := by
      rw [WalRecord.cut, WalRecord.cut, hkept, List.take_length]
    refine ⟨hsame ▸ List.prefix_refl _, horig, ?_, ?_⟩
    · rw [horig, hipv4, hwhole, hkept]
    · intro hudp
      have hnot : (r.cut p n).proto ≠ 6 := by
        show r.proto ≠ 6
        rw [hudp]
        decide
      have hl4 : l4HeaderLen r.proto = 8 := if_neg hnot
      have hpayload : (r.cut p n).payload.length = p.length := congrArg List.length hkept
      rw [synthesize_udpLen hnot, readU16_writeU16, hpayload, horig, hwhole, UInt16.toNat_ofNat']
      omega

/-- The payload has 17 bytes: a cut after five of them loses the rest, one after 1000 nothing. -/
theorem snaplenPrefix_iff_get : ¬ SnaplenPrefix sampleRecord sampleRecord.payload 5 ∧
    SnaplenPrefix sampleRecord sampleRecord.payload 1000 :=
  ⟨fun h => absurd ((snaplenPrefix_iff (by decide) 5).mp h) (by decide),
    (snaplenPrefix_iff (by decide) 1000).mpr (by decide)⟩

/-- **A cut record is not a snaplen prefix**: of one byte of payload none is kept, and
the IPv4 header says 40 bytes instead of 41. -/
theorem snaplenPrefix_fails :
    ¬ ∀ (r : WalRecord) (p : List UInt8) (n : Nat), r.proto = 6 ∨ r.proto = 17 →
      20 + (l4HeaderLen r.proto + p.length) ≤ 65535 → SnaplenPrefix r p n := by
  intro h
  have hprefix := h sampleRecord [71] 0 (Or.inl rfl) (by decide)
  have hlengths := hprefix.lengths.ipv4
  have hcut : readU16 (part (synthesize (sampleRecord.cut [71] 0)) 16 2) = 40 := by decide
  have horig : origLen (sampleRecord.cut [71] 0) = 55 := by decide
  rw [hcut, horig] at hlengths
  exact absurd hlengths (by decide)

end SovProbe
