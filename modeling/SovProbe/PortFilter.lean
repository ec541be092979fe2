import SovProbe.Checked
import SovProbe.BigEndian
import Mathlib.Logic.Basic

/-! # The kernel-side port filter

`bpf/capture.bpf.c` and the part of `capture/mod.rs` that fills its map.  The
program looks at the linear part of the packet, where it may read only below
`data_end`: a read is a `Checked` operation, so that the program returns a verdict
at all says that every bounds check is there.

Ports reach the map as the native bytes of a `u16` and are looked up as the native
bytes of a byte-swapped load, so both byte orders of the host are modelled.
-/

namespace SovProbe
open Checked

/-- The byte order of the host. -/
inductive Endian where
  | little
  | big
  deriving DecidableEq, Repr

namespace Endian

/-- A `__u16` from its two bytes in memory. -/
def load16 : Endian → List UInt8 → UInt16
  | little, bs => BigEndian.readU16 bs.reverse
  | big, bs => BigEndian.readU16 bs

/-- The two bytes of a `__u16` in memory. -/
def store16 : Endian → UInt16 → List UInt8
  | little, x => (BigEndian.writeU16 x).reverse
  | big, x => BigEndian.writeU16 x

/-- `bpf_ntohs`: swaps the bytes on a little-endian host. -/
def bpfNtohs : Endian → UInt16 → UInt16
  | little, x => BigEndian.readU16 (BigEndian.writeU16 x).reverse
  | big, x => x

/-- A load from the packet, swapped to host order, is the big-endian number there. -/
theorem bpfNtohs_load16 (e : Endian) {bs : List UInt8} (h : bs.length = 2) :
    e.bpfNtohs (e.load16 bs) = BigEndian.readU16 bs := by
  cases e with
  | big => rfl
  | little =>
    rw [load16, bpfNtohs, BigEndian.writeU16_readU16 (by rw [List.length_reverse, h]),
      List.reverse_reverse]

theorem store16_inj (e : Endian) {x y : UInt16} (h : e.store16 x = e.store16 y) : x = y := by
  have hbytes : BigEndian.writeU16 x = BigEndian.writeU16 y := by
    cases e with
    | big => exact h
    | little => exact List.reverse_inj.mp h
  rw [← BigEndian.readU16_writeU16 x, hbytes, BigEndian.readU16_writeU16]

end Endian

/-! ## The map -/

namespace PortFilter

/-- `max_entries` of `port_filter_map`. -/
def maxEntries : Nat := 256

/-- Inserting a key into `port_filter_map`, kept as the list of its keys: the values
are all `1` and never read. -/
def insert (map : List (List UInt8)) (key : List UInt8) : Except String (List (List UInt8)) :=
  if key ∈ map then .ok map
  else if map.length ≥ maxEntries then .error "E2BIG"
  else .ok (key :: map)

/-- The loop of `load_and_attach` over `capture_ports`. -/
def load (e : Endian) (capturePorts : List UInt16) : Except String (List (List UInt8)) :=
  capturePorts.foldlM (fun map port => insert map (e.store16 port)) []

theorem mem_of_insert {map map' : List (List UInt8)} {key : List UInt8}
    (h : insert map key = .ok map') (k : List UInt8) : k ∈ map' ↔ k = key ∨ k ∈ map := by
  unfold insert at h
  by_cases hmem : key ∈ map
  · rw [if_pos hmem] at h
    rw [← Except.ok.inj h]
    constructor
    · exact Or.inr
    · rintro (rfl | hk)
      · exact hmem
      · exact hk
  · rw [if_neg hmem] at h
    by_cases hfull : map.length ≥ maxEntries
    · rw [if_pos hfull] at h
      cases h
    · rw [if_neg hfull] at h
      rw [← Except.ok.inj h, List.mem_cons]

/-- **The map holds the configured ports** and no others. -/
theorem mem_of_load {e : Endian} {capturePorts : List UInt16} {map : List (List UInt8)}
    (h : load e capturePorts = .ok map) (port : UInt16) :
    e.store16 port ∈ map ↔ port ∈ capturePorts := by
  have key : ∀ (ports : List UInt16) (map₀ : List (List UInt8)),
      ports.foldlM (fun map port => insert map (e.store16 port)) map₀ = .ok map →
      (e.store16 port ∈ map ↔ port ∈ ports ∨ e.store16 port ∈ map₀) := by
    intro ports
    induction ports with
    | nil =>
      intro map₀ hfold
      rw [← Except.ok.inj hfold]
      simp
    | cons p ports ih =>
      intro map₀ hfold
      rw [List.foldlM_cons] at hfold
      cases hins : insert map₀ (e.store16 p) with
      | error msg =>
        rw [hins] at hfold
        cases hfold
      | ok map₁ =>
        rw [hins] at hfold
        have hstore : e.store16 port = e.store16 p ↔ port = p :=
          ⟨e.store16_inj, congrArg e.store16⟩
        rw [ih map₁ hfold, mem_of_insert hins, hstore, List.mem_cons, ← or_assoc,
          or_comm (a := port ∈ ports)]
  simpa using key capturePorts [] h

end PortFilter

/-! ## The classifier -/

/-- `MAX_COPY` -/
def maxCopy : UInt32 := 4608
/-- `sizeof(struct ethhdr)` -/
def ethHdrLen : Nat := 14
/-- `sizeof(struct iphdr)` -/
def ipHdrLen : Nat := 20
/-- `sizeof(struct ipv6hdr)` -/
def ipv6HdrLen : Nat := 40
/-- `sizeof(struct udphdr)` -/
def udpHdrLen : Nat := 8
/-- `ETH_P_IP` -/
def ethPIp : UInt16 := 0x0800
/-- `ETH_P_IPV6` -/
def ethPIpv6 : UInt16 := 0x86DD
/-- `IPPROTO_TCP` -/
def ipprotoTcp : UInt8 := 6
/-- `IPPROTO_UDP` -/
def ipprotoUdp : UInt8 := 17
/-- `TC_ACT_OK` -/
def tcActOk : Int := 0

/-- A packet.  Its first `linearLen` bytes are the ones between `data` and `data_end`. -/
structure SkBuff where
  bytes : List UInt8
  linearLen : Nat
  linear_le : linearLen ≤ bytes.length
  length_lt : bytes.length < 2 ^ 32

namespace SkBuff

/-- `skb->len` -/
def len (skb : SkBuff) : UInt32 := UInt32.ofNat skb.bytes.length

/-- The bytes between `data` and `data_end`. -/
def linear (skb : SkBuff) : List UInt8 := skb.bytes.take skb.linearLen

theorem len_toNat (skb : SkBuff) : skb.len.toNat = skb.bytes.length := by
  rw [len, UInt32.toNat_ofNat', Nat.mod_eq_of_lt skb.length_lt]

theorem linear_length_le (skb : SkBuff) : skb.linear.length ≤ skb.bytes.length := by
  rw [linear, List.length_take]
  exact Nat.min_le_right _ _

end SkBuff

/-- The kernel's helpers: whether a reservation in the ring buffer succeeds, and what
`bpf_skb_load_bytes` copies out of the packet from an offset. -/
structure Helpers where
  ringbufReserve : UInt32 → Bool
  skbLoadBytes : SkBuff → UInt32 → UInt32 → Option (List UInt8)

/-- There is room in the ring buffer and the packet can be copied. -/
def Helpers.Succeed (helpers : Helpers) (skb : SkBuff) : Prop :=
  ∀ n, n ≤ skb.len → helpers.ringbufReserve n = true ∧
    helpers.skbLoadBytes skb 0 n = some (skb.bytes.take n.toNat)

/-- What the program returns, and what it submits to the ring buffer. -/
structure Classified where
  verdict : Int
  submitted : Option (List UInt8)
  deriving DecidableEq, Repr

/-- The part of `sovprobe_classify` that reads the link and network headers: the
offset `l4_off`, or `none` where the packet is let through. -/
def l4Offset (e : Endian) (data : List UInt8) : Checked (Option Nat) := do
  if ethHdrLen > data.length then
    return none
  let proto := e.bpfNtohs (e.load16 (← slice data 12 14))
  if proto = ethPIp then
    if ethHdrLen + ipHdrLen > data.length then
      return none
    let ihl := (← index data 14) &&& 0x0F
    let protocol ← index data 23
    if protocol ≠ ipprotoTcp ∧ protocol ≠ ipprotoUdp then
      return none
    return some (ethHdrLen + ihl.toNat * 4)
  else if proto = ethPIpv6 then
    if ethHdrLen + ipv6HdrLen > data.length then
      return none
    let nexthdr ← index data 20
    if nexthdr ≠ ipprotoTcp ∧ nexthdr ≠ ipprotoUdp then
      return none
    return some (ethHdrLen + ipv6HdrLen)
  else
    return none

/-- The part of `sovprobe_classify` behind the filter: copies the packet into the
ring buffer. -/
def submit (helpers : Helpers) (skb : SkBuff) : Classified :=
  let copyLen := if skb.len < maxCopy then skb.len else maxCopy
  if copyLen = 0 then ⟨tcActOk, none⟩
  else if ¬ helpers.ringbufReserve copyLen then ⟨tcActOk, none⟩
  else
    match helpers.skbLoadBytes skb 0 copyLen with
    | some buf => ⟨tcActOk, some buf⟩
    | none => ⟨tcActOk, none⟩

/-- `sovprobe_classify`: the headers, the ports in the map, and the copy. -/
def sovprobeClassify (helpers : Helpers) (e : Endian) (map : List (List UInt8)) (skb : SkBuff) :
    Checked Classified := do
  let data := skb.linear
  match ← l4Offset e data with
  | none => return ⟨tcActOk, none⟩
  | some l4Off =>
    if l4Off + udpHdrLen > data.length then
      return ⟨tcActOk, none⟩
    let srcPort := e.bpfNtohs (e.load16 (← slice data l4Off (l4Off + 2)))
    let dstPort := e.bpfNtohs (e.load16 (← slice data (l4Off + 2) (l4Off + 4)))
    let hit := decide (e.store16 dstPort ∈ map)
    let hit := if ¬ hit then decide (e.store16 srcPort ∈ map) else hit
    if ¬ hit then
      return ⟨tcActOk, none⟩
    return submit helpers skb

/-! ## What the program computes -/

/-- The link and network headers lie in the linear data and announce TCP or UDP at
`off`. -/
def HeadersAt (data : List UInt8) (off : Nat) : Prop :=
  (34 ≤ data.length ∧ BigEndian.readU16 ((data.drop 12).take 2) = ethPIp ∧
      (data[23]? = some ipprotoTcp ∨ data[23]? = some ipprotoUdp) ∧
      ∃ b, data[14]? = some b ∧ off = 14 + 4 * (b.toNat % 16)) ∨
    (54 ≤ data.length ∧ BigEndian.readU16 ((data.drop 12).take 2) = ethPIpv6 ∧
      (data[20]? = some ipprotoTcp ∨ data[20]? = some ipprotoUdp) ∧ off = 54)

/-- All headers do, with eight bytes of the transport header. -/
def TransportAt (data : List UInt8) (off : Nat) : Prop :=
  HeadersAt data off ∧ off + 8 ≤ data.length

/-- The source port of the transport header at `off`. -/
def srcPortAt (data : List UInt8) (off : Nat) : UInt16 :=
  BigEndian.readU16 ((data.drop off).take 2)

/-- The destination port of the transport header at `off`. -/
def dstPortAt (data : List UInt8) (off : Nat) : UInt16 :=
  BigEndian.readU16 ((data.drop (off + 2)).take 2)

/-- A byte of the packet that is inside the linear data. -/
theorem index_getElem? {data : List UInt8} {i : Nat} (h : i < data.length) :
    ∃ b, index data i = .ok b ∧ data[i]? = some b :=
  ⟨data[i], index_of_lt h, List.getElem?_eq_getElem h⟩

theorem load_port (e : Endian) {data : List UInt8} {a b : Nat} (hab : a + 2 = b)
    (h : b ≤ data.length) :
    ∃ bs, slice data a b = .ok bs ∧
      e.bpfNtohs (e.load16 bs) = BigEndian.readU16 ((data.drop a).take 2) := by
  subst hab
  have hlen : ((data.drop a).take 2).length = 2 := by
    rw [List.length_take, List.length_drop]
    omega
  refine ⟨(data.drop a).take 2, ?_, e.bpfNtohs_load16 hlen⟩
  rw [slice_of_le (by omega) h, Nat.add_sub_cancel_left]

theorem ihl_toNat (b : UInt8) : (b &&& 0x0F).toNat = b.toNat % 16 := by
  rw [UInt8.toNat_and]
  exact Nat.and_two_pow_sub_one_eq_mod b.toNat 4

/-- The end of both branches: the protocol is TCP or UDP, or there is no offset. -/
theorem protocol_check (protocol : UInt8) (l4Off : Nat) : ∃ r,
    (if protocol ≠ ipprotoTcp ∧ protocol ≠ ipprotoUdp then return none else return some l4Off :
      Checked (Option Nat)) = .ok r ∧
      ∀ off, r = some off ↔
        (protocol = ipprotoTcp ∨ protocol = ipprotoUdp) ∧ off = l4Off := by
  by_cases hother : protocol ≠ ipprotoTcp ∧ protocol ≠ ipprotoUdp
  · refine ⟨none, by rw [if_pos hother]; rfl, fun off => ⟨nofun, ?_⟩⟩
    rintro ⟨hor, -⟩
    exact (hor.elim hother.1 hother.2).elim
  · rw [not_and_or, not_not, not_not] at hother
    refine ⟨some l4Off, by rw [if_neg (by rwa [not_and_or, not_not, not_not])]; rfl, fun off => ?_⟩
    rw [Option.some.injEq, eq_comm]
    exact ⟨fun h => ⟨hother, h⟩, And.right⟩

/-- **The header checks guard every read**, and find the transport header exactly
where the packet has one. -/
theorem l4Offset_spec (e : Endian) (data : List UInt8) :
    ∃ r, l4Offset e data = .ok r ∧ ∀ off, r = some off ↔ HeadersAt data off := by
  by_cases heth : ethHdrLen > data.length
  · refine ⟨none, by rw [l4Offset, if_pos heth]; rfl, fun off => ⟨nofun, ?_⟩⟩
    rw [ethHdrLen] at heth
    rintro (⟨hlen, -⟩ | ⟨hlen, -⟩) <;> omega
  rw [ethHdrLen, Nat.not_lt] at heth
  obtain ⟨bs, hslice, hproto⟩ := load_port e (rfl : 12 + 2 = 14) heth
  unfold l4Offset
  rw [if_neg (by rw [ethHdrLen]; omega), hslice, ok_bind]
  simp only [hproto]
  by_cases hip : BigEndian.readU16 ((data.drop 12).take 2) = ethPIp
  · have hnot6 : ethPIp ≠ ethPIpv6 := by decide
    simp only [hip, if_true, HeadersAt, hnot6, false_and, and_false, or_false, true_and]
    by_cases hshort : ethHdrLen + ipHdrLen > data.length
    · refine ⟨none, by rw [if_pos hshort]; rfl, fun off => ⟨nofun, ?_⟩⟩
      rw [ethHdrLen, ipHdrLen] at hshort
      rintro ⟨hlen, -⟩
      omega
    rw [if_neg hshort]
    rw [ethHdrLen, ipHdrLen, Nat.not_lt] at hshort
    obtain ⟨first, hfirst, hfirst?⟩ := index_getElem? (show 14 < data.length by omega)
    obtain ⟨protocol, hprotocol, hprotocol?⟩ := index_getElem? (show 23 < data.length by omega)
    simp only [hfirst, hprotocol, ok_bind, hfirst?, hprotocol?, Option.some.injEq,
      exists_eq_left']
    obtain ⟨r, hr, hspec⟩ := protocol_check protocol (ethHdrLen + (first &&& 0x0F).toNat * 4)
    refine ⟨r, hr, fun off => ?_⟩
    rw [hspec, ihl_toNat, ethHdrLen, Nat.mul_comm 4]
    exact ⟨fun h => ⟨hshort, h⟩, And.right⟩
  · simp only [hip, if_false, HeadersAt, false_and, and_false, false_or]
    by_cases hip6 : BigEndian.readU16 ((data.drop 12).take 2) = ethPIpv6
    · simp only [hip6, if_true, true_and]
      by_cases hshort : ethHdrLen + ipv6HdrLen > data.length
      · refine ⟨none, by rw [if_pos hshort]; rfl, fun off => ⟨nofun, ?_⟩⟩
        rw [ethHdrLen, ipv6HdrLen] at hshort
        rintro ⟨hlen, -⟩
        omega
      rw [if_neg hshort]
      rw [ethHdrLen, ipv6HdrLen, Nat.not_lt] at hshort
      obtain ⟨nexthdr, hnexthdr, hnexthdr?⟩ := index_getElem? (show 20 < data.length by omega)
      simp only [hnexthdr, ok_bind, hnexthdr?, Option.some.injEq]
      obtain ⟨r, hr, hspec⟩ := protocol_check nexthdr (ethHdrLen + ipv6HdrLen)
      refine ⟨r, hr, fun off => ?_⟩
      rw [hspec, ethHdrLen, ipv6HdrLen]
      exact ⟨fun h => ⟨hshort, h⟩, And.right⟩
    · exact ⟨none, by rw [if_neg hip6]; rfl, fun off => ⟨nofun, fun h => (hip6 h.2.1).elim⟩⟩

/-- What `submit` does with a packet that is not empty. -/
theorem submit_eq {helpers : Helpers} {skb : SkBuff} (h : helpers.Succeed skb)
    (hpos : 0 < skb.bytes.length) :
    submit helpers skb = ⟨tcActOk, some (skb.bytes.take (min skb.bytes.length 4608))⟩ := by
  have hlen := skb.len_toNat
  have hmax : maxCopy.toNat = 4608 := rfl
  obtain ⟨n, hn, hle, htoNat⟩ : ∃ n, (if skb.len < maxCopy then skb.len else maxCopy) = n ∧
      n ≤ skb.len ∧ n.toNat = min skb.bytes.length 4608 := by
    by_cases hlt : skb.len < maxCopy
    · refine ⟨skb.len, by rw [if_pos hlt], UInt32.le_refl _, ?_⟩
      rw [UInt32.lt_iff_toNat_lt] at hlt
      omega
    · refine ⟨maxCopy, by rw [if_neg hlt], UInt32.not_lt.mp hlt, ?_⟩
      rw [UInt32.lt_iff_toNat_lt] at hlt
      omega
  have hne : n ≠ 0 := by
    intro h0
    rw [h0, UInt32.toNat_zero] at htoNat
    omega
  obtain ⟨hring, hload⟩ := h n hle
  simp only [submit, hn, hload, htoNat]
  rw [if_neg hne, if_neg (by rw [hring]; exact not_not.mpr rfl)]

/-- A packet whose headers are all there is not empty. -/
theorem SkBuff.pos_of_transportAt {skb : SkBuff} {off : Nat} (h : TransportAt skb.linear off) :
    0 < skb.bytes.length := by
  have hlinear := skb.linear_length_le
  have hoff := h.2
  omega

/-- **What the program computes**: it never reads outside the linear data and always
lets the packet through; it submits a packet whose transport header is there and
whose source or destination port is in the map. -/
theorem sovprobeClassify_eq {helpers : Helpers} {e : Endian} {capturePorts : List UInt16}
    {map : List (List UInt8)} {skb : SkBuff} (hmap : PortFilter.load e capturePorts = .ok map)
    (hhelpers : helpers.Succeed skb) :
    ∃ submitted, sovprobeClassify helpers e map skb = .ok ⟨tcActOk, submitted⟩ ∧
      (submitted.isSome ↔ ∃ off, TransportAt skb.linear off ∧
        (srcPortAt skb.linear off ∈ capturePorts ∨ dstPortAt skb.linear off ∈ capturePorts)) ∧
      ∀ buf, submitted = some buf → buf = skb.bytes.take (min skb.bytes.length 4608) := by
  obtain ⟨r, hr, hheaders⟩ := l4Offset_spec e skb.linear
  unfold sovprobeClassify
  simp only [hr, ok_bind]
  cases r with
  | none =>
    refine ⟨none, rfl, ⟨nofun, ?_⟩, nofun⟩
    rintro ⟨off, htransport, -⟩
    cases (hheaders off).mpr htransport.1
  | some l4Off =>
    have hat : ∀ off, HeadersAt skb.linear off → off = l4Off :=
      fun off h => (Option.some.inj ((hheaders off).mpr h)).symm
    by_cases hshort : l4Off + udpHdrLen > skb.linear.length
    · refine ⟨none, by simp only [if_pos hshort, pure_eq], ⟨nofun, ?_⟩, nofun⟩
      rintro ⟨off, ⟨hoff, hroom⟩, -⟩
      rw [hat off hoff] at hroom
      rw [udpHdrLen] at hshort
      omega
    simp only [if_neg hshort]
    rw [udpHdrLen, Nat.not_lt] at hshort
    have htransport : TransportAt skb.linear l4Off := ⟨(hheaders l4Off).mp rfl, hshort⟩
    obtain ⟨src, hsrc, hsrcPort⟩ :=
      load_port e (rfl : l4Off + 2 = _) (show l4Off + 2 ≤ skb.linear.length by omega)
    obtain ⟨dst, hdst, hdstPort⟩ :=
      load_port e (rfl : l4Off + 2 + 2 = _) (show l4Off + 4 ≤ skb.linear.length by omega)
    simp only [hsrc, hdst, ok_bind, hsrcPort, hdstPort, PortFilter.mem_of_load hmap]
    by_cases hhit : srcPortAt skb.linear l4Off ∈ capturePorts ∨
        dstPortAt skb.linear l4Off ∈ capturePorts
    · refine ⟨some (skb.bytes.take (min skb.bytes.length 4608)), ?_, ?_, ?_⟩
      · rw [submit_eq hhelpers (SkBuff.pos_of_transportAt htransport)]
        rw [srcPortAt, dstPortAt] at hhit
        by_cases hdstHit : BigEndian.readU16 ((skb.linear.drop (l4Off + 2)).take 2) ∈ capturePorts
        · simp [hdstHit]
        · simp [hdstHit, hhit.resolve_right hdstHit]
      · exact ⟨fun _ => ⟨l4Off, htransport, hhit⟩, fun _ => rfl⟩
      · intro buf hbuf
        exact (Option.some.inj hbuf).symm
    · refine ⟨none, ?_, ⟨nofun, ?_⟩, nofun⟩
      · rw [srcPortAt, dstPortAt, not_or] at hhit
        simp [hhit.1, hhit.2]
      · rintro ⟨off, ⟨hoff, -⟩, hports⟩
        rw [hat off hoff] at hports
        exact (hhit hports).elim

/-! ## The documented filter -/

/-- The documented filter submits the packet: its transport header is in the linear
data, and the whitelist is empty or has one of its ports. -/
def Wanted (capturePorts : List UInt16) (skb : SkBuff) : Prop :=
  ∃ off, TransportAt skb.linear off ∧
    (capturePorts = [] ∨ srcPortAt skb.linear off ∈ capturePorts ∨
      dstPortAt skb.linear off ∈ capturePorts)

/-- The program does to the packet what the documented filter does. -/
def MeetsFilter (helpers : Helpers) (e : Endian) (map : List (List UInt8))
    (capturePorts : List UInt16) (skb : SkBuff) : Prop :=
  ∃ c, sovprobeClassify helpers e map skb = .ok c ∧ c.verdict = tcActOk ∧
    (c.submitted.isSome ↔ Wanted capturePorts skb) ∧
    ∀ buf, c.submitted = some buf → buf = skb.bytes.take (min skb.bytes.length 4608)

/-- **Exactly when the program meets the documented filter**: unless the whitelist is
empty and the packet one that full capture would want. -/
theorem meetsFilter_iff {helpers : Helpers} {e : Endian} {capturePorts : List UInt16}
    {map : List (List UInt8)} {skb : SkBuff} (hmap : PortFilter.load e capturePorts = .ok map)
    (hhelpers : helpers.Succeed skb) :
    MeetsFilter helpers e map capturePorts skb ↔
      capturePorts ≠ [] ∨ ¬ ∃ off, TransportAt skb.linear off := by
  obtain ⟨submitted, hclassify, hiff, hcopy⟩ := sovprobeClassify_eq hmap hhelpers
  constructor
  · rintro ⟨c, hc, -, hwanted, -⟩
    rw [hclassify] at hc
    rw [← Except.ok.inj hc] at hwanted
    by_cases hempty : capturePorts = []
    · refine Or.inr ?_
      rintro ⟨off, hoff⟩
      -- full capture wants the packet, and no port of it is in the map
      obtain ⟨off', -, hports⟩ := hiff.mp (hwanted.mpr ⟨off, hoff, Or.inl hempty⟩)
      subst hempty
      exact hports.elim List.not_mem_nil List.not_mem_nil
    · exact Or.inl hempty
  · intro hcond
    refine ⟨⟨tcActOk, submitted⟩, hclassify, rfl, hiff.trans ?_, hcopy⟩
    constructor
    · rintro ⟨off, hoff, hports⟩
      exact ⟨off, hoff, Or.inr hports⟩
    · rintro ⟨off, hoff, hports⟩
      have hne : capturePorts ≠ [] := hcond.resolve_right (not_not.mpr ⟨off, hoff⟩)
      exact ⟨off, hoff, hports.resolve_left hne⟩

/-- A TCP segment over IPv4 to port 443, as far as its first 54 bytes. -/
def sampleSkb : SkBuff where
  bytes :=
    [0, 0, 0, 0, 0, 1, 0, 0, 0, 0, 0, 2, 0x08, 0x00,
      0x45, 0, 0, 40, 0, 0, 0, 0, 64, 6, 0, 0, 192, 168, 1, 10, 10, 0, 0, 1,
      0x30, 0x39, 0x01, 0xBB, 0, 0, 0, 1, 0, 0, 0, 0, 0x50, 0x02, 0x10, 0, 0, 0, 0, 0]
  linearLen := 54
  linear_le := by decide
  length_lt := by decide

/-- A kernel with room in the ring buffer. -/
def roomyKernel : Helpers where
  ringbufReserve _ := true
  skbLoadBytes skb off n :=
    if off.toNat + n.toNat ≤ skb.bytes.length then some ((skb.bytes.drop off.toNat).take n.toNat)
    else none

theorem roomyKernel_succeed (skb : SkBuff) : roomyKernel.Succeed skb := by
  intro n hn
  rw [UInt32.le_iff_toNat_le, skb.len_toNat] at hn
  refine ⟨rfl, ?_⟩
  have hroom : (0 : UInt32).toNat + n.toNat ≤ skb.bytes.length := by
    rw [UInt32.toNat_zero]
    omega
  simp only [roomyKernel, if_pos hroom]
  rfl

theorem meetsFilter_iff_https :
    MeetsFilter roomyKernel .little [[0xBB, 0x01]] [443] sampleSkb ↔
      [(443 : UInt16)] ≠ [] ∨ ¬ ∃ off, TransportAt sampleSkb.linear off :=
  meetsFilter_iff rfl (roomyKernel_succeed sampleSkb)

/-- **An empty whitelist captures nothing**, not everything. -/
theorem empty_whitelist_captures_nothing :
    ¬ ∀ (helpers : Helpers) (e : Endian) (capturePorts : List UInt16) (map : List (List UInt8))
        (skb : SkBuff), PortFilter.load e capturePorts = .ok map → helpers.Succeed skb →
        MeetsFilter helpers e map capturePorts skb := by
  intro h
  obtain ⟨c, hc, -, hwanted, -⟩ :=
    h roomyKernel .little [] [] sampleSkb rfl (roomyKernel_succeed sampleSkb)
  have hnone : sovprobeClassify roomyKernel .little [] sampleSkb = .ok ⟨tcActOk, none⟩ := rfl
  rw [hnone] at hc
  rw [← Except.ok.inj hc] at hwanted
  have hheaders : HeadersAt sampleSkb.linear 34 :=
    Or.inl ⟨by decide, by decide, by decide, 0x45, by decide, by decide⟩
  have hsome := hwanted.mpr ⟨34, ⟨hheaders, by decide⟩, Or.inl rfl⟩
  cases hsome

end SovProbe
