import SovProbe.BigEndian
import Mathlib.Tactic.SplitIfs

/-! # IPv4 packets on Ethernet

What a frame says, as any reader of the standards would take it.  `layout` finds the
headers: Ethernet II, IPv4 with options, and TCP with options or UDP.  They are
self-delimiting, so what follows them does not matter.  `parse` reads the fields, and
the payload as the two length fields delimit it: what the Ethernet frame has behind the
IPv4 total length is not part of it.
-/

namespace Internet
open BigEndian

/-- `n` bytes of a string from `i` on. -/
def part (bs : List UInt8) (i n : Nat) : List UInt8 := (bs.drop i).take n

/-- Byte `i` of a string. -/
def byteAt (bs : List UInt8) (i : Nat) : UInt8 := bs[i]?.getD 0

/-- Where the transport header starts and where it ends. -/
structure Layout where
  transport : Nat
  payload : Nat
  deriving DecidableEq, Repr

/-- The transport header of a packet that has one at `l4`. -/
def transportLayout (bs : List UInt8) (l4 : Nat) : Option Layout :=
  if byteAt bs 23 = 6 then
    if bs.length < l4 + 20 then none
    else
      let headerLen := 4 * (byteAt bs (l4 + 12) >>> 4).toNat
      if headerLen < 20 ∨ bs.length < l4 + headerLen then none else some ⟨l4, l4 + headerLen⟩
  else if byteAt bs 23 = 17 then
    if bs.length < l4 + 8 then none else some ⟨l4, l4 + 8⟩
  else none

/-- The headers of an unfragmented TCP or UDP packet; `none` if the frame is something
else or ends inside them. -/
def layout (bs : List UInt8) : Option Layout :=
  if bs.length < 34 ∨ readU16 (part bs 12 2) ≠ 0x0800 then none
  else
    let l4 := 14 + 4 * (byteAt bs 14 &&& 0x0F).toNat
    if byteAt bs 14 >>> 4 ≠ 4 ∨ l4 < 34 ∨ bs.length < l4 then none
    else if readU16 (part bs 20 2) &&& 0x3FFF ≠ 0 then none
    else transportLayout bs l4

/-- The length of the IPv4 packet as its header has it, this header included. -/
def totalLength (bs : List UInt8) : Nat := (readU16 (part bs 16 2)).toNat

/-- What the transport header says besides the ports. -/
inductive Transport where
  | tcp (seq ack : UInt32) (flags : UInt8) (window : UInt16)
  | udp
  deriving DecidableEq, Repr

/-- What a packet says. -/
structure Datagram where
  source : List UInt8
  destination : List UInt8
  protocol : UInt8
  srcPort : UInt16
  dstPort : UInt16
  transport : Transport
  payload : List UInt8
  deriving DecidableEq, Repr

/-- The six flags are the low bits of byte 13. -/
def tcpAt (bs : List UInt8) (l4 : Nat) : Transport :=
  .tcp (readU32 (part bs (l4 + 4) 4)) (readU32 (part bs (l4 + 8) 4))
    (byteAt bs (l4 + 13) &&& 0x3F) (readU16 (part bs (l4 + 14) 2))

/-- A frame read by the standards, with the payload the length fields delimit. -/
def parse (bs : List UInt8) : Option Datagram := do
  let at' ← layout bs
  let stop := 14 + totalLength bs
  if stop < at'.payload ∨ bs.length < stop then none
  else
    let datagram : Datagram :=
      { source := part bs 26 4
        destination := part bs 30 4
        protocol := byteAt bs 23
        srcPort := readU16 (part bs at'.transport 2)
        dstPort := readU16 (part bs (at'.transport + 2) 2)
        transport := .udp
        payload := [] }
    if byteAt bs 23 = 6 then
      some
        { datagram with
          transport := tcpAt bs at'.transport
          payload := part bs at'.payload (stop - at'.payload) }
    else
      let udpStop := at'.transport + (readU16 (part bs (at'.transport + 4) 2)).toNat
      if udpStop < at'.payload ∨ stop < udpStop then none
      else some { datagram with payload := part bs at'.payload (udpStop - at'.payload) }

/-! ## What the reader finds -/

section
variable {bs bs' : List UInt8} {found : Layout}

/-- The transport header at `l4` ends at `stop`. -/
inductive TransportEnds (bs : List UInt8) (l4 stop : Nat) : Prop
  | tcp : byteAt bs 23 = 6 → stop = l4 + 4 * (byteAt bs (l4 + 12) >>> 4).toNat → l4 + 20 ≤ stop →
    TransportEnds bs l4 stop
  | udp : byteAt bs 23 = 17 → stop = l4 + 8 → TransportEnds bs l4 stop

/-- The frame has the headers of an unfragmented TCP or UDP packet over IPv4. -/
structure Headers (bs : List UInt8) (found : Layout) : Prop where
  complete : found.payload ≤ bs.length
  etherType : readU16 (part bs 12 2) = 0x0800
  version : byteAt bs 14 >>> 4 = 4
  headerLen : found.transport = 14 + 4 * (byteAt bs 14 &&& 0x0F).toNat
  network : 34 ≤ found.transport
  whole : readU16 (part bs 20 2) &&& 0x3FFF = 0
  ends : TransportEnds bs found.transport found.payload

theorem TransportEnds.le {l4 stop : Nat} (h : TransportEnds bs l4 stop) : l4 + 8 ≤ stop := by
  cases h with
  | tcp _ _ hle => omega
  | udp _ heq => omega

theorem transportLayout_eq_some {l4 : Nat} : transportLayout bs l4 = some found ↔
    found.transport = l4 ∧ found.payload ≤ bs.length ∧ TransportEnds bs l4 found.payload := by
  obtain ⟨l4', stop⟩ := found
  have hnot : (17 : UInt8) ≠ 6 := by decide
  unfold transportLayout
  dsimp only
  by_cases htcp : byteAt bs 23 = 6
  · have hnudp : byteAt bs 23 ≠ 17 := fun hudp => hnot (hudp.symm.trans htcp)
    rw [if_pos htcp]
    constructor
    · intro h
      split_ifs at h with hshort hbad
      obtain ⟨rfl, rfl⟩ := Layout.mk.inj (Option.some.inj h)
      exact ⟨rfl, by omega, .tcp htcp rfl (by omega)⟩
    · rintro ⟨rfl, hlen, hends⟩
      cases hends with
      | tcp _ heq hle => rw [if_neg (by omega), if_neg (by omega), heq]
      | udp hudp => exact absurd hudp hnudp
  · rw [if_neg htcp]
    constructor
    · intro h
      split_ifs at h with hudp hshort
      obtain ⟨rfl, rfl⟩ := Layout.mk.inj (Option.some.inj h)
      exact ⟨rfl, by omega, .udp hudp rfl⟩
    · rintro ⟨rfl, hlen, hends⟩
      cases hends with
      | tcp htcp' => exact absurd htcp' htcp
      | udp hudp heq => rw [if_pos hudp, if_neg (by omega), heq]

/-- **The reader finds the headers that are there**, and no others. -/
theorem layout_eq_some : layout bs = some found ↔ Headers bs found := by
  unfold layout
  dsimp only
  constructor
  · intro h
    split_ifs at h with hlink hnetwork hwhole
    obtain ⟨-, hetherType⟩ := not_or.mp hlink
    obtain ⟨hversion, hnetwork⟩ := not_or.mp hnetwork
    obtain ⟨htransport, hcomplete, hends⟩ := transportLayout_eq_some.mp h
    exact {
      complete := hcomplete
      etherType := Decidable.not_not.mp hetherType
      version := Decidable.not_not.mp hversion
      headerLen := htransport
      network := by omega
      whole := Decidable.not_not.mp hwhole
      ends := htransport ▸ hends }
  · intro h
    have hends := h.ends.le
    have hcomplete := h.complete
    have hnetwork := h.network
    rw [if_neg (not_or.mpr ⟨by omega, fun hne => hne h.etherType⟩), ← h.headerLen,
      if_neg (not_or.mpr ⟨fun hne => hne h.version, by omega⟩), if_neg (fun hne => hne h.whole)]
    exact transportLayout_eq_some.mpr ⟨rfl, h.complete, h.ends⟩

theorem Headers.payload_le (h : Headers bs found) : found.payload ≤ 134 := by
  have hnibble : (byteAt bs 14 &&& 0x0F).toNat < 16 := by
    rw [UInt8.toNat_and]
    exact Nat.lt_of_le_of_lt Nat.and_le_right (by decide)
  have hoffset : (byteAt bs (found.transport + 12) >>> 4).toNat < 16 := by
    have hlt := (byteAt bs (found.transport + 12)).toNat_lt
    rw [UInt8.toNat_shiftRight]
    show (byteAt bs (found.transport + 12)).toNat >>> 4 < 16
    rw [Nat.shiftRight_eq_div_pow]
    omega
  have hheaderLen := h.headerLen
  cases h.ends with
  | tcp _ heq _ => omega
  | udp _ heq => omega

/-! ## Headers are self-delimiting -/

theorem part_take {i n k : Nat} (h : i + n ≤ k) : part (bs.take k) i n = part bs i n := by
  rw [part, part, List.drop_take, List.take_take, Nat.min_eq_left (by omega)]

theorem byteAt_take {i k : Nat} (h : i < k) : byteAt (bs.take k) i = byteAt bs i := by
  rw [byteAt, byteAt, List.getElem?_take_of_lt h]

/-- **What follows the headers does not matter.** -/
theorem Headers.congr (h : Headers bs found) (hlen : found.payload ≤ bs'.length)
    (heq : bs'.take found.payload = bs.take found.payload) : Headers bs' found := by
  have hends := h.ends.le
  have hnetwork := h.network
  have hpart : ∀ {i n}, i + n ≤ found.payload → part bs' i n = part bs i n := by
    intro i n hin
    rw [← part_take hin, heq, part_take hin]
  have hbyte : ∀ {i}, i < found.payload → byteAt bs' i = byteAt bs i := by
    intro i hi
    rw [← byteAt_take hi, heq, byteAt_take hi]
  exact {
    complete := hlen
    etherType := by rw [hpart (by omega), h.etherType]
    version := by rw [hbyte (by omega), h.version]
    headerLen := by rw [hbyte (by omega), h.headerLen]
    network := hnetwork
    whole := by rw [hpart (by omega), h.whole]
    ends := by
      cases h.ends with
      | tcp htcp heq hle =>
        refine .tcp ?_ ?_ hle
        · rw [hbyte (by omega), htcp]
        · rwa [hbyte (by omega)]
      | udp hudp heq =>
        refine .udp ?_ heq
        rw [hbyte (by omega), hudp] }

theorem totalLength_take {k : Nat} (hk : 18 ≤ k) : totalLength (bs.take k) = totalLength bs := by
  rw [totalLength, part_take hk, totalLength]

theorem layout_take {k : Nat} (h : layout bs = some found) (hk : found.payload ≤ k) :
    layout (bs.take k) = some found := by
  have hheaders := layout_eq_some.mp h
  refine layout_eq_some.mpr (hheaders.congr ?_ ?_)
  · rw [List.length_take]
    exact Nat.le_min.mpr ⟨hk, hheaders.complete⟩
  · rw [List.take_take, Nat.min_eq_left hk]

theorem layout_append {rest : List UInt8} (h : layout bs = some found) :
    layout (bs ++ rest) = some found := by
  have hheaders := layout_eq_some.mp h
  refine layout_eq_some.mpr (hheaders.congr ?_ ?_)
  · rw [List.length_append]
    exact Nat.le_add_right_of_le hheaders.complete
  · rw [List.take_append_of_le_length hheaders.complete]

/-! ## Reading packets -/

/-- The fields of a packet, but for those of TCP, and with the payload from `i` to `j`. -/
def fieldsAt (bs : List UInt8) (l4 i j : Nat) : Datagram where
  source := part bs 26 4
  destination := part bs 30 4
  protocol := byteAt bs 23
  srcPort := readU16 (part bs l4 2)
  dstPort := readU16 (part bs (l4 + 2) 2)
  transport := .udp
  payload := part bs i (j - i)

theorem parse_tcp (hlayout : layout bs = some found) (hprotocol : byteAt bs 23 = 6) {stop : Nat}
    (htotal : 14 + totalLength bs = stop) (hheaders : found.payload ≤ stop)
    (hstop : stop ≤ bs.length) :
    parse bs = some { fieldsAt bs found.transport found.payload stop with
      transport := tcpAt bs found.transport } := by
  unfold parse
  rw [hlayout, Option.bind_eq_bind, Option.bind_some, htotal]
  dsimp only
  rw [if_neg (by omega), if_pos hprotocol]
  rfl

theorem parse_udp (hlayout : layout bs = some found) (hprotocol : byteAt bs 23 = 17)
    {stop udpStop : Nat} (htotal : 14 + totalLength bs = stop)
    (hudp : found.transport + (readU16 (part bs (found.transport + 4) 2)).toNat = udpStop)
    (hheaders : found.payload ≤ udpStop) (hwithin : udpStop ≤ stop) (hstop : stop ≤ bs.length) :
    parse bs = some (fieldsAt bs found.transport found.payload udpStop) := by
  have hnot : (17 : UInt8) ≠ 6 := by decide
  unfold parse
  rw [hlayout, Option.bind_eq_bind, Option.bind_some, htotal]
  dsimp only
  rw [if_neg (by omega), hprotocol, if_neg hnot, hudp, if_neg (by omega), fieldsAt, hprotocol]

end
end Internet
