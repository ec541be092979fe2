import SovProbe.WalHeader
import SovProbe.Framing

namespace SovProbe
open BigEndian Checked

namespace WalRecord
variable (crc32 : List UInt8 → UInt32)

/-- Bytes 0 to 4 of the record. -/
def lead (r : WalRecord) : List UInt8 := writeU16 walMagic ++ [walVersion] ++ [r.tcpFlags]

/-- Bytes 8 to 64 of the record. -/
def fields (r : WalRecord) : List UInt8 :=
  writeU64 r.timestampNs ++ r.srcIp.toList ++ r.dstIp.toList ++ writeU16 r.srcPort ++
    writeU16 r.dstPort ++ [r.proto.toUInt8] ++ writeU32 r.tcpSeq ++ writeU32 r.tcpAck ++
    writeU16 r.windowSize ++ [if r.flags &&& flagDegraded ≠ 0 then 0x01 else 0] ++
    List.replicate 16 0 ++ writeU32 (UInt32.ofNat r.payload.length) ++ writeU32 r.origPayloadLen

/-- The header `encode` writes into the zeroed buffer, its checksum still zero. -/
theorem writeHeader_zero (r : WalRecord) :
    r.writeHeader (List.replicate walHeaderSize 0) =
      .ok (r.lead ++ List.replicate 4 0 ++ r.fields) := by
  have hzero : List.replicate walHeaderSize (0 : UInt8) = [] ++ List.replicate 64 0 := rfl
  unfold writeHeader
  -- bytes 0 to 4, then the checksum's place is left alone
  rw [hzero, patch_fill (by simp) _ _ (by simp), ok_bind, patch_fill (by simp) _ _ (by simp),
    ok_bind, patch_fill (by simp) _ _ (by simp), ok_bind]
  rw [writeU16_length, List.length_singleton, List.length_singleton,
    show 64 - 2 - 1 - 1 = 4 + 56 from rfl, fill_skip]
  -- bytes 8 to 40, then the reserved bytes are left alone
  rw [patch_fill (by simp) _ _ (by simp), ok_bind, patch_fill (by simp) _ _ (by simp), ok_bind,
    patch_fill (by simp) _ _ (by simp), ok_bind, patch_fill (by simp) _ _ (by simp), ok_bind,
    patch_fill (by simp) _ _ (by simp), ok_bind, patch_fill (by simp) _ _ (by simp), ok_bind,
    patch_fill (by simp) _ _ (by simp), ok_bind, patch_fill (by simp) _ _ (by simp), ok_bind,
    patch_fill (by simp) _ _ (by simp), ok_bind, patch_fill (by simp) _ _ (by simp), ok_bind]
  simp only [writeU16_length, writeU32_length, writeU64_length, Octets.toList_length,
    List.length_singleton]
  rw [show 56 - 8 - 4 - 4 - 2 - 2 - 1 - 4 - 4 - 2 - 1 = 16 + 8 from rfl, fill_skip]
  -- the two lengths
  rw [patch_fill (by simp) _ _ (by simp), ok_bind, patch_fill (by simp) _ _ (by simp)]
  simp [lead, fields]

/-- The checksum `encode` stores. -/
def checksum (r : WalRecord) : UInt32 := crc32 (r.lead ++ (r.fields ++ r.payload))

/-- **The bytes of a record.** -/
def frame (r : WalRecord) : List UInt8 :=
  r.lead ++ (writeU32 (r.checksum crc32) ++ (r.fields ++ r.payload))

@[simp] theorem lead_length (r : WalRecord) : r.lead.length = 4 := by simp [lead]

@[simp] theorem fields_length (r : WalRecord) : r.fields.length = 56 := by simp [fields]

@[simp] theorem frame_length (r : WalRecord) :
    (r.frame crc32).length = walHeaderSize + r.payload.length := by
  simp [frame, walHeaderSize]
  omega

/-- The checksum of a record whose checksum field holds anything at all. -/
theorem crc32Of_lead (front skipped back : List UInt8) (hfront : front.length = 4)
    (hskipped : skipped.length = 4) :
    crc32Of crc32 (front ++ (skipped ++ back)) = .ok (crc32 (front ++ back)) := by
  unfold crc32Of
  rw [slice_of_le (Nat.zero_le 4) (by simp [hfront]), ok_bind,
    slice_of_le (by simp [hfront, hskipped]; omega) (Nat.le_refl _), ok_bind, pure_eq]
  have hlead : ((front ++ (skipped ++ back)).drop 0).take (4 - 0) = front := by
    rw [List.drop_zero, Nat.sub_zero, ← hfront, List.take_left]
  have hbody : (front ++ (skipped ++ back)).drop 8 = back := by
    rw [← List.append_assoc, show 8 = (front ++ skipped).length by simp [hfront, hskipped],
      List.drop_left]
  rw [hlead, hbody, List.take_of_length_le (by simp [hfront, hskipped]; omega)]

/-- **`encode` never faults, leaves what is already there alone and appends the
record's bytes.** -/
theorem encode_eq (r : WalRecord) (out : List UInt8) :
    r.encode crc32 out = .ok (out ++ r.frame crc32) := by
  have hresize : slice (out ++ List.replicate walHeaderSize 0) out.length
      (out.length + walHeaderSize) = .ok (List.replicate walHeaderSize 0) := by
    rw [slice_of_le (Nat.le_add_right _ _) (by simp), List.drop_left]
    simp
  have hheader : patch (out ++ List.replicate walHeaderSize 0) out.length
      (r.lead ++ List.replicate 4 0 ++ r.fields) =
        .ok (out ++ (r.lead ++ List.replicate 4 0 ++ r.fields)) := by
    rw [patch_fill rfl _ _ (by simp [walHeaderSize])]
    simp [walHeaderSize]
  unfold encode
  simp only [hresize, ok_bind, writeHeader_zero, hheader]
  have hwhole : slice (out ++ (r.lead ++ List.replicate 4 0 ++ r.fields) ++ r.payload) out.length
      (out ++ (r.lead ++ List.replicate 4 0 ++ r.fields) ++ r.payload).length =
        .ok (r.lead ++ (List.replicate 4 0 ++ (r.fields ++ r.payload))) := by
    rw [slice_of_le (by simp) (Nat.le_refl _), List.append_assoc, List.drop_left,
      List.take_of_length_le (by simp)]
    simp [List.append_assoc]
  rw [hwhole, ok_bind, crc32Of_lead crc32 _ _ _ r.lead_length (by simp), ok_bind]
  have hsplit : out ++ (r.lead ++ List.replicate 4 0 ++ r.fields) ++ r.payload =
      (out ++ r.lead) ++ (List.replicate 4 0 ++ (r.fields ++ r.payload)) := by
    simp [List.append_assoc]
  rw [hsplit, show out.length + 4 = (out ++ r.lead).length + 0 by simp, patch_append]
  have hstore : patch (List.replicate 4 0 ++ (r.fields ++ r.payload)) 0
      (writeU32 (r.checksum crc32)) =
        .ok (writeU32 (r.checksum crc32) ++ (r.fields ++ r.payload)) := by
    unfold patch
    rw [if_pos (by simp), writeU32_length]
    rfl
  have hcrc : crc32 (r.lead ++ (r.fields ++ r.payload)) = r.checksum crc32 := rfl
  rw [hcrc, hstore, Except.map, frame, List.append_assoc]

/-! ## Reading a record off the front of a byte string -/

/-- Bytes `a` to `b` of a string. -/
def field (bs : List UInt8) (a b : Nat) : List UInt8 := (bs.drop a).take (b - a)

/-- Byte `i` of a string. -/
def byteAt (bs : List UInt8) (i : Nat) : UInt8 := bs[i]?.getD 0

/-- The value of the `payload_len` field. -/
def payloadLenAt (bs : List UInt8) : Nat := (readU32 (field bs 56 60)).toNat

/-- The length of the record the header announces. -/
def totalAt (bs : List UInt8) : Nat := walHeaderSize + payloadLenAt bs

/-- The four checks, on the front of a string. -/
def Accepts (bs : List UInt8) : Prop :=
  walHeaderSize ≤ bs.length ∧ readU16 (field bs 0 2) = walMagic ∧ byteAt bs 2 = walVersion ∧
    totalAt bs ≤ bs.length ∧
    crc32 (field bs 0 4 ++ field bs 8 (totalAt bs)) = readU32 (field bs 4 8)

instance (bs : List UInt8) : Decidable (Accepts crc32 bs) := by unfold Accepts; infer_instance

/-- The address at `i`. -/
def octetsAt (bs : List UInt8) (i : Nat) : Octets :=
  ⟨byteAt bs i, byteAt bs (i + 1), byteAt bs (i + 2), byteAt bs (i + 3)⟩

/-- The flags of a record: one derived from its lengths, one stored. -/
def flagsOf (truncated degraded : Prop) [Decidable truncated] [Decidable degraded] : UInt64 :=
  (if truncated then flagTruncated else 0) ||| (if degraded then flagDegraded else 0)

theorem flagsOf_and_degraded (truncated degraded : Prop) [Decidable truncated]
    [Decidable degraded] : flagsOf truncated degraded &&& flagDegraded ≠ 0 ↔ degraded := by
  unfold flagsOf
  by_cases ht : truncated <;> by_cases hd : degraded <;> simp only [ht, hd, if_true, if_false] <;>
    decide

theorem flagsOf_and_truncated (truncated degraded : Prop) [Decidable truncated]
    [Decidable degraded] : flagsOf truncated degraded &&& flagTruncated ≠ 0 ↔ truncated := by
  unfold flagsOf
  by_cases ht : truncated <;> by_cases hd : degraded <;> simp only [ht, hd, if_true, if_false] <;>
    decide

/-- The flags as `try_decode` collects them, starting from zero. -/
theorem collected_flags (truncated degraded : Prop) [Decidable truncated] [Decidable degraded] :
    (if degraded then (if truncated then 0 ||| flagTruncated else 0) ||| flagDegraded
      else if truncated then 0 ||| flagTruncated else 0) = flagsOf truncated degraded := by
  unfold flagsOf
  by_cases ht : truncated <;> by_cases hd : degraded <;> simp [ht, hd]

/-- The record at the front of a string. -/
def recordAt (bs : List UInt8) : WalRecord where
  timestampNs := readU64 (field bs 8 16)
  flags := flagsOf (readU32 (field bs 60 64) > UInt32.ofNat (payloadLenAt bs))
    (byteAt bs 39 &&& 0x01 ≠ 0)
  tcpFlags := byteAt bs 3
  tcpSeq := readU32 (field bs 29 33)
  tcpAck := readU32 (field bs 33 37)
  windowSize := readU16 (field bs 37 39)
  srcIp := octetsAt bs 16
  dstIp := octetsAt bs 20
  srcPort := readU16 (field bs 24 26)
  dstPort := readU16 (field bs 26 28)
  proto := (byteAt bs 28).toUInt16
  origPayloadLen := readU32 (field bs 60 64)
  payload := field bs walHeaderSize (totalAt bs)

/-- The record at the front of a string and its length, if it passes the checks. -/
def readFrame (bs : List UInt8) : Option (WalRecord × Nat) :=
  if Accepts crc32 bs then some (recordAt bs, totalAt bs) else none

theorem readFrame_eq_some {bs : List UInt8} {r : WalRecord} {n : Nat} :
    readFrame crc32 bs = some (r, n) ↔ Accepts crc32 bs ∧ recordAt bs = r ∧ totalAt bs = n := by
  rw [readFrame]
  by_cases haccept : Accepts crc32 bs
  · rw [if_pos haccept, Option.some.injEq, Prod.mk.injEq, and_iff_right haccept]
  · rw [if_neg haccept]
    exact iff_of_false nofun fun h => haccept h.1

theorem slice_take {bs : List UInt8} {n a b : Nat} (hab : a ≤ b) (hb : b ≤ n)
    (hn : n ≤ bs.length) : slice (bs.take n) a b = .ok (field bs a b) := by
  rw [slice_of_le hab (by rw [List.length_take, Nat.min_eq_left hn]; exact hb), List.drop_take,
    List.take_take, Nat.min_eq_left (by omega)]
  rfl

theorem index_take {bs : List UInt8} {n i : Nat} (hi : i < n) (hn : n ≤ bs.length) :
    index (bs.take n) i = .ok (byteAt bs i) := by
  have hlt : i < (bs.take n).length := by
    rw [List.length_take]
    omega
  rw [index_of_lt hlt, List.getElem_take, byteAt, List.getElem?_eq_getElem (by omega),
    Option.getD_some]

theorem ofSlice_field {bs : List UInt8} {i : Nat} (h : i + 4 ≤ bs.length) :
    Octets.ofSlice (field bs i (i + 4)) = .ok (octetsAt bs i) := by
  have hfield : field bs i (i + 4) =
      [byteAt bs i, byteAt bs (i + 1), byteAt bs (i + 2), byteAt bs (i + 3)] := by
    apply List.ext_getElem
    · rw [field, List.length_take, List.length_drop]
      simp
      omega
    · intro j hj hj'
      have hj4 : j = 0 ∨ j = 1 ∨ j = 2 ∨ j = 3 := by
        simp at hj'
        omega
      rcases hj4 with rfl | rfl | rfl | rfl <;>
        simp [field, byteAt, List.getElem?_eq_getElem (by omega : i < bs.length),
          List.getElem?_eq_getElem (by omega : i + 1 < bs.length),
          List.getElem?_eq_getElem (by omega : i + 2 < bs.length),
          List.getElem?_eq_getElem (by omega : i + 3 < bs.length)]
  rw [hfield]
  rfl

theorem slice_drop {buf : List UInt8} {pos a b : Nat} (hab : a ≤ b) (hb : pos + b ≤ buf.length) :
    slice buf (pos + a) (pos + b) = .ok (field (buf.drop pos) a b) := by
  rw [slice_of_le (by omega) hb, field, List.drop_drop, show pos + b - (pos + a) = b - a by omega]

/-- The checksum of a record in place. -/
theorem crc32Of_take {bs : List UInt8} {n : Nat} (h8 : 8 ≤ n) (hn : n ≤ bs.length) :
    crc32Of crc32 (bs.take n) = .ok (crc32 (field bs 0 4 ++ field bs 8 n)) := by
  have hlen : (bs.take n).length = n := by rw [List.length_take, Nat.min_eq_left hn]
  unfold crc32Of
  rw [slice_take (Nat.zero_le 4) (by omega) hn, ok_bind, hlen, slice_take h8 (Nat.le_refl n) hn,
    ok_bind, pure_eq]

/-- **`try_decode` depends only on the bytes from its position on**, and at a
position inside the buffer it never faults. -/
theorem tryDecode_eq (buf : List UInt8) {pos : Nat} (h : pos ≤ buf.length) :
    tryDecode crc32 buf pos =
      .ok ((readFrame crc32 (buf.drop pos)).map fun p => (p.1, pos + p.2)) := by
  have hlen : (buf.drop pos).length = buf.length - pos := List.length_drop
  have hrefuse (hno : ¬ Accepts crc32 (buf.drop pos)) : readFrame crc32 (buf.drop pos) = none :=
    if_neg hno
  unfold tryDecode
  rw [sub_of_le h, ok_bind]
  by_cases h64 : buf.length - pos < walHeaderSize
  · rw [if_pos h64, hrefuse (fun ha => by have := ha.1; omega)]
    rfl
  rw [if_neg h64]
  have hw : walHeaderSize = 64 := rfl
  have hroom : 64 ≤ (buf.drop pos).length := by omega
  have hheader : slice buf pos (pos + walHeaderSize) = .ok ((buf.drop pos).take 64) := by
    rw [slice_of_le (Nat.le_add_right _ _) (by omega), Nat.add_sub_cancel_left, hw]
  rw [hheader, ok_bind, slice_take (by omega) (by omega) hroom, ok_bind]
  by_cases hmagic : readU16 (field (buf.drop pos) 0 2) = walMagic
  case neg =>
    rw [if_pos hmagic, hrefuse (fun ha => hmagic ha.2.1)]
    rfl
  rw [if_neg (not_not_intro hmagic), index_take (by omega) hroom, ok_bind]
  by_cases hversion : byteAt (buf.drop pos) 2 = walVersion
  case neg =>
    rw [if_pos hversion, hrefuse (fun ha => hversion ha.2.2.1)]
    rfl
  rw [if_neg (not_not_intro hversion), slice_take (by omega) (by omega) hroom, ok_bind, ok_bind]
  by_cases htotal : buf.length - pos < totalAt (buf.drop pos)
  · have hshort : buf.length - pos <
        walHeaderSize + (readU32 (field (buf.drop pos) 56 60)).toNat := htotal
    simp only [if_pos hshort]
    rw [hrefuse (fun ha => by have := ha.2.2.2.1; omega)]
    rfl
  have hfits : totalAt (buf.drop pos) ≤ (buf.drop pos).length := by omega
  have hbody : slice buf pos (pos + totalAt (buf.drop pos)) =
      .ok ((buf.drop pos).take (totalAt (buf.drop pos))) := by
    rw [slice_of_le (Nat.le_add_right _ _) (by omega), Nat.add_sub_cancel_left]
  have hpayload : slice buf (pos + walHeaderSize) (pos + totalAt (buf.drop pos)) =
      .ok (field (buf.drop pos) walHeaderSize (totalAt (buf.drop pos))) :=
    slice_drop (Nat.le_add_right _ _) (by omega)
  have h8 : 8 ≤ totalAt (buf.drop pos) := by
    unfold totalAt
    omega
  have hplen : (readU32 (field (buf.drop pos) 56 60)).toNat = payloadLenAt (buf.drop pos) := rfl
  have htot : walHeaderSize + payloadLenAt (buf.drop pos) = totalAt (buf.drop pos) := rfl
  simp only [hplen, htot, if_neg htotal]
  rw [slice_take (by omega) (by omega) hroom, ok_bind, hbody, ok_bind,
    crc32Of_take crc32 h8 hfits, ok_bind]
  by_cases hcrc : crc32 (field (buf.drop pos) 0 4 ++
      field (buf.drop pos) 8 (totalAt (buf.drop pos))) = readU32 (field (buf.drop pos) 4 8)
  case neg =>
    rw [if_pos hcrc, hrefuse (fun ha => hcrc ha.2.2.2.2)]
    rfl
  have haccept : readFrame crc32 (buf.drop pos) =
      some (recordAt (buf.drop pos), totalAt (buf.drop pos)) :=
    if_pos ⟨by omega, hmagic, hversion, hfits, hcrc⟩
  rw [if_neg (not_not_intro hcrc), haccept]
  have hslice {a b : Nat} (hab : a ≤ b) (hb : b ≤ 64) := slice_take hab hb hroom
  have hindex {i : Nat} (hi : i < 64) := index_take hi hroom
  rw [hslice (by omega) (by omega), ok_bind, hindex (by omega), ok_bind,
    hslice (by omega) (by omega),
    ok_bind, hindex (by omega), ok_bind, hslice (by omega) (by omega), ok_bind,
    hslice (by omega) (by omega), ok_bind, hslice (by omega) (by omega), ok_bind,
    hslice (by omega) (by omega), ok_bind, ofSlice_field (by omega), ok_bind,
    hslice (by omega) (by omega), ok_bind, ofSlice_field (by omega), ok_bind,
    hslice (by omega) (by omega), ok_bind, hslice (by omega) (by omega), ok_bind,
    hindex (by omega), ok_bind, hpayload, ok_bind, pure_eq]
  rw [collected_flags]
  rfl

/-! ## Reading back what `encode` wrote -/

theorem field_skip {front : List UInt8} {n a b : Nat} (hn : front.length = n) (h : n ≤ a)
    (back : List UInt8) : field (front ++ back) a b = field back (a - n) (b - n) := by
  subst hn
  unfold field
  rw [List.drop_append, List.drop_of_length_le h, List.nil_append]
  congr 1
  omega

theorem field_head {front : List UInt8} {n : Nat} (h : front.length = n) (back : List UInt8) :
    field (front ++ back) 0 n = front := by
  rw [field, List.drop_zero, Nat.sub_zero, ← h, List.take_left]

theorem byteAt_skip {front : List UInt8} {n i : Nat} (hn : front.length = n) (h : n ≤ i)
    (back : List UInt8) : byteAt (front ++ back) i = byteAt back (i - n) := by
  subst hn
  unfold byteAt
  rw [List.getElem?_append_right h]

theorem byteAt_head (b : UInt8) (back : List UInt8) : byteAt ([b] ++ back) 0 = b := rfl

theorem octetsAt_skip {front : List UInt8} {n i : Nat} (hn : front.length = n) (h : n ≤ i)
    (back : List UInt8) : octetsAt (front ++ back) i = octetsAt back (i - n) := by
  simp only [octetsAt, byteAt_skip hn h, byteAt_skip hn (show n ≤ i + 1 by omega),
    byteAt_skip hn (show n ≤ i + 2 by omega), byteAt_skip hn (show n ≤ i + 3 by omega),
    show i + 1 - n = i - n + 1 by omega, show i + 2 - n = i - n + 2 by omega,
    show i + 3 - n = i - n + 3 by omega]

theorem octetsAt_head (ip : Octets) (back : List UInt8) : octetsAt (ip.toList ++ back) 0 = ip := rfl

/-- Every field of the header of a record, read where the decoder reads it. -/
theorem frame_fields (r : WalRecord) (t : List UInt8) :
    field (r.frame crc32 ++ t) 0 2 = writeU16 walMagic ∧
    byteAt (r.frame crc32 ++ t) 2 = walVersion ∧
    byteAt (r.frame crc32 ++ t) 3 = r.tcpFlags ∧
    field (r.frame crc32 ++ t) 4 8 = writeU32 (r.checksum crc32) ∧
    field (r.frame crc32 ++ t) 8 16 = writeU64 r.timestampNs ∧
    octetsAt (r.frame crc32 ++ t) 16 = r.srcIp ∧
    octetsAt (r.frame crc32 ++ t) 20 = r.dstIp ∧
    field (r.frame crc32 ++ t) 24 26 = writeU16 r.srcPort ∧
    field (r.frame crc32 ++ t) 26 28 = writeU16 r.dstPort ∧
    byteAt (r.frame crc32 ++ t) 28 = r.proto.toUInt8 ∧
    field (r.frame crc32 ++ t) 29 33 = writeU32 r.tcpSeq ∧
    field (r.frame crc32 ++ t) 33 37 = writeU32 r.tcpAck ∧
    field (r.frame crc32 ++ t) 37 39 = writeU16 r.windowSize ∧
    byteAt (r.frame crc32 ++ t) 39 = (if r.flags &&& flagDegraded ≠ 0 then 0x01 else 0) ∧
    field (r.frame crc32 ++ t) 56 60 = writeU32 (UInt32.ofNat r.payload.length) ∧
    field (r.frame crc32 ++ t) 60 64 = writeU32 r.origPayloadLen := by
  simp only [frame, lead, fields, List.append_assoc]
  simp only [field_skip (writeU16_length _), field_skip (writeU32_length _),
    field_skip (writeU64_length _), field_skip (Octets.toList_length _),
    field_skip (@List.length_singleton _ _), field_skip (@List.length_replicate _ 16 _),
    byteAt_skip (writeU16_length _), byteAt_skip (writeU32_length _),
    byteAt_skip (writeU64_length _), byteAt_skip (Octets.toList_length _),
    byteAt_skip (@List.length_singleton _ _), octetsAt_skip (writeU16_length _),
    octetsAt_skip (writeU32_length _), octetsAt_skip (writeU64_length _),
    octetsAt_skip (Octets.toList_length _), octetsAt_skip (@List.length_singleton _ _),
    field_head (writeU16_length _), field_head (writeU32_length _), field_head (writeU64_length _),
    byteAt_head, octetsAt_head, Nat.reduceLeDiff, Nat.reduceSub, Nat.le_refl, and_self]

/-- The payload of a record, and the bytes its checksum covers. -/
theorem frame_payload (r : WalRecord) (t : List UInt8) :
    field (r.frame crc32 ++ t) walHeaderSize (walHeaderSize + r.payload.length) = r.payload ∧
    field (r.frame crc32 ++ t) 0 4 = r.lead ∧
    field (r.frame crc32 ++ t) 8 (walHeaderSize + r.payload.length) = r.fields ++ r.payload := by
  have hw : walHeaderSize = 64 := rfl
  rw [hw]
  simp only [frame, List.append_assoc]
  refine ⟨?_, field_head r.lead_length _, ?_⟩
  · rw [field_skip r.lead_length (by omega), field_skip (writeU32_length _) (by omega),
      field_skip r.fields_length (by omega), field_head (by omega)]
  · rw [field_skip r.lead_length (by omega), field_skip (writeU32_length _) (by omega),
      ← List.append_assoc, field_head (by rw [List.length_append, fields_length]; omega)]

variable {crc32}

/-- What the format can hold: a protocol number of one byte and a payload length of
four. -/
structure Encodable (r : WalRecord) : Prop where
  proto_lt : r.proto.toNat < 256
  payload_lt : r.payload.length < 2 ^ 32

/-- What decoding makes of a record: `flags` is exactly `DEGRADED` if that was set and
`TRUNCATED` if the payload is shorter than it was on the wire; every other field stays. -/
def normalised (r : WalRecord) : WalRecord :=
  let truncated := r.origPayloadLen.toNat > r.payload.length
  { r with flags := flagsOf truncated (r.flags &&& flagDegraded ≠ 0) }

theorem payloadLenAt_frame {r : WalRecord} (h : r.Encodable) (t : List UInt8) :
    payloadLenAt (r.frame crc32 ++ t) = r.payload.length := by
  obtain ⟨-, -, -, -, -, -, -, -, -, -, -, -, -, -, hlen, -⟩ := frame_fields crc32 r t
  rw [payloadLenAt, hlen, readU32_writeU32, UInt32.toNat_ofNat', Nat.mod_eq_of_lt h.payload_lt]

/-- **The checks accept what `encode` wrote**, whatever follows it. -/
theorem accepts_frame {r : WalRecord} (h : r.Encodable) (t : List UInt8) :
    Accepts crc32 (r.frame crc32 ++ t) := by
  obtain ⟨hmagic, hversion, -, hcrc, -⟩ := frame_fields crc32 r t
  obtain ⟨-, hlead, hbody⟩ := frame_payload crc32 r t
  have htotal : totalAt (r.frame crc32 ++ t) = walHeaderSize + r.payload.length := by
    rw [totalAt, payloadLenAt_frame h]
  refine ⟨?_, ?_, hversion, ?_, ?_⟩
  · rw [List.length_append, frame_length]
    omega
  · rw [hmagic, readU16_writeU16]
  · rw [htotal, List.length_append, frame_length]
    omega
  · rw [htotal, hlead, hbody, hcrc, readU32_writeU32]
    rfl

/-- **The decoder reads back what `encode` wrote**, whatever follows it. -/
theorem recordAt_frame {r : WalRecord} (h : r.Encodable) (t : List UInt8) :
    recordAt (r.frame crc32 ++ t) = r.normalised := by
  obtain ⟨-, -, hflags, -, htime, hsrc, hdst, hsport, hdport, hproto, hseq, hack, hwindow,
    hdegraded, -, horig⟩ := frame_fields crc32 r t
  obtain ⟨hpayload, -, -⟩ := frame_payload crc32 r t
  have hproto' : r.proto.toUInt8.toUInt16 = r.proto := by
    apply UInt16.toNat_inj.mp
    rw [UInt8.toNat_toUInt16, UInt16.toNat_toUInt8, Nat.mod_eq_of_lt h.proto_lt]
  have htruncated : (r.origPayloadLen > UInt32.ofNat r.payload.length) ↔
      r.origPayloadLen.toNat > r.payload.length := by
    rw [GT.gt, UInt32.lt_iff_toNat_lt, UInt32.toNat_ofNat', Nat.mod_eq_of_lt h.payload_lt]
  have hdegraded' : ((if r.flags &&& flagDegraded ≠ 0 then (0x01 : UInt8) else 0) &&& 0x01 ≠ 0) ↔
      r.flags &&& flagDegraded ≠ 0 := by
    split <;> simp_all
  unfold recordAt normalised
  rw [totalAt, payloadLenAt_frame h]
  simp only [hflags, htime, hsrc, hdst, hsport, hdport, hproto, hseq, hack, hwindow, hdegraded,
    horig, hpayload, hproto', readU16_writeU16, readU32_writeU32, readU64_writeU64, htruncated,
    hdegraded']

end WalRecord
end SovProbe
