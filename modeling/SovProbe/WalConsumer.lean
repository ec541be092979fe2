import SovProbe.WalStream

/-! # The consumer of a stream

A consumer of WAL bytes does not know where one record ends and the next begins,
nor how the bytes were cut on their way.  It decodes what it has, keeps the
records and the residual bytes, and decodes the residual again together with the
next piece.

**Pieces.**  Acceptance of a record depends on the bytes of the record alone
(`framer_stable`), so the pieces do not matter (`receiveAll_eq`).

**Nothing lost.**  Decoding accounts for every byte of any string, valid or not,
and where the bytes that the layout reserves are zero, encoding the records again
gives back the bytes they were read from (`frame_recordAt`).
-/

namespace SovProbe
open BigEndian Checked

namespace WalRecord
variable (crc32 : List UInt8 → UInt32)

/-! ## Pieces -/

/-- An accepted record stays accepted, and stays the same, when more bytes follow. -/
theorem framer_stable : (framer crc32).Stable := by
  intro bs r n hread t
  rw [framer_read] at hread ⊢
  obtain ⟨⟨hheader, hmagic, hversion, htotal, hcrc⟩, rfl, rfl⟩ := (readFrame_eq_some crc32).mp hread
  have hw : walHeaderSize = 64 := rfl
  have hfield {a b : Nat} (hb : b ≤ bs.length) : field (bs ++ t) a b = field bs a b :=
    field_append_left hb t
  have hbyte {i : Nat} (hi : i < bs.length) : byteAt (bs ++ t) i = byteAt bs i := by
    rw [byteAt, byteAt, List.getElem?_append_left hi]
  have hlength : payloadLenAt (bs ++ t) = payloadLenAt bs := by
    rw [payloadLenAt, payloadLenAt, hfield (by omega)]
  have htotal' : totalAt (bs ++ t) = totalAt bs := by rw [totalAt, totalAt, hlength]
  have haccept' : Accepts crc32 (bs ++ t) := by
    refine ⟨?_, ?_, ?_, ?_, ?_⟩
    · rw [List.length_append]
      omega
    · rw [hfield (by omega), hmagic]
    · rw [hbyte (by omega), hversion]
    · rw [htotal', List.length_append]
      omega
    · rw [htotal', hfield (by omega), hfield htotal, hfield (by omega), hcrc]
  have hrecord : recordAt (bs ++ t) = recordAt bs := by
    have hoctets {i : Nat} (hi : i + 3 < bs.length) : octetsAt (bs ++ t) i = octetsAt bs i := by
      simp only [octetsAt, hbyte (show i < bs.length by omega),
        hbyte (show i + 1 < bs.length by omega), hbyte (show i + 2 < bs.length by omega), hbyte hi]
    unfold recordAt
    rw [htotal', hlength, hfield htotal]
    simp only [hfield (show 16 ≤ bs.length by omega), hfield (show 26 ≤ bs.length by omega),
      hfield (show 28 ≤ bs.length by omega), hfield (show 33 ≤ bs.length by omega),
      hfield (show 37 ≤ bs.length by omega), hfield (show 39 ≤ bs.length by omega),
      hfield (show 64 ≤ bs.length by omega), hbyte (show 3 < bs.length by omega),
      hbyte (show 28 < bs.length by omega), hbyte (show 39 < bs.length by omega),
      hoctets (show 16 + 3 < bs.length by omega), hoctets (show 20 + 3 < bs.length by omega)]
  exact (readFrame_eq_some crc32).mpr ⟨haccept', hrecord, htotal'⟩

/-- What a consumer of a stream keeps from one piece to the next. -/
structure Consumer where
  records : List WalRecord
  residual : List UInt8
  deriving DecidableEq, Repr

namespace Consumer

/-- A piece arrives: the residual bytes and the piece are decoded together, and the
bytes that are left over are kept. -/
def receive (self : Consumer) (piece : List UInt8) : Checked Consumer := do
  let buf := self.residual ++ piece
  let (records, residual) ← decodeStream crc32 buf
  return { records := self.records ++ records, residual := buf.drop (← sub buf.length residual) }

/-- The pieces of a stream arrive one after another. -/
def receiveAll (self : Consumer) (pieces : List (List UInt8)) : Checked Consumer :=
  pieces.foldlM (receive crc32) self

theorem receive_eq (self : Consumer) (piece : List UInt8) :
    self.receive crc32 piece =
      .ok { records := self.records ++ ((framer crc32).decode (self.residual ++ piece)).1
            residual := (framer crc32).residual (self.residual ++ piece) } := by
  have hle := (framer crc32).decode_snd_le (self.residual ++ piece)
  simp only [receive, decodeStream_eq, ok_bind, sub_of_le hle, pure_eq]
  rfl

/-- The state of a consumer that has received `b`, in whatever pieces. -/
def afterReceiving (b : List UInt8) : Consumer where
  records := ((framer crc32).decode b).1
  residual := (framer crc32).residual b

/-- One more piece. -/
theorem receive_afterReceiving (b piece : List UInt8) :
    (afterReceiving crc32 b).receive crc32 piece = .ok (afterReceiving crc32 (b ++ piece)) := by
  have hstable := framer_stable crc32
  rw [receive_eq]
  unfold afterReceiving
  rw [hstable.residual_append b piece, hstable.decode_append b piece]

theorem receiveAll_afterReceiving (pieces : List (List UInt8)) (b : List UInt8) :
    (afterReceiving crc32 b).receiveAll crc32 pieces =
      .ok (afterReceiving crc32 (b ++ pieces.flatten)) := by
  induction pieces generalizing b with
  | nil =>
    rw [List.flatten_nil, List.append_nil]
    rfl
  | cons piece pieces ih =>
    have hstep : (afterReceiving crc32 b).receiveAll crc32 (piece :: pieces) =
        (afterReceiving crc32 b).receive crc32 piece >>=
          fun c => c.receiveAll crc32 pieces := List.foldlM_cons
    rw [hstep, receive_afterReceiving, ok_bind, ih, List.flatten_cons, List.append_assoc]

/-- **Streaming decode does not depend on how the bytes arrive.**  However a string is
cut, the consumer never faults and ends with the records of the whole string and as
many residual bytes, the last ones of the string. -/
theorem receiveAll_eq (pieces : List (List UInt8)) :
    ∃ records residual,
      receiveAll crc32 { records := [], residual := [] } pieces = .ok { records, residual } ∧
        decodeStream crc32 pieces.flatten = .ok (records, residual.length) ∧
        residual <:+ pieces.flatten := by
  have hempty : ({ records := [], residual := [] } : Consumer) = afterReceiving crc32 [] := by
    unfold afterReceiving
    rw [(framer crc32).residual_of_refused rfl, (framer crc32).decode_of_refused rfl]
  refine ⟨(afterReceiving crc32 pieces.flatten).records,
    (afterReceiving crc32 pieces.flatten).residual, ?_, ?_, List.drop_suffix _ _⟩
  · rw [hempty, receiveAll_afterReceiving, List.nil_append]
  · rw [decodeStream_eq, afterReceiving, (framer crc32).residual_length]

end Consumer

/-! ## Nothing lost -/

/-- The length of a record in the stream. -/
def size (self : WalRecord) : Nat := walHeaderSize + self.payload.length

/-- What the layout reserves is zero: bits 1 to 7 of byte 39, and bytes 40 to 56. -/
def ReservedZero (bs : List UInt8) : Prop :=
  byteAt bs 39 &&& 0xFE = 0 ∧ ∀ i, 40 ≤ i → i < 56 → byteAt bs i = 0

theorem field_append_field {bs : List UInt8} {a b c : Nat} (hab : a ≤ b) (hbc : b ≤ c) :
    field bs a b ++ field bs b c = field bs a c := by
  have hlen : c - a = (b - a) + (c - b) := by omega
  have hdrop : bs.drop b = (bs.drop a).drop (b - a) := by
    rw [List.drop_drop]
    congr 1
    omega
  rw [field, field, field, hdrop, hlen, List.take_add]

theorem field_length {bs : List UInt8} {a b : Nat} (hb : b ≤ bs.length) :
    (field bs a b).length = b - a := by
  rw [field, List.length_take, List.length_drop]
  omega

theorem field_byte {bs : List UInt8} {i : Nat} (hi : i < bs.length) :
    field bs i (i + 1) = [byteAt bs i] := by
  rw [field, byteAt, Nat.add_sub_cancel_left, List.take_one, List.head?_drop,
    List.getElem?_eq_getElem hi]
  rfl

theorem octetsAt_toList {bs : List UInt8} {i : Nat} (hi : i + 4 ≤ bs.length) :
    (octetsAt bs i).toList = field bs i (i + 4) := by
  rw [← field_append_field (show i ≤ i + 1 by omega) (show i + 1 ≤ i + 4 by omega),
    ← field_append_field (show i + 1 ≤ i + 2 by omega) (show i + 2 ≤ i + 4 by omega),
    ← field_append_field (show i + 2 ≤ i + 3 by omega) (show i + 3 ≤ i + 4 by omega),
    field_byte (by omega), field_byte (by omega), field_byte (by omega), field_byte (by omega)]
  rfl

set_option maxRecDepth 4096 in
/-- A byte whose upper bits are zero is what `encode` writes for its low bit. -/
theorem stored_flag_of_fin : ∀ n : Fin 256, UInt8.ofNat n.val &&& 0xFE = 0 →
    (if UInt8.ofNat n.val &&& 0x01 ≠ 0 then (0x01 : UInt8) else 0) = UInt8.ofNat n.val := by
  decide

theorem stored_flag {b : UInt8} (h : b &&& 0xFE = 0) :
    (if b &&& 0x01 ≠ 0 then (0x01 : UInt8) else 0) = b := by
  have hbyte := stored_flag_of_fin ⟨b.toNat, b.toNat_lt⟩
  rw [UInt8.ofNat_toNat] at hbyte
  exact hbyte h

theorem reserved_bytes {bs : List UInt8} (hlen : 56 ≤ bs.length)
    (h : ∀ i, 40 ≤ i → i < 56 → byteAt bs i = 0) : field bs 40 56 = List.replicate 16 0 := by
  refine List.eq_replicate_iff.mpr ⟨field_length hlen, ?_⟩
  intro b hb
  obtain ⟨j, hj, rfl⟩ := List.getElem_of_mem hb
  have hlt : j < 16 := by
    rw [field_length hlen] at hj
    exact hj
  have hzero := h (40 + j) (by omega) (by omega)
  rw [byteAt, List.getElem?_eq_getElem (by omega)] at hzero
  simp only [field, List.getElem_take, List.getElem_drop]
  exact hzero

variable {crc32}

theorem frame_recordAt_lead {bs : List UInt8} (h : Accepts crc32 bs) :
    (recordAt bs).lead = field bs 0 4 := by
  obtain ⟨hheader, hmagic, hversion, -, -⟩ := h
  have hw : walHeaderSize = 64 := rfl
  have hflags : (recordAt bs).tcpFlags = byteAt bs 3 := rfl
  rw [lead, ← hmagic, writeU16_readU16 (field_length (by omega)), ← hversion, hflags,
    ← field_byte (by omega), ← field_byte (by omega), field_append_field (by omega) (by omega),
    field_append_field (by omega) (by omega)]

/-- The fields of an accepted record whose reserved bytes are zero, written back. -/
theorem frame_recordAt_fields {bs : List UInt8} (h : Accepts crc32 bs) (hzero : ReservedZero bs) :
    (recordAt bs).fields = field bs 8 64 := by
  obtain ⟨hheader, -, -, htotal, -⟩ := h
  have hw : walHeaderSize = 64 := rfl
  have hflag : [if (recordAt bs).flags &&& flagDegraded ≠ 0 then (0x01 : UInt8) else 0] =
      field bs 39 40 := by
    have hbit : (recordAt bs).flags &&& flagDegraded ≠ 0 ↔ byteAt bs 39 &&& 0x01 ≠ 0 :=
      flagsOf_and_degraded _ _
    rw [field_byte (by omega)]
    simp only [hbit, stored_flag hzero.1]
  have hproto : [(recordAt bs).proto.toUInt8] = field bs 28 29 := by
    rw [field_byte (by omega)]
    exact congrArg (fun b => [b]) (UInt8.toUInt8_toUInt16 (byteAt bs 28))
  have hlength : writeU32 (UInt32.ofNat (recordAt bs).payload.length) = field bs 56 60 := by
    have hpayload : (recordAt bs).payload.length = payloadLenAt bs := by
      have hcut : (recordAt bs).payload.length = totalAt bs - walHeaderSize := field_length htotal
      rw [hcut, totalAt, Nat.add_sub_cancel_left]
    rw [hpayload, payloadLenAt, UInt32.ofNat_toNat, writeU32_readU32 (field_length (by omega))]
  have htime : writeU64 (recordAt bs).timestampNs = field bs 8 16 :=
    writeU64_readU64 (field_length (by omega))
  have hsrc : (recordAt bs).srcIp.toList = field bs 16 20 := octetsAt_toList (by omega)
  have hdst : (recordAt bs).dstIp.toList = field bs 20 24 := octetsAt_toList (by omega)
  have hsport : writeU16 (recordAt bs).srcPort = field bs 24 26 :=
    writeU16_readU16 (field_length (by omega))
  have hdport : writeU16 (recordAt bs).dstPort = field bs 26 28 :=
    writeU16_readU16 (field_length (by omega))
  have hseq : writeU32 (recordAt bs).tcpSeq = field bs 29 33 :=
    writeU32_readU32 (field_length (by omega))
  have hack : writeU32 (recordAt bs).tcpAck = field bs 33 37 :=
    writeU32_readU32 (field_length (by omega))
  have hwindow : writeU16 (recordAt bs).windowSize = field bs 37 39 :=
    writeU16_readU16 (field_length (by omega))
  have horig : writeU32 (recordAt bs).origPayloadLen = field bs 60 64 :=
    writeU32_readU32 (field_length (by omega))
  have hjoin {a b c : Nat} (hab : a ≤ b) (hbc : b ≤ c) :
      field bs a b ++ field bs b c = field bs a c :=
    field_append_field hab hbc
  unfold fields
  rw [hflag, hproto, hlength, htime, hsrc, hdst, hsport, hdport, hseq, hack, hwindow, horig,
    ← reserved_bytes (by omega) hzero.2]
  rw [hjoin (by omega) (by omega), hjoin (by omega) (by omega), hjoin (by omega) (by omega),
    hjoin (by omega) (by omega), hjoin (by omega) (by omega), hjoin (by omega) (by omega),
    hjoin (by omega) (by omega), hjoin (by omega) (by omega), hjoin (by omega) (by omega),
    hjoin (by omega) (by omega), hjoin (by omega) (by omega), hjoin (by omega) (by omega)]

/-- **Encoding gives back the bytes a record was read from**, its checksum included. -/
theorem frame_recordAt {bs : List UInt8} (h : Accepts crc32 bs) (hzero : ReservedZero bs) :
    (recordAt bs).frame crc32 = bs.take (totalAt bs) := by
  have hlead := frame_recordAt_lead h
  have hfields := frame_recordAt_fields h hzero
  obtain ⟨hheader, -, -, htotal, hcrc⟩ := h
  have hw : walHeaderSize = 64 := rfl
  have h64 : 64 ≤ totalAt bs := Nat.le_add_right _ _
  have hpayload : (recordAt bs).payload = field bs 64 (totalAt bs) := rfl
  have hbody : (recordAt bs).fields ++ (recordAt bs).payload = field bs 8 (totalAt bs) := by
    rw [hfields, hpayload, field_append_field (by omega) h64]
  have hchecksum : writeU32 ((recordAt bs).checksum crc32) = field bs 4 8 := by
    rw [checksum, hlead, hbody, hcrc, writeU32_readU32 (field_length (by omega))]
  rw [frame, hlead, hchecksum, hbody, field_append_field (by omega) (by omega),
    field_append_field (by omega) (by omega)]
  rfl

/-- A record takes as many bytes of the stream as its header announces. -/
theorem framer_sized : (framer crc32).Sized size := by
  intro bs r n hread
  obtain ⟨haccept, rfl, rfl⟩ := (readFrame_eq_some crc32).mp hread
  have hpayload : (recordAt bs).payload.length = totalAt bs - walHeaderSize :=
    field_length haccept.2.2.2.1
  rw [size, hpayload, totalAt, Nat.add_sub_cancel_left]

theorem framer_frame {bs : List UInt8} {r : WalRecord} {n : Nat}
    (hread : (framer crc32).read bs = some (r, n)) (hzero : ReservedZero bs) :
    r.frame crc32 = bs.take n := by
  obtain ⟨haccept, rfl, rfl⟩ := (readFrame_eq_some crc32).mp hread
  exact frame_recordAt haccept hzero

/-- **Decoding is total and loses nothing.**  On any bytes `decode_stream` returns.  Its
records lie one behind the other from the start on, where `try_decode` accepts them;
they and the residual account for every byte, and at the first residual byte
`try_decode` fails.  Where the reserved bytes of the records are zero, encoding them
gives back everything but the residual. -/
theorem decodeStream_lossless (crc32 : List UInt8 → UInt32) (b : List UInt8) :
    ∃ records residual, decodeStream crc32 b = .ok (records, residual) ∧
      (∀ k (hk : k < records.length),
        tryDecode crc32 b (Framer.offset size (records.take k)) =
          .ok (some (records[k], Framer.offset size (records.take (k + 1))))) ∧
      (records.map fun r => walHeaderSize + r.payload.length).sum + residual = b.length ∧
      tryDecode crc32 b (b.length - residual) = .ok none ∧
      ((∀ k, k < records.length → ReservedZero (b.drop (Framer.offset size (records.take k)))) →
        encodeAll crc32 records [] = .ok (b.take (b.length - residual))) := by
  have hsized : (framer crc32).Sized size := framer_sized
  refine ⟨((framer crc32).decode b).1, ((framer crc32).decode b).2, decodeStream_eq crc32 b,
    ?_, ?_, ?_, ?_⟩
  · intro k hk
    have hread := hsized.read_offset b k hk
    have hle := hsized.offset_take_le b k
    rw [tryDecode_eq crc32 b hle, ← framer_read, hread, Option.map_some,
      Framer.offset_take_succ size hk]
  · exact hsized.offset_decode b
  · have hstop := (framer crc32).read_residual b
    rw [tryDecode_eq crc32 b (Nat.sub_le _ _), ← framer_read, ← Framer.residual, hstop]
    rfl
  · intro hzero
    rw [encodeAll_eq, List.nil_append]
    congr 1
    apply hsized.flatMap_decode b
    intro k hk
    exact framer_frame (hsized.read_offset b k hk) (hzero k hk)

end WalRecord
end SovProbe
