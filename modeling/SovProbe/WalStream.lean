import SovProbe.WalLayout
import SovProbe.Crc

/-! # Streams of WAL records

`decode_stream` is the decoder of a stream of self-delimiting frames
(`decodeStream_eq`), so the general results about such streams apply to it: a
whole stream decodes to the records it was made of, and a torn one to the records
that are complete in it.  Neither depends on the checksum function.
-/

namespace SovProbe
open BigEndian Checked

namespace WalRecord
variable (crc32 : List UInt8 → UInt32)

/-- The record format as frames. -/
def framer : Framer UInt8 WalRecord where
  read := readFrame crc32
  read_pos := by
    intro bs a n h
    unfold readFrame at h
    split at h
    · obtain ⟨rfl, rfl⟩ := Prod.mk.inj (Option.some.inj h)
      exact Nat.lt_of_lt_of_le (by decide) (Nat.le_add_right walHeaderSize _)
    · cases h
  read_le := by
    intro bs a n h
    unfold readFrame at h
    split at h
    · rename_i haccept
      obtain ⟨rfl, rfl⟩ := Prod.mk.inj (Option.some.inj h)
      exact haccept.2.2.2.1
    · cases h

@[simp] theorem framer_read (bs : List UInt8) : (framer crc32).read bs = readFrame crc32 bs := rfl

/-- The loop from any position inside the buffer, with fuel for the bytes that are
left, collects the records of the rest of the buffer. -/
theorem decodeLoop_eq (buf : List UInt8) : ∀ (fuel : Nat) (records : List WalRecord) (pos : Nat),
    pos ≤ buf.length → buf.length - pos < fuel →
    decodeLoop crc32 buf fuel records pos =
      .ok (records ++ ((framer crc32).decode (buf.drop pos)).1,
        ((framer crc32).decode (buf.drop pos)).2)
  | 0, _, _, _, hfuel => absurd hfuel (Nat.not_lt_zero _)
  | fuel + 1, records, pos, hpos, hfuel => by
    have hlen : (buf.drop pos).length = buf.length - pos := List.length_drop
    rw [decodeLoop, tryDecode_eq crc32 buf hpos, ok_bind]
    cases hread : readFrame crc32 (buf.drop pos) with
    | none =>
      rw [(framer crc32).decode_of_refused hread, Option.map_none]
      simp only [sub_of_le hpos, ok_bind, pure_eq, List.append_nil, hlen]
    | some p =>
      obtain ⟨rec, n⟩ := p
      have hn : 0 < n := (framer crc32).read_pos hread
      have hle : n ≤ (buf.drop pos).length := (framer crc32).read_le hread
      rw [(framer crc32).decode_of_read hread, Option.map_some]
      simp only []
      rw [decodeLoop_eq buf fuel (records ++ [rec]) (pos + n) (by omega) (by omega),
        List.drop_drop, List.append_assoc]
      rfl

/-- **`decode_stream` never faults**; it decodes the frames of the buffer. -/
theorem decodeStream_eq (buf : List UInt8) :
    decodeStream crc32 buf = .ok ((framer crc32).decode buf) := by
  unfold decodeStream
  rw [decodeLoop_eq crc32 buf _ [] 0 (Nat.zero_le _) (by omega), List.drop_zero, List.nil_append]

/-- Records encoded one after another into the same vector. -/
def encodeAll (rs : List WalRecord) (out : List UInt8) : Checked (List UInt8) :=
  rs.foldlM (fun out r => r.encode crc32 out) out

/-- The concatenated encodings of records. -/
def encoding (rs : List WalRecord) : List UInt8 := rs.flatMap (frame crc32)

theorem encoding_cons (r : WalRecord) (rs : List WalRecord) :
    encoding crc32 (r :: rs) = r.frame crc32 ++ encoding crc32 rs := List.flatMap_cons

theorem encoding_append (rs ss : List WalRecord) :
    encoding crc32 (rs ++ ss) = encoding crc32 rs ++ encoding crc32 ss := List.flatMap_append

/-- `encode` appends: a list of records appends the concatenation of their frames. -/
theorem encodeAll_eq (rs : List WalRecord) (out : List UInt8) :
    encodeAll crc32 rs out = .ok (out ++ encoding crc32 rs) := by
  induction rs generalizing out with
  | nil => simp [encodeAll, encoding]
  | cons r rs ih =>
    have hstep : encodeAll crc32 (r :: rs) out = r.encode crc32 out >>= encodeAll crc32 rs :=
      List.foldlM_cons
    rw [hstep, encode_eq, ok_bind, ih, encoding_cons, List.append_assoc]

variable {crc32}

theorem framer_reads {r : WalRecord} (h : r.Encodable) :
    (framer crc32).Reads (frame crc32) normalised r := by
  intro t
  have htotal : totalAt (r.frame crc32 ++ t) = (r.frame crc32).length := by
    rw [totalAt, payloadLenAt_frame h, frame_length]
  rw [framer_read, readFrame, if_pos (accepts_frame h t), recordAt_frame h t, htotal]

/-- The header of a torn record still announces the whole of it. -/
theorem field_take {bs : List UInt8} {k a b : Nat} (hb : b ≤ k) :
    field (bs.take k) a b = field bs a b := by
  rw [field, field, List.drop_take, List.take_take]
  congr 1
  omega

theorem field_append_left {front : List UInt8} {a b : Nat} (hb : b ≤ front.length)
    (back : List UInt8) : field (front ++ back) a b = field front a b := by
  rw [← field_take hb, List.take_left]

/-- **No part of a record passes for one**, whatever the checksum function is. -/
theorem framer_unsplittable {r : WalRecord} (h : r.Encodable) :
    (framer crc32).Unsplittable (frame crc32) r := by
  intro k hk
  rw [framer_read, readFrame]
  refine if_neg fun haccept => ?_
  obtain ⟨hheader, -, -, htotal, -⟩ := haccept
  have hlen : ((r.frame crc32).take k).length = k := by
    rw [List.length_take, Nat.min_eq_left (Nat.le_of_lt hk)]
  rw [hlen] at hheader htotal
  have hw : walHeaderSize = 64 := rfl
  have hannounced : payloadLenAt ((r.frame crc32).take k) = r.payload.length := by
    have hwhole : payloadLenAt (r.frame crc32 ++ []) = _ := payloadLenAt_frame h []
    rw [List.append_nil] at hwhole
    rw [← hwhole, payloadLenAt, payloadLenAt, field_take (by omega)]
  rw [totalAt, hannounced] at htotal
  rw [frame_length] at hk
  omega

/-- A whole stream, with anything behind it. -/
theorem decode_encoding_append {rs : List WalRecord} (h : ∀ r ∈ rs, r.Encodable) (t : List UInt8) :
    (framer crc32).decode (encoding crc32 rs ++ t) =
      (rs.map normalised ++ ((framer crc32).decode t).1, ((framer crc32).decode t).2) :=
  (framer crc32).decode_flatMap_append (fun r hr => framer_reads (h r hr)) t

theorem decodeStream_encoding {rs : List WalRecord} (h : ∀ r ∈ rs, r.Encodable) :
    decodeStream crc32 (encoding crc32 rs) = .ok (rs.map normalised, 0) := by
  have hwhole : (framer crc32).decode (encoding crc32 rs ++ []) = _ := decode_encoding_append h []
  rw [List.append_nil] at hwhole
  rw [decodeStream_eq, hwhole, (framer crc32).decode_of_refused rfl, List.append_nil]
  rfl

/-- A torn stream. -/
theorem decodeStream_encoding_take {rs : List WalRecord} (h : ∀ r ∈ rs, r.Encodable) {k : Nat}
    (hk : k ≤ (encoding crc32 rs).length) :
    decodeStream crc32 ((encoding crc32 rs).take k) =
      .ok ((rs.take (Framer.wholeWithin (frame crc32) rs k)).map normalised,
        k - (encoding crc32 (rs.take (Framer.wholeWithin (frame crc32) rs k))).length) := by
  rw [decodeStream_eq, encoding, (framer crc32).decode_flatMap_take
    (fun r hr => framer_reads (h r hr)) (fun r hr => framer_unsplittable (h r hr)) k hk]
  rfl

/-! ## Whole streams -/

/-- **Decoding undoes encoding over whole streams.**  Encoding `rs` appends the same
bytes `E` to any vector, and `E` followed by any `t` decodes to the normalised `rs`
followed by whatever `t` decodes to. -/
theorem decodeStream_encodeAll (crc32 : List UInt8 → UInt32) {rs : List WalRecord}
    (h : ∀ r ∈ rs, r.Encodable) :
    ∃ E, (∀ out, encodeAll crc32 rs out = .ok (out ++ E)) ∧
      (∀ t, ∃ R n, decodeStream crc32 t = .ok (R, n) ∧
        decodeStream crc32 (E ++ t) = .ok (rs.map normalised ++ R, n)) ∧
      decodeStream crc32 E = .ok (rs.map normalised, 0) := by
  refine ⟨encoding crc32 rs, encodeAll_eq crc32 rs, fun t => ?_, decodeStream_encoding h⟩
  refine ⟨((framer crc32).decode t).1, ((framer crc32).decode t).2, decodeStream_eq crc32 t, ?_⟩
  rw [decodeStream_eq, decode_encoding_append h]

end WalRecord

/-- The record of the source's own tests. -/
def sampleRecord : WalRecord where
  timestampNs := 1700000000123
  flags := 0
  tcpFlags := 0x12
  tcpSeq := 0x1A2B3C4D
  tcpAck := 0x55667788
  windowSize := 4096
  srcIp := ⟨192, 168, 1, 10⟩
  dstIp := ⟨10, 0, 0, 1⟩
  srcPort := 12345
  dstPort := 443
  proto := 6
  origPayloadLen := 1000
  payload := "GET /api HTTP/1.1".toList.map fun c => UInt8.ofNat c.toNat

theorem sampleRecord_encodable : sampleRecord.Encodable := ⟨by decide, by decide⟩

/-- The same without a payload. -/
def emptyRecord : WalRecord := { sampleRecord with payload := [] }

theorem emptyRecord_encodable : emptyRecord.Encodable := ⟨by decide, by decide⟩

namespace WalRecord

theorem decodeStream_encodeAll_sample :
    ∃ E, encodeAll Crc.ieee [sampleRecord, sampleRecord] [] = .ok E ∧
      decodeStream Crc.ieee E =
        .ok ([sampleRecord.normalised, sampleRecord.normalised], 0) := by
  have h : ∀ r ∈ [sampleRecord, sampleRecord], r.Encodable := by
    intro r hr
    simp only [List.mem_cons, List.not_mem_nil, or_false, or_self] at hr
    exact hr ▸ sampleRecord_encodable
  obtain ⟨E, happend, -, hdecode⟩ := decodeStream_encodeAll Crc.ieee h
  exact ⟨E, happend [], hdecode⟩

/-! ## Torn streams -/

/-- **Torn writes lose nothing that is complete and invent nothing.**  Cut anywhere,
a stream decodes to the longest prefix of its records whose encodings end at or
before the cut, and the residual is the rest of the cut stream. -/
theorem decodeStream_torn (crc32 : List UInt8 → UInt32) {rs : List WalRecord}
    (h : ∀ r ∈ rs, r.Encodable) :
    encodeAll crc32 rs [] = .ok (encoding crc32 rs) ∧
      ∀ k, k ≤ (encoding crc32 rs).length →
        ∃ j, IsGreatest {i | i ≤ rs.length ∧ (encoding crc32 (rs.take i)).length ≤ k} j ∧
          decodeStream crc32 ((encoding crc32 rs).take k) =
            .ok ((rs.take j).map normalised, k - (encoding crc32 (rs.take j)).length) := by
  have hpos : ∀ r : WalRecord, 0 < (r.frame crc32).length := by
    intro r
    rw [frame_length]
    exact Nat.lt_of_lt_of_le (by decide) (Nat.le_add_right _ _)
  refine ⟨encodeAll_eq crc32 rs [], fun k hk => ?_⟩
  have hle : Framer.wholeWithin (frame crc32) rs k ≤ rs.length := Framer.wholeWithin_le rs k
  refine ⟨Framer.wholeWithin (frame crc32) rs k, ⟨⟨hle, ?_⟩, ?_⟩, ?_⟩
  · exact (Framer.le_wholeWithin_iff hpos rs k _ hle).mp (Nat.le_refl _)
  · intro i hi
    exact (Framer.le_wholeWithin_iff hpos rs k i hi.1).mpr hi.2
  · exact decodeStream_encoding_take h hk

/-- Three records, the last of them cut off within its header. -/
theorem decodeStream_torn_sample :
    decodeStream Crc.ieee
        ((encoding Crc.ieee [sampleRecord, emptyRecord, sampleRecord]).take 200) =
      .ok ([sampleRecord.normalised, emptyRecord.normalised], 55) := by
  have h : ∀ r ∈ [sampleRecord, emptyRecord, sampleRecord], r.Encodable := by
    intro r hr
    simp only [List.mem_cons, List.not_mem_nil, or_false] at hr
    rcases hr with rfl | rfl | rfl
    · exact sampleRecord_encodable
    · exact emptyRecord_encodable
    · exact sampleRecord_encodable
  have htwo : (encoding Crc.ieee [sampleRecord, emptyRecord]).length = 145 := by
    simp only [encoding, List.flatMap_cons, List.flatMap_nil, List.append_nil, List.length_append,
      frame_length]
    rfl
  have hall : (encoding Crc.ieee [sampleRecord, emptyRecord, sampleRecord]).length = 226 := by
    simp only [encoding, List.flatMap_cons, List.flatMap_nil, List.append_nil, List.length_append,
      frame_length]
    rfl
  obtain ⟨j, ⟨⟨hj, hfits⟩, hmost⟩, hdecode⟩ :=
    (decodeStream_torn Crc.ieee h).2 200 (by rw [hall]; decide)
  have htake : [sampleRecord, emptyRecord, sampleRecord].take 2 = [sampleRecord, emptyRecord] := rfl
  obtain rfl : j = 2 := by
    have hge : 2 ≤ j := hmost ⟨by decide, by rw [htake, htwo]; decide⟩
    by_contra hthree
    obtain rfl : j = 3 := Nat.le_antisymm hj (by omega)
    exact absurd (hall.symm.trans_le hfits) (by decide)
  rw [htake, htwo] at hdecode
  exact hdecode

end WalRecord
end SovProbe
