import SovProbe.WalStream

/-! # Corrupted streams

With the IEEE CRC-32 as the checksum, a change of up to four consecutive bytes of
a record anywhere but in its length field makes the decoder stop in front of that
record: the records before it are returned, and everything from it on is the
residual.

A record is three blocks, the lead, the checksum and the body (`frame`).  The
change lies in one of them; in the lead or the body it is a burst of the string the
checksum covers, in the checksum it changes the value that string is compared
with.
-/

namespace SovProbe
open BigEndian Checked

namespace WalRecord

/-- Where a damaged window of `n` bytes from byte `a` of a record of `len` bytes may
lie: in the lead, in the checksum, in the header behind it up to the length field,
or from behind the length field to the end. -/
def DamageRegion (len a n : Nat) : Prop :=
  a + n ≤ 4 ∨ (4 ≤ a ∧ a + n ≤ 8) ∨ (8 ≤ a ∧ a + n ≤ 56) ∨ (60 ≤ a ∧ a + n ≤ len)

/-! ## Replacing a window -/

section Window
variable {α : Type}

/-- A block as what precedes a window of it, the window and what follows. -/
theorem split_window {block : List α} {a n : Nat} (h : a + n ≤ block.length) :
    ∃ x w y, block = x ++ w ++ y ∧ x.length = a ∧ w.length = n := by
  refine ⟨block.take a, (block.drop a).take n, block.drop (a + n), ?_, ?_, ?_⟩
  · rw [List.append_assoc, ← List.drop_drop, List.take_append_drop, List.take_append_drop]
  · rw [List.length_take]
    omega
  · rw [List.length_take, List.length_drop]
    omega

/-- A string that agrees with `x ++ w ++ y` outside the window `w` replaces the window. -/
theorem exists_replacement {x w y E' : List α} (hlen : E'.length = (x ++ w ++ y).length)
    (hout : ∀ j, j < x.length ∨ x.length + w.length ≤ j → E'[j]? = (x ++ w ++ y)[j]?) :
    ∃ w', w'.length = w.length ∧ E' = x ++ w' ++ y := by
  have hlen' : E'.length = x.length + w.length + y.length := by
    rw [hlen, List.length_append, List.length_append]
  have hw' : ((E'.drop x.length).take w.length).length = w.length := by
    rw [List.length_take, List.length_drop]
    omega
  refine ⟨(E'.drop x.length).take w.length, hw', ?_⟩
  apply List.ext_getElem?
  intro j
  rcases Nat.lt_or_ge j x.length with hj | hj
  · rw [hout j (Or.inl hj), List.append_assoc, List.append_assoc, List.getElem?_append_left hj,
      List.getElem?_append_left hj]
  rcases Nat.lt_or_ge j (x.length + w.length) with hjw | hjw
  · rw [List.append_assoc, List.getElem?_append_right hj, List.getElem?_append_left (by omega),
      List.getElem?_take_of_lt (by omega), List.getElem?_drop, Nat.add_sub_cancel' hj]
  · rw [hout j (Or.inr hjw), List.getElem?_append_right (by rw [List.length_append]; exact hjw),
      List.getElem?_append_right (by rw [List.length_append, hw']; exact hjw), List.length_append,
      List.length_append, hw']

end Window

/-- Replacing a window does not change a field that the window does not meet. -/
theorem field_replace {x w w' y : List UInt8} (hlen : w'.length = w.length) {a b : Nat}
    (hout : b ≤ x.length ∨ x.length + w.length ≤ a) :
    field (x ++ w' ++ y) a b = field (x ++ w ++ y) a b := by
  rcases hout with hb | ha
  · rw [List.append_assoc, List.append_assoc, field_append_left hb, field_append_left hb]
  · rw [field_skip (List.length_append.trans (by rw [hlen])) ha,
      field_skip List.length_append ha]

/-! ## Refusing a damaged record -/

variable {crc32 : List UInt8 → UInt32}

/-- Three blocks that announce their own length but whose checksum does not fit are
refused. -/
theorem readFrame_refuses {front crc body t : List UInt8} (hfront : front.length = 4)
    (hcrc : crc.length = 4) {n : Nat} (hbody : body.length = 56 + n)
    (hannounced : (readU32 (field body 48 52)).toNat = n)
    (hbad : crc32 (front ++ body) ≠ readU32 crc) :
    readFrame crc32 (front ++ (crc ++ (body ++ t))) = none := by
  have htotal : totalAt (front ++ (crc ++ (body ++ t))) = 64 + n := by
    have hlenField : field (front ++ (crc ++ (body ++ t))) 56 60 = field body 48 52 := by
      rw [field_skip hfront (by omega), field_skip hcrc (by omega), field_append_left (by omega)]
    rw [totalAt, payloadLenAt, hlenField, hannounced]
    rfl
  refine if_neg fun haccept => hbad ?_
  have hcheck := haccept.2.2.2.2
  rw [htotal, field_head hfront, field_skip hfront (by omega), field_skip hcrc (by omega),
    field_skip hfront (by omega), field_head (by omega), field_head (by omega)] at hcheck
  exact hcheck

/-- The body of a record, all that follows its checksum. -/
def body (r : WalRecord) : List UInt8 := r.fields ++ r.payload

theorem body_length (r : WalRecord) : r.body.length = 56 + r.payload.length := by
  rw [body, List.length_append, fields_length]

theorem body_announces {r : WalRecord} (h : r.Encodable) :
    (readU32 (field r.body 48 52)).toNat = r.payload.length := by
  have hwhole : payloadLenAt (r.frame Crc.ieee ++ []) = _ := payloadLenAt_frame h []
  rw [List.append_nil, frame, payloadLenAt, field_skip r.lead_length (by omega),
    field_skip (writeU32_length _) (by omega)] at hwhole
  exact hwhole

/-- **A burst in the lead is refused.** -/
theorem lead_burst_refused {r : WalRecord} (h : r.Encodable) {x w w' y : List UInt8}
    (hlead : r.lead = x ++ w ++ y) (hlen : w'.length = w.length) (hfour : w.length ≤ 4)
    (hne : w' ≠ w) (t : List UInt8) :
    readFrame Crc.ieee ((x ++ w' ++ y) ++ (writeU32 (r.checksum Crc.ieee) ++ (r.body ++ t))) =
      none := by
  have hfront : (x ++ w' ++ y).length = 4 := by
    rw [← r.lead_length, hlead]
    simp [hlen]
  refine readFrame_refuses hfront (writeU32_length _) r.body_length (body_announces h) ?_
  rw [readU32_writeU32, checksum, ← body, hlead]
  have hburst := Crc.ieee_ne_of_burst x (y ++ r.body) hlen (by omega) hne
  simpa only [List.append_assoc] using hburst

/-- **A changed checksum is refused.** -/
theorem checksum_change_refused {r : WalRecord} (h : r.Encodable) {crc : List UInt8}
    (hlen : crc.length = 4) (hne : crc ≠ writeU32 (r.checksum Crc.ieee)) (t : List UInt8) :
    readFrame Crc.ieee (r.lead ++ (crc ++ (r.body ++ t))) = none := by
  refine readFrame_refuses r.lead_length hlen r.body_length (body_announces h) fun heq => hne ?_
  have hvalue : readU32 crc = r.checksum Crc.ieee := heq.symm
  rw [← hvalue, writeU32, readU32, UInt32.toNat_ofNat', ← hlen,
    Nat.mod_eq_of_lt (by have := value_lt crc; rw [hlen] at this; exact this), bytes_value]

/-- **A burst in the body that leaves the length field alone is refused.** -/
theorem body_burst_refused {r : WalRecord} (h : r.Encodable) {x w w' y : List UInt8}
    (hbody : r.body = x ++ w ++ y) (hlen : w'.length = w.length) (hfour : w.length ≤ 4)
    (hne : w' ≠ w) (hout : 52 ≤ x.length ∨ x.length + w.length ≤ 48) (t : List UInt8) :
    readFrame Crc.ieee
      (r.lead ++ (writeU32 (r.checksum Crc.ieee) ++ ((x ++ w' ++ y) ++ t))) = none := by
  have hlength : (x ++ w' ++ y).length = 56 + r.payload.length := by
    rw [← r.body_length, hbody]
    simp [hlen]
  have hannounced : (readU32 (field (x ++ w' ++ y) 48 52)).toNat = r.payload.length := by
    rw [field_replace hlen hout, ← hbody, body_announces h]
  refine readFrame_refuses r.lead_length (writeU32_length _) hlength hannounced ?_
  rw [readU32_writeU32, checksum, ← body, hbody]
  have hburst := Crc.ieee_ne_of_burst (r.lead ++ x) y hlen (by omega) hne
  simpa only [List.append_assoc] using hburst

/-- A change in the allowed region of a record is refused, whatever follows it. -/
theorem damaged_refused {r : WalRecord} (h : r.Encodable) {a n : Nat} (hn : n ≤ 4)
    (hregion : DamageRegion (r.frame Crc.ieee).length a n) (pre t E' : List UInt8)
    (hlen : E'.length = (pre ++ (r.frame Crc.ieee ++ t)).length)
    (hne : E' ≠ pre ++ (r.frame Crc.ieee ++ t))
    (hout : ∀ j, j < pre.length + a ∨ pre.length + a + n ≤ j →
      E'[j]? = (pre ++ (r.frame Crc.ieee ++ t))[j]?) :
    ∃ bad, E' = pre ++ bad ∧ readFrame Crc.ieee bad = none := by
  have hframe : r.frame Crc.ieee = r.lead ++ (writeU32 (r.checksum Crc.ieee) ++ r.body) := rfl
  -- in every region: split the block, replace the window, put the blocks together again
  have key : ∀ {x w y : List UInt8}, pre ++ (r.frame Crc.ieee ++ t) = (pre ++ x) ++ w ++ y →
      x.length = a → w.length = n →
      ∃ w', w'.length = w.length ∧ w' ≠ w ∧ E' = (pre ++ x) ++ w' ++ y := by
    intro x w y hsplit hx hw
    rw [hsplit] at hlen hne hout
    have hpx : (pre ++ x).length = pre.length + a := by rw [List.length_append, hx]
    obtain ⟨w', hw', hE'⟩ := exists_replacement hlen (by rw [hpx, hw]; exact hout)
    exact ⟨w', hw', fun heq => hne (hE'.trans (by rw [heq])), hE'⟩
  rcases hregion with hlead | ⟨hlo, hhi⟩ | hbody
  · obtain ⟨x, w, y, hsplit, hx, hw⟩ :
        ∃ x w y, r.lead = x ++ w ++ y ∧ x.length = a ∧ w.length = n :=
      split_window (by rw [lead_length]; exact hlead)
    have hwhole : pre ++ (r.frame Crc.ieee ++ t) =
        (pre ++ x) ++ w ++ (y ++ (writeU32 (r.checksum Crc.ieee) ++ (r.body ++ t))) := by
      rw [hframe, hsplit]
      simp only [List.append_assoc]
    obtain ⟨w', hw', hne', hE'⟩ := key hwhole hx hw
    refine ⟨_, ?_, lead_burst_refused h hsplit hw' (by omega) hne' t⟩
    rw [hE']
    simp only [List.append_assoc]
  · obtain ⟨x, w, y, hsplit, hx, hw⟩ : ∃ x w y, writeU32 (r.checksum Crc.ieee) = x ++ w ++ y ∧
        x.length = a - 4 ∧ w.length = n := split_window (by rw [writeU32_length]; omega)
    have hwhole : pre ++ (r.frame Crc.ieee ++ t) =
        (pre ++ (r.lead ++ x)) ++ w ++ (y ++ (r.body ++ t)) := by
      rw [hframe, hsplit]
      simp only [List.append_assoc]
    have hlead : (r.lead ++ x).length = a := by
      rw [List.length_append, lead_length]
      omega
    obtain ⟨w', hw', hne', hE'⟩ := key hwhole hlead hw
    have hcrc : (x ++ w' ++ y).length = 4 := by
      rw [← writeU32_length (r.checksum Crc.ieee), hsplit]
      simp [hw']
    have hchanged : x ++ w' ++ y ≠ writeU32 (r.checksum Crc.ieee) := by
      rw [hsplit]
      intro heq
      exact hne' (List.append_cancel_left (List.append_cancel_right heq))
    refine ⟨_, ?_, checksum_change_refused h hcrc hchanged t⟩
    rw [hE']
    simp only [List.append_assoc]
  · have hinside : a - 8 + n ≤ r.body.length := by
      have hlength : (r.frame Crc.ieee).length = 64 + r.payload.length := frame_length Crc.ieee r
      rw [body_length]
      omega
    obtain ⟨x, w, y, hsplit, hx, hw⟩ : ∃ x w y, r.body = x ++ w ++ y ∧ x.length = a - 8 ∧
        w.length = n := split_window hinside
    have hwhole : pre ++ (r.frame Crc.ieee ++ t) =
        (pre ++ (r.lead ++ (writeU32 (r.checksum Crc.ieee) ++ x))) ++ w ++ (y ++ t) := by
      rw [hframe, hsplit]
      simp only [List.append_assoc]
    have hlead : (r.lead ++ (writeU32 (r.checksum Crc.ieee) ++ x)).length = a := by
      rw [List.length_append, List.length_append, lead_length, writeU32_length]
      omega
    obtain ⟨w', hw', hne', hE'⟩ := key hwhole hlead hw
    refine ⟨_, ?_, body_burst_refused h hsplit hw' (by omega) hne' (by omega) t⟩
    rw [hE']
    simp only [List.append_assoc]

/-- **Corruption never yields a wrong record.**  Change a stream of records inside a
window of one to four bytes of record `i`, anywhere but in its length field: exactly
the records before it are returned, and the residual is all the rest. -/
theorem decodeStream_corrupt {rs : List WalRecord} (h : ∀ r ∈ rs, r.Encodable) :
    encodeAll Crc.ieee rs [] = .ok (encoding Crc.ieee rs) ∧
      ∀ (i : Nat) (hi : i < rs.length) (a n : Nat), 1 ≤ n → n ≤ 4 →
        DamageRegion (rs[i].frame Crc.ieee).length a n →
        ∀ E', E'.length = (encoding Crc.ieee rs).length → E' ≠ encoding Crc.ieee rs →
          (∀ j, j < (encoding Crc.ieee (rs.take i)).length + a ∨
            (encoding Crc.ieee (rs.take i)).length + a + n ≤ j →
              E'[j]? = (encoding Crc.ieee rs)[j]?) →
          decodeStream Crc.ieee E' =
            .ok ((rs.take i).map normalised,
              (encoding Crc.ieee rs).length - (encoding Crc.ieee (rs.take i)).length) := by
  refine ⟨encodeAll_eq Crc.ieee rs [], ?_⟩
  intro i hi a n _ hfour hregion E' hlen hne hout
  have hsplit : encoding Crc.ieee rs = encoding Crc.ieee (rs.take i) ++
      (rs[i].frame Crc.ieee ++ encoding Crc.ieee (rs.drop (i + 1))) := by
    rw [← encoding_cons, ← encoding_append, List.getElem_cons_drop, List.take_append_drop]
  rw [hsplit] at hlen hne hout
  obtain ⟨bad, hE', hrefused⟩ := damaged_refused (h rs[i] (List.getElem_mem hi)) hfour hregion
    (encoding Crc.ieee (rs.take i)) (encoding Crc.ieee (rs.drop (i + 1))) E' hlen hne hout
  have hreads : ∀ r ∈ rs.take i, (framer Crc.ieee).Reads (frame Crc.ieee) normalised r :=
    fun r hr => framer_reads (h r (List.mem_of_mem_take hr))
  rw [hE', List.length_append, List.length_append] at hlen
  rw [decodeStream_eq, hE', encoding, (framer Crc.ieee).decode_flatMap_refused hreads hrefused,
    ← encoding, hsplit, List.length_append]
  congr 2
  omega

/-- The first payload byte of the second of two records is cleared. -/
theorem decodeStream_corrupt_sample :
    decodeStream Crc.ieee ((encoding Crc.ieee [sampleRecord, sampleRecord]).set 145 0) =
      .ok ([sampleRecord.normalised], 81) := by
  have h : ∀ r ∈ [sampleRecord, sampleRecord], r.Encodable := by
    intro r hr
    simp only [List.mem_cons, List.not_mem_nil, or_false, or_self] at hr
    exact hr ▸ sampleRecord_encodable
  have hrecord : (sampleRecord.frame Crc.ieee).length = 81 := frame_length Crc.ieee sampleRecord
  have hfirst : (encoding Crc.ieee ([sampleRecord, sampleRecord].take 1)).length = 81 := hrecord
  have hboth : (encoding Crc.ieee [sampleRecord, sampleRecord]).length = 162 := by
    rw [encoding_cons, List.length_append, hrecord]
    exact congrArg (81 + ·) hrecord
  have hbyte : (encoding Crc.ieee [sampleRecord, sampleRecord])[145]? = some 71 := by
    decide +kernel
  have hchanged : (encoding Crc.ieee [sampleRecord, sampleRecord]).set 145 0 ≠
      encoding Crc.ieee [sampleRecord, sampleRecord] := by
    intro heq
    have hzero : ((encoding Crc.ieee [sampleRecord, sampleRecord]).set 145 0)[145]? = some 0 :=
      List.getElem?_set_self (by omega)
    rw [heq, hbyte] at hzero
    exact absurd hzero (by decide)
  have hdecode := (decodeStream_corrupt h).2 1 (by decide) 64 1 (by decide) (by decide)
    (Or.inr (Or.inr (Or.inr ⟨by decide, by
      rw [show [sampleRecord, sampleRecord][1] = sampleRecord from rfl, hrecord]
      decide⟩))) _ (by rw [List.length_set]) hchanged (by
      intro j hj
      rw [hfirst] at hj
      exact List.getElem?_set_ne (by omega))
  rw [hfirst, hboth] at hdecode
  exact hdecode

end WalRecord
end SovProbe
