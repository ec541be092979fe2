import SovProbe.WalStream

/-! # The records that are whole

Of a log that is cut off somewhere the records can be read that lie whole before the cut
(`wholeRecords`).  Since no encoding is shorter than a header, few bytes behind the cut are
few records (`length_le_wholeRecords`).
-/

namespace SovProbe.WalRecord
variable {crc32 : List UInt8 → UInt32} {rs : List WalRecord} {k : Nat}

/-- The records of `rs` that lie whole within the first `k` bytes of its encoding. -/
def wholeRecords (crc32 : List UInt8 → UInt32) (rs : List WalRecord) (k : Nat) : Nat :=
  Framer.wholeWithin (frame crc32) rs k

theorem wholeRecords_le : wholeRecords crc32 rs k ≤ rs.length := Framer.wholeWithin_le rs k

theorem le_wholeRecords_iff {i : Nat} (hi : i ≤ rs.length) :
    i ≤ wholeRecords crc32 rs k ↔ (encoding crc32 (rs.take i)).length ≤ k := by
  have hpos : ∀ r : WalRecord, 0 < (r.frame crc32).length := by
    intro r
    rw [frame_length]
    exact Nat.lt_of_lt_of_le (by decide) (Nat.le_add_right _ _)
  exact Framer.le_wholeWithin_iff hpos rs k i hi

/-- It is the greatest number of records that fit. -/
theorem isGreatest_wholeRecords : IsGreatest {i | i ≤ rs.length ∧
    (encoding crc32 (rs.take i)).length ≤ k} (wholeRecords crc32 rs k) := by
  refine ⟨⟨wholeRecords_le, ?_⟩, fun i hi => (le_wholeRecords_iff hi.1).mpr hi.2⟩
  exact (le_wholeRecords_iff wholeRecords_le).mp (Nat.le_refl _)

/-- All records are whole exactly when all of the encoding is there. -/
theorem wholeRecords_eq_length_iff (hk : k ≤ (encoding crc32 rs).length) :
    wholeRecords crc32 rs k = rs.length ↔ k = (encoding crc32 rs).length := by
  have hall : rs.length ≤ wholeRecords crc32 rs k ↔
      (encoding crc32 (rs.take rs.length)).length ≤ k := le_wholeRecords_iff (Nat.le_refl _)
  rw [List.take_length] at hall
  have hle : wholeRecords crc32 rs k ≤ rs.length := wholeRecords_le
  omega

/-- What the beginning of an encoding decodes to. -/
theorem decode_encoding_take (h : ∀ r ∈ rs, r.Encodable) (hk : k ≤ (encoding crc32 rs).length) :
    ((framer crc32).decode ((encoding crc32 rs).take k)).1.length = wholeRecords crc32 rs k ∧
      ((framer crc32).decode ((encoding crc32 rs).take k)).2 =
        k - (encoding crc32 (rs.take (wholeRecords crc32 rs k))).length := by
  have hdecode := decodeStream_encoding_take h hk
  rw [decodeStream_eq] at hdecode
  rw [Except.ok.inj hdecode, List.length_map, List.length_take]
  exact ⟨Nat.min_eq_left wholeRecords_le, rfl⟩

/-- No encoding is shorter than a header. -/
theorem length_encoding_ge (crc32 : List UInt8 → UInt32) (rs : List WalRecord) :
    walHeaderSize * rs.length ≤ (encoding crc32 rs).length := by
  induction rs with
  | nil => exact Nat.le_refl _
  | cons r rs ih =>
    rw [encoding_cons, List.length_append, frame_length, List.length_cons, Nat.mul_succ]
    omega

/-- **How many records a cut loses**: of `rs`, no more than there are headers in what is behind
the cut, whatever follows. -/
theorem length_le_wholeRecords {more : List WalRecord} {n : Nat}
    (hk : (encoding crc32 rs).length ≤ k + walHeaderSize * n) :
    rs.length ≤ wholeRecords crc32 (rs ++ more) k + n := by
  by_contra hlost
  -- the first record that is not whole is one of `rs`
  have hj : wholeRecords crc32 (rs ++ more) k + 1 ≤ rs.length := by omega
  have hcut : ¬ (encoding crc32 (rs.take (wholeRecords crc32 (rs ++ more) k + 1))).length ≤ k := by
    have hwithin : wholeRecords crc32 (rs ++ more) k + 1 ≤ (rs ++ more).length := by
      rw [List.length_append]
      omega
    have htake : (rs ++ more).take (wholeRecords crc32 (rs ++ more) k + 1) =
        rs.take (wholeRecords crc32 (rs ++ more) k + 1) := List.take_append_of_le_length hj
    rw [← htake, ← le_wholeRecords_iff hwithin]
    exact Nat.not_succ_le_self _
  have hsplit : (encoding crc32 rs).length =
      (encoding crc32 (rs.take (wholeRecords crc32 (rs ++ more) k + 1))).length +
        (encoding crc32 (rs.drop (wholeRecords crc32 (rs ++ more) k + 1))).length := by
    rw [← List.length_append, ← encoding_append, List.take_append_drop]
  have hrest := length_encoding_ge crc32 (rs.drop (wholeRecords crc32 (rs ++ more) k + 1))
  rw [List.length_drop] at hrest
  have hmany : walHeaderSize * n ≤
      walHeaderSize * (rs.length - (wholeRecords crc32 (rs ++ more) k + 1)) :=
    Nat.mul_le_mul_left _ (by omega)
  omega

end SovProbe.WalRecord
