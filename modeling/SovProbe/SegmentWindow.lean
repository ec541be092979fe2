import SovProbe.NextSegment
import Mathlib.Algebra.Order.BigOperators.Group.Finset
import Mathlib.Order.Interval.Finset.Nat

/-! # The window of segments, and their size

A rotator that started in an empty directory keeps a window: the segments are those
with the `n` numbers from `min_no` on, and `seg_no` is the next.  Each call of
`next_segment` moves the upper end and, once the window is full, the lower end by
one.  Only names are made and removed by it, so that the bytes of the segments do not
grow.
-/

namespace SovProbe
open Process

/-! ## Bytes on the disk -/

/-- The number of bytes in the file of that name. -/
def fileSize (fs : FileSystem) (name : FileName) : Nat := ((fs.file? name).getD []).length

/-- The total size of the segment files. -/
def segmentBytes (fs : FileSystem) : Nat := ∑ name ∈ segments fs, fileSize fs name

variable {fs t : FileSystem} {r : Rotator} {name : FileName} {i size n k : Nat} {bytes : List UInt8}

theorem segmentBytes_le_card_mul (h : ∀ name ∈ segments fs, fileSize fs name ≤ size) :
    segmentBytes fs ≤ (segments fs).card * size :=
  Finset.sum_le_card_nsmul _ _ _ h

/-- What housekeeping leaves of a file. -/
theorem Housekeeping.file?_eq (h : Housekeeping fs t) (hname : name ≠ ledgerPath)
    (hmem : name ∈ t) : t.file? name = fs.file? name := by
  obtain ⟨i, hi⟩ := Option.isSome_iff_exists.mp (AList.lookup_isSome.mpr hmem)
  have hfs := h.lookup hname hi
  have hledger : fs.dir.lookup ledgerPath ≠ some i := by
    intro hl
    exact hname (fs.inode_inj hfs hl)
  rw [FileSystem.file?_of_lookup hi, FileSystem.file?_of_lookup hfs,
    h.content (fs.inode_lt hfs) hledger]

theorem Housekeeping.fileSize_eq (h : Housekeeping fs t) (hname : name ∈ segments t) :
    fileSize t name = fileSize fs name := by
  obtain ⟨hmem, hsegment⟩ := mem_segments.mp hname
  rw [fileSize, fileSize, h.file?_eq (ne_ledgerPath_of_isSegment hsegment) hmem]

theorem Housekeeping.fileSize_le (h : Housekeeping fs t) (hname : name ≠ ledgerPath) :
    fileSize t name ≤ fileSize fs name := by
  by_cases hmem : name ∈ t
  · rw [fileSize, fileSize, h.file?_eq hname hmem]
  · have hnone : t.dir.lookup name = none := AList.lookup_eq_none.mpr hmem
    rw [fileSize, FileSystem.file?, hnone]
    exact Nat.zero_le _

theorem fileSize_made : fileSize (r.made fs) r.wanted = 0 := by
  rw [fileSize, file?_made]
  rfl

theorem fileSize_made_ne (hname : name ≠ r.wanted) :
    fileSize (r.made fs) name = fileSize fs name := by
  rw [fileSize, fileSize, file?_made_ne hname]

/-- A new segment has no bytes. -/
theorem segmentBytes_made (hnew : r.wanted ∉ fs) : segmentBytes (r.made fs) = segmentBytes fs := by
  have hnot : r.wanted ∉ segments fs := fun h => hnew (mem_segments.mp h).1
  rw [segmentBytes, segments_made, Rotator.candidates, Finset.sum_insert hnot, fileSize_made,
    Nat.zero_add]
  refine Finset.sum_congr rfl fun name hname => fileSize_made_ne ?_
  rintro rfl
  exact hnot hname

/-- The bytes left by a sweep are those of the segments left. -/
theorem Swept.segmentBytes_eq (h : Swept fs r k t) :
    segmentBytes t = ∑ name ∈ sweep (segments fs) r.minNo.toNat k, fileSize fs name := by
  rw [segmentBytes, ← h.segments_eq]
  exact Finset.sum_congr rfl fun name hname => h.housekeeping.fileSize_eq hname

/-- **A call of `next_segment` adds no bytes.** -/
theorem Swept.segmentBytes_le (h : Swept (r.made fs) r.advanced k t) (hnew : r.wanted ∉ fs) :
    segmentBytes t ≤ segmentBytes fs := by
  rw [h.segmentBytes_eq, ← segmentBytes_made hnew]
  exact Finset.sum_le_sum_of_subset fun name hname => (mem_sweep.mp hname).1

/-- It takes none away when the only segment removed is empty. -/
theorem Swept.segmentBytes_eq_of_empty (h : Swept (r.made fs) r.advanced k t)
    (hnew : r.wanted ∉ fs) (hk : k ≤ 1)
    (hempty : fileSize (r.made fs) (segPath r.minNo.toNat) = 0) :
    segmentBytes t = segmentBytes fs := by
  rw [h.segmentBytes_eq, ← segmentBytes_made hnew, segmentBytes]
  refine Finset.sum_subset (fun name hname => (mem_sweep.mp hname).1) fun name hname hgone => ?_
  rw [mem_sweep, not_and] at hgone
  have hremoved := hgone hname
  simp only [not_forall, not_not] at hremoved
  obtain ⟨j, hj, rfl⟩ := hremoved
  obtain rfl : j = 0 := by omega
  rwa [Nat.add_zero, Nat.mod_eq_of_lt (UInt64.toNat_lt _)]

theorem fileSize_append (hi : fs.dir.lookup name = some i) :
    fileSize (fs.append i bytes) name = fileSize fs name + bytes.length := by
  rw [fileSize, fileSize, FileSystem.file?_append hi, FileSystem.file?_of_lookup hi,
    Option.getD_some, Option.getD_some, List.length_append]

theorem fileSize_append_ne {name' : FileName} (hi : fs.dir.lookup name = some i)
    (hne : name' ≠ name) : fileSize (fs.append i bytes) name' = fileSize fs name' := by
  rw [fileSize, fileSize, FileSystem.file?_append_ne hi hne]

/-- Bytes written to a segment are added to the total. -/
theorem segmentBytes_append (hi : fs.dir.lookup name = some i) (hname : name ∈ segments fs) :
    segmentBytes (fs.append i bytes) = segmentBytes fs + bytes.length := by
  have hsegments : segments (fs.append i bytes) = segments fs := segments_setContent _ _ _
  rw [segmentBytes, segmentBytes, hsegments, ← Finset.add_sum_erase _ _ hname,
    ← Finset.add_sum_erase _ _ hname, fileSize_append hi,
    Finset.sum_congr rfl fun name' h => fileSize_append_ne hi (Finset.ne_of_mem_erase h)]
  omega

/-! ## The window -/

/-- The `j`-th name from a number on. -/
def segAt (start j : Nat) : FileName := segPath ((start + j) % 2 ^ 64)

theorem segAt_inj {start j j' : Nat} (hj : j < 2 ^ 64) (hj' : j' < 2 ^ 64) :
    segAt start j = segAt start j' ↔ j = j' := by
  constructor
  · intro h
    have hmod := segPath_injective h
    omega
  · rintro rfl
    rfl

/-- The segments are the `n` from `min_no` on, and the next number is `seg_no`. -/
structure Window (fs : FileSystem) (r : Rotator) (n : Nat) : Prop where
  segments_eq : segments fs = (Finset.range n).image (segAt r.minNo.toNat)
  next : r.segNo = r.minNo + UInt64.ofNat n
  le : n ≤ r.maxSegments
  max_lt : r.maxSegments < 2 ^ 64

namespace Window

theorem wanted_eq (h : Window fs r n) : r.wanted = segAt r.minNo.toNat n := by
  have hle := h.le
  have hlt := h.max_lt
  have hn : n < 2 ^ 64 := by omega
  rw [Rotator.wanted, h.next, UInt64.toNat_add, UInt64.toNat_ofNat', Nat.mod_eq_of_lt hn]
  rfl

theorem candidates_eq (h : Window fs r n) :
    r.candidates fs = (Finset.range (n + 1)).image (segAt r.minNo.toNat) := by
  rw [Rotator.candidates, h.segments_eq, h.wanted_eq, Finset.range_add_one, Finset.image_insert]

theorem wanted_notMem (h : Window fs r n) : r.wanted ∉ fs := by
  have hle := h.le
  have hlt := h.max_lt
  intro hmem
  have hsegment : r.wanted ∈ segments fs := mem_segments.mpr ⟨hmem, isSegment_segPath _⟩
  rw [h.segments_eq, h.wanted_eq] at hsegment
  obtain ⟨j, hj, heq⟩ := Finset.mem_image.mp hsegment
  have hjn := Finset.mem_range.mp hj
  rw [segAt_inj (by omega) (by omega)] at heq
  omega

/-- The lower end of the window goes first. -/
theorem sweep_eq (h : Window fs r n) (k : Nat) :
    sweep (r.candidates fs) r.minNo.toNat k =
      (Finset.Ico k (n + 1)).image (segAt r.minNo.toNat) := by
  have hle := h.le
  have hlt := h.max_lt
  ext name
  rw [mem_sweep, h.candidates_eq, Finset.mem_image, Finset.mem_image]
  constructor
  · rintro ⟨⟨j, hj, rfl⟩, hkept⟩
    refine ⟨j, Finset.mem_Ico.mpr ⟨?_, Finset.mem_range.mp hj⟩, rfl⟩
    by_contra hjk
    exact hkept j (Nat.not_le.mp hjk) rfl
  · rintro ⟨j, hj, rfl⟩
    obtain ⟨hkj, hjn⟩ := Finset.mem_Ico.mp hj
    refine ⟨⟨j, Finset.mem_range.mpr hjn, rfl⟩, fun j' hj' heq => ?_⟩
    have hsame := (segAt_inj (by omega) (by omega)).mp heq
    omega

theorem card_sweep_eq (h : Window fs r n) (k : Nat) :
    (sweep (r.candidates fs) r.minNo.toNat k).card = n + 1 - k := by
  have hle := h.le
  have hlt := h.max_lt
  rw [h.sweep_eq, Finset.card_image_of_injOn, Nat.card_Ico]
  intro j hj j' hj' heq
  have hjn := (Finset.mem_Ico.mp hj).2
  have hjn' := (Finset.mem_Ico.mp hj').2
  exact (segAt_inj (by omega) (by omega)).mp heq

theorem card_eq (h : Window fs r n) : (segments fs).card = n := by
  have hle := h.le
  have hlt := h.max_lt
  rw [h.segments_eq, Finset.card_image_of_injOn, Finset.card_range]
  intro j hj j' hj' heq
  have hjn := Finset.mem_range.mp hj
  have hjn' := Finset.mem_range.mp hj'
  exact (segAt_inj (by omega) (by omega)).mp heq

/-- A sweep removes at most the lowest segment, and that only from a full window. -/
theorem swept_cases (h : Window fs r n) (ht : Swept (r.made fs) r.advanced k t) :
    k = 0 ∨ k = 1 ∧ n = r.maxSegments := by
  have hle := h.le
  have hover : ∀ j, j < k → r.maxSegments < n + 1 - j := by
    intro j hj
    rw [← h.card_sweep_eq]
    exact ht.first hj
  cases k with
  | zero => exact Or.inl rfl
  | succ k =>
    have hfirst := hover 0 (Nat.succ_pos k)
    have hlast := hover k (Nat.lt_succ_self k)
    right
    omega

/-- Where the loop stops, the window has moved. -/
theorem swept (h : Window fs r n) (hmax : 1 ≤ r.maxSegments)
    (ht : Swept (r.made fs) r.advanced k t)
    (hstop : (sweep (r.candidates fs) r.minNo.toNat k).card ≤ r.maxSegments) :
    r.wanted ∈ t ∧
      Window t { r.advanced with minNo := r.minNo + UInt64.ofNat k } (n + 1 - k) := by
  have hk := h.swept_cases ht
  have hle := h.le
  have hlt := h.max_lt
  rw [h.card_sweep_eq] at hstop
  have hsegments : segments t = (Finset.Ico k (n + 1)).image (segAt r.minNo.toNat) := by
    rw [ht.segments_swept, h.sweep_eq]
  have hkn : k ≤ n := by omega
  constructor
  · have hmem : r.wanted ∈ segments t := by
      rw [hsegments, h.wanted_eq]
      exact Finset.mem_image_of_mem _ (Finset.mem_Ico.mpr ⟨hkn, Nat.lt_succ_self n⟩)
    exact (mem_segments.mp hmem).1
  · refine ⟨?_, ?_, hstop, h.max_lt⟩
    · have hshift :
          ∀ j, segAt (r.minNo + UInt64.ofNat k).toNat j = segAt r.minNo.toNat (k + j) := by
        intro j
        have hk' : k < 2 ^ 64 := by omega
        rw [segAt, segAt, UInt64.toNat_add, UInt64.toNat_ofNat', Nat.mod_eq_of_lt hk']
        congr 1
        omega
      ext name
      rw [hsegments, Finset.mem_image, Finset.mem_image]
      constructor
      · rintro ⟨j, hj, rfl⟩
        obtain ⟨hkj, hjn⟩ := Finset.mem_Ico.mp hj
        exact ⟨j - k, Finset.mem_range.mpr (by omega), by rw [hshift, Nat.add_sub_cancel' hkj]⟩
      · rintro ⟨j, hj, rfl⟩
        have hjn := Finset.mem_range.mp hj
        exact ⟨k + j, Finset.mem_Ico.mpr ⟨by omega, by omega⟩, (hshift j).symm⟩
    · have hsum : n + 1 = k + (n + 1 - k) := by omega
      have hnext : r.advanced.segNo = r.minNo + UInt64.ofNat (n + 1) := by
        rw [UInt64.ofNat_add, ← UInt64.add_assoc, ← h.next]
        rfl
      rw [hnext, UInt64.add_assoc, ← UInt64.ofNat_add, ← hsum]

/-- **What a call of `next_segment` does to a window.** -/
theorem holds_nextSegment (h : Window fs r n) (hmax : 1 ≤ r.maxSegments) {fuel : Nat}
    (hfuel : 1 < fuel) :
    (Rotator.nextSegment fuel).Holds (fun t => segmentBytes t ≤ segmentBytes fs)
      (.returns fun name t r' => name = r.wanted ∧ r.wanted ∈ t ∧ ∃ k,
        Swept (r.made fs) r.advanced k t ∧ Window t r' (n + 1 - k) ∧
          r' = { r.advanced with minNo := r.minNo + UInt64.ofNat k }) fs r := by
  refine (SovProbe.holds_nextSegment fuel fs r).mono ?_ ?_ ?_ ?_
  · rintro t ⟨hnew, k, ht⟩
    exact ht.segmentBytes_le hnew
  · rintro name t r' ⟨-, rfl, k, ht, hstop, rfl⟩
    obtain ⟨hmem, hwindow⟩ := h.swept hmax ht hstop
    exact ⟨rfl, hmem, k, ht, hwindow, rfl⟩
  · rintro t r' ⟨hmem, -⟩
    exact h.wanted_notMem hmem
  · rintro ⟨-, hover⟩
    have hone := hover 1 hfuel
    rw [h.card_sweep_eq] at hone
    have hle := h.le
    omega

end Window

/-- The rotator of a probe started in an empty directory. -/
theorem window_empty {maxSegments : Nat} (hlt : maxSegments < 2 ^ 64)
    (h : Rotator.new maxSegments FileSystem.empty = some r) :
    Window FileSystem.empty r 0 ∧ r = ⟨maxSegments, 0, 0⟩ := by
  have hscan : scanExisting FileSystem.empty = (0, 0) := by decide
  unfold Rotator.new at h
  rw [hscan] at h
  split at h
  · rw [← Option.some.inj h]
    have hnone : segments FileSystem.empty = ∅ := by decide
    exact ⟨⟨hnone, rfl, Nat.zero_le _, hlt⟩, rfl⟩
  · cases h

end SovProbe
