import SovProbe.EvictionOrder

/-! # A call of `next_segment`

`holds_nextSegment` is the whole effect of a call: it is refused if the name it
wants is taken, and otherwise makes the new segment and sweeps the directory.  Which
calls are safe follows from that and from the order in which the sweep removes
segments (`safeCall_iff`): a call that ends, whose new segment is still there, and
that removed none of the newest.
-/

namespace SovProbe
open Process

/-- The name a call wants. -/
def Rotator.wanted (r : Rotator) : FileName := segPath r.segNo.toNat

/-- The directory once the new segment is there. -/
def Rotator.made (r : Rotator) (fs : FileSystem) : FileSystem :=
  (fs.link r.wanted).record r.wanted fs.inodes.length

/-- The rotator in the eviction loop. -/
def Rotator.advanced (r : Rotator) : Rotator := { r with segNo := r.segNo + 1 }

/-- The segments once the new one is there. -/
def Rotator.candidates (r : Rotator) (fs : FileSystem) : Finset FileName :=
  insert r.wanted (segments fs)

variable {fs t : FileSystem} {r : Rotator}

theorem segments_made : segments (r.made fs) = r.candidates fs := by
  ext name
  rw [Rotator.candidates, Finset.mem_insert, mem_segments, mem_segments, Rotator.made,
    FileSystem.mem_record, FileSystem.mem_link]
  constructor
  · rintro ⟨rfl | hmem, hname⟩
    · exact Or.inl rfl
    · exact Or.inr ⟨hmem, hname⟩
  · rintro (rfl | ⟨hmem, hname⟩)
    · exact ⟨Or.inl rfl, isSegment_segPath _⟩
    · exact ⟨Or.inr hmem, hname⟩

theorem file?_made : (r.made fs).file? r.wanted = some [] := FileSystem.file?_link

theorem file?_made_ne {name : FileName} (hname : name ≠ r.wanted) :
    (r.made fs).file? name = fs.file? name := FileSystem.file?_link_ne hname

/-- The segments in the course of a call. -/
theorem Swept.segments_swept {k : Nat} (h : Swept (r.made fs) r.advanced k t) :
    segments t = sweep (r.candidates fs) r.minNo.toNat k := by
  rw [← segments_made]
  exact h.segments_eq

/-- Every removal was made while there were too many of them. -/
theorem Swept.first {k : Nat} (h : Swept (r.made fs) r.advanced k t) {j : Nat} (hj : j < k) :
    r.maxSegments < (sweep (r.candidates fs) r.minNo.toNat j).card := by
  rw [← segments_made]
  exact h.overfull j hj

theorem Swept.ledger {k : Nat} {u : FileSystem} (h : Swept fs r k t) (hkeep : Housekeeping t u)
    (hsegments : segments u = segments t) : Swept fs r k u :=
  ⟨h.housekeeping.trans hkeep, hsegments.trans h.segments_eq, h.overfull⟩

/-- **What a call does**, in any directory and from any state of the rotator. -/
theorem holds_nextSegment (fuel : Nat) (fs : FileSystem) (r : Rotator) :
    (Rotator.nextSegment fuel).Holds
      (fun t => r.wanted ∉ fs ∧ ∃ k, Swept (r.made fs) r.advanced k t)
      ⟨fun name t r' => r.wanted ∉ fs ∧ name = r.wanted ∧ ∃ k, Swept (r.made fs) r.advanced k t ∧
          (sweep (r.candidates fs) r.minNo.toNat k).card ≤ r.maxSegments ∧
          r' = { r.advanced with minNo := r.minNo + UInt64.ofNat k },
        fun t r' => r.wanted ∈ fs ∧ t = fs ∧ r' = r.advanced,
        r.wanted ∉ fs ∧ ∀ j, j < fuel →
          r.maxSegments < (sweep (r.candidates fs) r.minNo.toNat j).card⟩ fs r := by
  unfold Rotator.nextSegment
  simp only [holds_bind, holds_get, holds_modify, holds_createNew, holds_pure]
  refine ⟨fun hmem => ⟨hmem, trivial, rfl⟩, fun hnew => ⟨⟨hnew, 0, Swept.zero _ _⟩, ?_⟩⟩
  have hloop := holds_enforceBudget fuel (r.made fs) r.advanced
  rw [evictionEnd, segments_made] at hloop
  refine hloop.mono (fun u hu => ⟨hnew, hu⟩) ?_ (fun _ _ h => h.elim) (fun h => ⟨hnew, h⟩)
  rintro - u r' ⟨k, hu, hle, rfl⟩
  refine holds_persistLedger _ _ (fun v hk hs => ⟨hnew, k, hu.ledger hk hs⟩) fun v hk hs => ?_
  exact ⟨hnew, rfl, k, hu.ledger hk hs, hle, rfl⟩

/-- The number of a name, where `scan_existing` reads one. -/
def segNumber (name : FileName) : Option Nat := (segmentNo name).map UInt64.toNat

theorem segNumber_segPath {no : Nat} (h : no < 2 ^ 64) : segNumber (segPath no) = some no := by
  rw [segNumber, segmentNo_segPath h, Option.map_some, UInt64.toNat_ofNat', Nat.mod_eq_of_lt h]

theorem wanted_mem_numbers : r.segNo.toNat ∈ numbers (r.candidates fs) :=
  mem_numbers.mpr ⟨Finset.mem_insert_self _ _, r.segNo.toNat_lt⟩

/-- Which candidates are gone after a sweep: those with the numbers it evicted. -/
theorem Swept.gone_iff {k : Nat} (h : Swept (r.made fs) r.advanced k t) {name : FileName}
    (hname : name ∈ r.candidates fs) :
    name ∉ t ↔ ∃ no ∈ evicted (r.candidates fs) r.minNo.toNat k, name = segPath no := by
  have hsegment : isSegment name = true := by
    rcases Finset.mem_insert.mp hname with rfl | hmem
    · exact isSegment_segPath _
    · exact (mem_segments.mp hmem).2
  have hmem : name ∈ t ↔ name ∈ sweep (r.candidates fs) r.minNo.toNat k := by
    rw [← h.segments_swept, mem_segments]
    simp only [hsegment, and_true]
  rw [hmem]
  constructor
  · intro hgone
    by_contra hnone
    simp only [not_exists, not_and] at hnone
    refine hgone (mem_sweep.mpr ⟨hname, fun j hj heq => ?_⟩)
    have hlt : (r.minNo.toNat + j) % 2 ^ 64 < 2 ^ 64 := Nat.mod_lt _ (by decide)
    refine hnone _ (mem_evicted.mpr ⟨mem_numbers.mpr ⟨heq ▸ hname, hlt⟩, ?_⟩) heq
    have hmin := r.minNo.toNat_lt
    unfold age
    omega
  · rintro ⟨no, hno, rfl⟩ hstays
    obtain ⟨hnoC, hage⟩ := mem_evicted.mp hno
    have hsweep := (mem_numbers_sweep r.minNo.toNat_lt).mp
      (mem_numbers.mpr ⟨hstays, (mem_numbers.mp hnoC).2⟩)
    omega

end SovProbe
