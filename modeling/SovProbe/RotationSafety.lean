import SovProbe.NextSegment

/-! # Which calls of `next_segment` are safe

A call is safe if it ends, if the new segment is still there when it does, and if it
removed none of the newest segments.  In a directory with names that start with
`segment_` but are not formatted by `seg_path`, or after a number has wrapped, a call
need not be.  `safeCall_iff` gives the exact condition, which can be read off the
directory and the rotator before the call.
-/

namespace SovProbe
open Process

variable {fs t : FileSystem} {r : Rotator}

/-! ## Safe calls -/

/-- As many of the names as there is room for have a number above `no`. -/
def Outranked (room : Nat) (S : Finset FileName) (no : Nat) : Prop :=
  room ≤ (S.filter fun name => ∃ m, segNumber name = some m ∧ no < m).card

/-- Of the numbered names `S`, those that are gone are not among the newest. -/
def NewestKept (room : Nat) (S : Finset FileName) (t : FileSystem) : Prop :=
  ∀ name ∈ S, name ∉ t → ∀ no, segNumber name = some no → Outranked room S no

/-- A call that ends; whatever state of the directory it passes through, none of the
newest segments is gone; and if it returns a path, the file is there. -/
structure SafeCall (fs : FileSystem) (r : Rotator) : Prop where
  ends : ∃ fuel, (Rotator.nextSegment fuel fs r).outcome ≠ .running
  keeps : ∀ fuel, (Rotator.nextSegment fuel).Holds (NewestKept r.maxSegments (r.candidates fs))
    ⟨fun name t _ => name ∈ t ∧ NewestKept r.maxSegments (r.candidates fs) t,
      fun t _ => NewestKept r.maxSegments (r.candidates fs) t, True⟩ fs r

/-- How many segments a call has to remove. -/
def Rotator.excess (r : Rotator) (fs : FileSystem) : Nat :=
  (r.candidates fs).card - r.maxSegments

/-- The calls that are safe: the name is taken; or nothing has to be removed; or
`min_no` is on one side of all numbers `seg_path` formats, and as many of these as
have to be removed are below the new number and below the number of every other
name, which therefore has one. -/
def Rotatable (fs : FileSystem) (r : Rotator) : Prop :=
  r.wanted ∈ fs ∨ (r.candidates fs).card ≤ r.maxSegments ∨
    (OneSided (r.candidates fs) r.minNo.toNat ∧
      r.excess fs ≤ ((numbers (r.candidates fs)).filter (· < r.segNo.toNat)).card ∧
      ∀ name ∈ foreign (r.candidates fs), ∃ m, segNumber name = some m ∧
        r.excess fs ≤ ((numbers (r.candidates fs)).filter (· < m)).card)

/-- Names are outranked by numbers `seg_path` formats, and by foreign names. -/
theorem outranked_eq (room : Nat) (S : Finset FileName) (no : Nat) :
    Outranked room S no ↔ room ≤ ((numbers S).filter (no < ·)).card +
      ((foreign S).filter fun name => ∃ m, segNumber name = some m ∧ no < m).card := by
  have hsplit : (S.filter fun name => ∃ m, segNumber name = some m ∧ no < m) =
      ((numbers S).filter (no < ·)).image segPath ∪
        (foreign S).filter fun name => ∃ m, segNumber name = some m ∧ no < m := by
    ext name
    simp only [Finset.mem_filter, Finset.mem_union, Finset.mem_image]
    constructor
    · rintro ⟨hname, m, hm, hlt⟩
      by_cases hforeign : name ∈ foreign S
      · exact Or.inr ⟨hforeign, m, hm, hlt⟩
      · rw [mem_foreign] at hforeign
        simp only [hname, true_and, not_forall, not_not] at hforeign
        obtain ⟨c, hc, rfl⟩ := hforeign
        rw [segNumber_segPath hc] at hm
        exact Or.inl ⟨c, ⟨mem_numbers.mpr ⟨hname, hc⟩, Option.some.inj hm ▸ hlt⟩, rfl⟩
    · rintro (⟨c, ⟨hc, hlt⟩, rfl⟩ | ⟨hname, hm⟩)
      · obtain ⟨hmem, hc64⟩ := mem_numbers.mp hc
        exact ⟨hmem, c, segNumber_segPath hc64, hlt⟩
      · exact ⟨(mem_foreign.mp hname).1, hm⟩
  have hdisj : Disjoint (((numbers S).filter (no < ·)).image segPath)
      ((foreign S).filter fun name => ∃ m, segNumber name = some m ∧ no < m) := by
    rw [Finset.disjoint_left]
    intro name hname hforeign
    obtain ⟨c, hc, rfl⟩ := Finset.mem_image.mp hname
    exact (mem_foreign.mp (Finset.mem_filter.mp hforeign).1).2 c
      (mem_numbers.mp (Finset.mem_filter.mp hc).1).2 rfl
  rw [Outranked, hsplit, Finset.card_union_of_disjoint hdisj,
    Finset.card_image_of_injective _ segPath_injective]

/-! ## The condition -/

/-- Keeping the newest is a matter of the numbers evicted. -/
theorem newestKept_iff {k : Nat} (h : Swept (r.made fs) r.advanced k t) (room : Nat) :
    NewestKept room (r.candidates fs) t ↔
      ∀ no ∈ evicted (r.candidates fs) r.minNo.toNat k, Outranked room (r.candidates fs) no := by
  constructor
  · intro hkept no hno
    obtain ⟨hmem, hlt⟩ := mem_numbers.mp (mem_evicted.mp hno).1
    exact hkept _ hmem ((h.gone_iff hmem).mpr ⟨no, hno, rfl⟩) no (segNumber_segPath hlt)
  · intro hout name hname hgone no hnumber
    obtain ⟨no', hno', rfl⟩ := (h.gone_iff hname).mp hgone
    rw [segNumber_segPath (mem_numbers.mp (mem_evicted.mp hno').1).2] at hnumber
    exact Option.some.inj hnumber ▸ hout no' hno'

theorem wanted_mem_iff {k : Nat} (h : Swept (r.made fs) r.advanced k t) :
    r.wanted ∈ t ↔ r.segNo.toNat ∉ evicted (r.candidates fs) r.minNo.toNat k := by
  rw [← not_iff_not, not_not, h.gone_iff (Finset.mem_insert_self _ _)]
  constructor
  · rintro ⟨no, hno, heq⟩
    exact segPath_injective heq ▸ hno
  · intro hno
    exact ⟨_, hno, rfl⟩

/-- Where a sweep ends the loop, the new segment is still there and all that is gone
is outranked iff the call was rotatable. -/
theorem sweep_safe_iff {k : Nat} (hover : r.maxSegments < (r.candidates fs).card)
    (hfirst : ∀ j, j < k → r.maxSegments < (sweep (r.candidates fs) r.minNo.toNat j).card)
    (hstop : (sweep (r.candidates fs) r.minNo.toNat k).card ≤ r.maxSegments) :
    (r.segNo.toNat ∉ evicted (r.candidates fs) r.minNo.toNat k ∧
        ∀ no ∈ evicted (r.candidates fs) r.minNo.toNat k,
          Outranked r.maxSegments (r.candidates fs) no) ↔
      OneSided (r.candidates fs) r.minNo.toNat ∧
        r.excess fs ≤ ((numbers (r.candidates fs)).filter (· < r.segNo.toNat)).card ∧
        ∀ name ∈ foreign (r.candidates fs), ∃ m, segNumber name = some m ∧
          r.excess fs ≤ ((numbers (r.candidates fs)).filter (· < m)).card := by
  have hfull := card_sweep_of_first hfirst hstop hover
  have hcard := card_sweep (r.candidates fs) r.minNo.toNat_lt k
  have hsplit := card_eq_numbers_add_foreign (r.candidates fs)
  have hexcess : r.excess fs = (evicted (r.candidates fs) r.minNo.toNat k).card := by
    rw [Rotator.excess]
    omega
  have hsome : (evicted (r.candidates fs) r.minNo.toNat k).Nonempty :=
    Finset.card_pos.mp (by omega)
  simp only [outranked_eq]
  rw [outranked_iff (evicted_subset _ _ _) (by omega), hexcess]
  exact evicted_lowest_iff r.minNo.toNat_lt wanted_mem_numbers hsome

/-- A call that is not refused ends iff some sweep is within the budget. -/
theorem ends_of_sweep {k : Nat}
    (hstop : (sweep (r.candidates fs) r.minNo.toNat k).card ≤ r.maxSegments) :
    (Rotator.nextSegment (k + 1) fs r).outcome ≠ .running := by
  intro hrunning
  have hover := ((holds_nextSegment (k + 1) fs r).running hrunning).2 k (Nat.lt_succ_self k)
  exact absurd hover (Nat.not_lt.mpr hstop)

/-- Sweeps are nested, and none goes further than the one that ends the loop. -/
theorem evicted_subset_of_stop {j k room : Nat} {S : Finset FileName} {start : Nat}
    (hfirst : ∀ i, i < j → room < (sweep S start i).card)
    (hstop : (sweep S start k).card ≤ room) : evicted S start j ⊆ evicted S start k := by
  have hle : j ≤ k := Nat.not_lt.mp fun hlt => absurd (hfirst k hlt) (Nat.not_lt.mpr hstop)
  intro no hno
  obtain ⟨hC, hage⟩ := mem_evicted.mp hno
  exact mem_evicted.mpr ⟨hC, Nat.lt_of_lt_of_le hage hle⟩

/-- A sweep that ends safely makes the call safe: all states on the way are. -/
theorem safeCall_of_sweep {k : Nat}
    (hstop : (sweep (r.candidates fs) r.minNo.toNat k).card ≤ r.maxSegments)
    (hnew : r.segNo.toNat ∉ evicted (r.candidates fs) r.minNo.toNat k)
    (hout : ∀ no ∈ evicted (r.candidates fs) r.minNo.toNat k,
      Outranked r.maxSegments (r.candidates fs) no) : SafeCall fs r := by
  have hswept : ∀ {j t}, Swept (r.made fs) r.advanced j t →
      r.wanted ∈ t ∧ NewestKept r.maxSegments (r.candidates fs) t := by
    intro j t hj
    have hsub := evicted_subset_of_stop (fun _ hi => hj.first hi) hstop
    exact ⟨(wanted_mem_iff hj).mpr fun h => hnew (hsub h),
      (newestKept_iff hj _).mpr fun no hno => hout no (hsub hno)⟩
  refine ⟨⟨k + 1, ends_of_sweep hstop⟩, fun fuel => ?_⟩
  refine (holds_nextSegment fuel fs r).mono ?_ ?_ ?_ (fun _ => trivial)
  · rintro u ⟨-, j, hj⟩
    exact (hswept hj).2
  · rintro name u r' ⟨-, rfl, j, hj, -⟩
    exact hswept hj
  · rintro u r' ⟨hmem, rfl, -⟩ name hname hgone
    rcases Finset.mem_insert.mp hname with rfl | hold
    · exact absurd hmem hgone
    · exact absurd (mem_segments.mp hold).1 hgone

/-- A call that finds room removes nothing. -/
theorem safeCall_of_room (hroom : (r.candidates fs).card ≤ r.maxSegments) : SafeCall fs r := by
  have hnone : ∀ no, no ∉ evicted (r.candidates fs) r.minNo.toNat 0 :=
    fun no hno => absurd (mem_evicted.mp hno).2 (Nat.not_lt_zero _)
  have hstop : (sweep (r.candidates fs) r.minNo.toNat 0).card ≤ r.maxSegments := by
    rwa [sweep_zero]
  exact safeCall_of_sweep hstop (hnone _) fun no hno => absurd hno (hnone no)

/-- A call that is refused changes nothing. -/
theorem safeCall_of_refused (hmem : r.wanted ∈ fs) : SafeCall fs r := by
  have hspec := fun fuel => holds_nextSegment fuel fs r
  refine ⟨⟨0, fun hrunning => ?_⟩, fun fuel => ?_⟩
  · exact absurd hmem ((hspec 0).running hrunning).1
  · refine (hspec fuel).mono (fun u hu => absurd hmem hu.1) (fun _ _ _ hu => absurd hmem hu.1)
      ?_ (fun _ => trivial)
    rintro u r' ⟨-, rfl, -⟩ name hname hgone
    rcases Finset.mem_insert.mp hname with rfl | hold
    · exact absurd hmem hgone
    · exact absurd (mem_segments.mp hold).1 hgone

/-- **A call is safe iff it is rotatable**, in every directory and every state of the
rotator. -/
theorem safeCall_iff (fs : FileSystem) (r : Rotator) : SafeCall fs r ↔ Rotatable fs r := by
  constructor
  · intro hsafe
    by_cases hmem : r.wanted ∈ fs
    · exact Or.inl hmem
    by_cases hover : (r.candidates fs).card ≤ r.maxSegments
    · exact Or.inr (Or.inl hover)
    rw [Nat.not_le] at hover
    obtain ⟨fuel, hends⟩ := hsafe.ends
    cases hout : (Rotator.nextSegment fuel fs r).outcome with
    | running => exact absurd hout hends
    | failed u r' => exact absurd ((holds_nextSegment fuel fs r).failed hout).1 hmem
    | done name u r' =>
      obtain ⟨-, rfl, k, hswept, hstop, -⟩ := (holds_nextSegment fuel fs r).done hout
      have hkeeps := (hsafe.keeps fuel).done hout
      refine Or.inr (Or.inr ?_)
      refine (sweep_safe_iff hover (fun _ hj => hswept.first hj) hstop).mp ⟨?_, ?_⟩
      · exact (wanted_mem_iff hswept).mp hkeeps.1
      · exact (newestKept_iff hswept _).mp hkeeps.2
  · rintro (hmem | hroom | hcond)
    · exact safeCall_of_refused hmem
    · exact safeCall_of_room hroom
    by_cases hover : (r.candidates fs).card ≤ r.maxSegments
    · exact safeCall_of_room hover
    rw [Nat.not_le] at hover
    have hbelow : ((numbers (r.candidates fs)).filter (· < r.segNo.toNat)).card <
        (numbers (r.candidates fs)).card := by
      refine Finset.card_lt_card (Finset.filter_ssubset.mpr ?_)
      exact ⟨_, wanted_mem_numbers, Nat.lt_irrefl _⟩
    have hsplit := card_eq_numbers_add_foreign (r.candidates fs)
    have hexcess := hcond.2.1
    rw [Rotator.excess] at hexcess
    obtain ⟨k, hstop, hfirst⟩ := exists_stop r.minNo.toNat_lt
      (show (foreign (r.candidates fs)).card ≤ r.maxSegments by omega)
    obtain ⟨hnew, hout⟩ := (sweep_safe_iff hover hfirst hstop).mpr hcond
    exact safeCall_of_sweep hstop hnew hout

/-! ## Runs -/

/-- The directory and the rotator after `n` calls of `next_segment`, refused ones
included, by a process started on a directory. -/
inductive AfterCalls (maxSegments : Nat) (start : FileSystem) : Nat → FileSystem → Rotator → Prop
  | new {r : Rotator} :
      Rotator.new maxSegments start = some r → AfterCalls maxSegments start 0 start r
  | returned {n : Nat} {fs t : FileSystem} {r r' : Rotator} {fuel : Nat} {name : FileName} :
      AfterCalls maxSegments start n fs r →
      (Rotator.nextSegment fuel fs r).outcome = .done name t r' →
      AfterCalls maxSegments start (n + 1) t r'
  | refused {n : Nat} {fs t : FileSystem} {r r' : Rotator} {fuel : Nat} :
      AfterCalls maxSegments start n fs r →
      (Rotator.nextSegment fuel fs r).outcome = .failed t r' →
      AfterCalls maxSegments start (n + 1) t r'

/-- **Exactly when rotation is safe**, along every run of calls from every directory:
each call is safe iff the directory and the rotator it starts from are rotatable. -/
theorem rotation_safe_iff (maxSegments : Nat) (start : FileSystem) (n : Nat) :
    (∀ k, k < n → ∀ fs r, AfterCalls maxSegments start k fs r → SafeCall fs r) ↔
      ∀ k, k < n → ∀ fs r, AfterCalls maxSegments start k fs r → Rotatable fs r := by
  constructor
  · intro h k hk fs r hrun
    exact (safeCall_iff fs r).mp (h k hk fs r hrun)
  · intro h k hk fs r hrun
    exact (safeCall_iff fs r).mpr (h k hk fs r hrun)

/-- A directory with the file `sov2pcap` writes next to a segment. -/
def pcapDir : FileSystem := FileSystem.empty.link (ascii "segment_0000.wal.pcap")

/-- **Rotation is not safe in every directory**: with `max_segments` 1, the call counts
the capture file, which it cannot remove, and removes the segment it just made. -/
theorem rotation_unsafe :
    ¬ ∀ (maxSegments : Nat) (start : FileSystem) (n : Nat), 1 ≤ maxSegments →
        ∀ k, k < n → ∀ fs r, AfterCalls maxSegments start k fs r → SafeCall fs r := by
  intro h
  have hsafe := h 1 pcapDir 1 (Nat.le_refl 1) 0 Nat.one_pos pcapDir ⟨1, 0, 0⟩ (.new (by decide))
  have hcard : (Rotator.candidates ⟨1, 0, 0⟩ pcapDir).card = 2 := by decide
  rcases (safeCall_iff _ _).mp hsafe with htaken | hroom | ⟨-, hbelow, -⟩
  · revert htaken
    decide
  · rw [hcard] at hroom
    exact absurd hroom (by decide)
  · have hnone : ((numbers (Rotator.candidates ⟨1, 0, 0⟩ pcapDir)).filter
        (· < (0 : UInt64).toNat)).card = 0 := by
      rw [Finset.card_eq_zero, Finset.filter_eq_empty_iff]
      exact fun no _ => Nat.not_lt_zero no
    rw [Rotator.excess, hcard] at hbelow
    exact absurd (hnone ▸ hbelow) (by decide)

end SovProbe
