import SovProbe.NextSegment
import SovProbe.SegmentScan

/-! # Retention

In a directory whose segments all have names `seg_path` formats, a call of
`next_segment` ends and leaves the newest `max_segments` of what was there and the
new one.  This goes on for ever: over any history of calls, of crashes between any
two steps of one, and of restarts that scan what is left.  What carries it is that
`min_no` is at most, and `seg_no` above, every number in the directory, and that the
largest number ever used is still there for the next scan to find.
-/

namespace SovProbe
open Process

/-! ## One call -/

/-- The numbering of a directory is intact: no foreign names, and the rotator's two
numbers enclose all the others. -/
structure Intact (fs : FileSystem) (r : Rotator) : Prop where
  canonical : foreign (segments fs) = ∅
  within : ∀ no ∈ numbers (segments fs), r.minNo.toNat ≤ no ∧ no < r.segNo.toNat
  min_le : r.minNo.toNat ≤ r.segNo.toNat

/-- The `room` largest numbers of `S`, or all of them. -/
def IsLargest (room : Nat) (S T : Finset Nat) : Prop :=
  T ⊆ S ∧ T.card = min room S.card ∧ ∀ a ∈ T, ∀ b ∈ S \ T, b < a

variable {fs t : FileSystem} {r : Rotator} {k : Nat}

theorem numbers_candidates :
    numbers (r.candidates fs) = insert r.segNo.toNat (numbers (segments fs)) := by
  ext no
  rw [Finset.mem_insert, mem_numbers, mem_numbers, Rotator.candidates, Finset.mem_insert]
  constructor
  · rintro ⟨heq | hmem, hlt⟩
    · exact Or.inl (segPath_injective heq)
    · exact Or.inr ⟨hmem, hlt⟩
  · rintro (rfl | ⟨hmem, hlt⟩)
    · exact ⟨Or.inl rfl, r.segNo.toNat_lt⟩
    · exact ⟨Or.inr hmem, hlt⟩

theorem foreign_candidates : foreign (r.candidates fs) = foreign (segments fs) := by
  ext name
  rw [mem_foreign, mem_foreign, Rotator.candidates, Finset.mem_insert]
  constructor
  · rintro ⟨rfl | hmem, hname⟩
    · exact absurd rfl (hname _ r.segNo.toNat_lt)
    · exact ⟨hmem, hname⟩
  · rintro ⟨hmem, hname⟩
    exact ⟨Or.inr hmem, hname⟩

namespace Intact

/-- The candidates, in numbers. -/
theorem candidates_within (h : Intact fs r) {no : Nat} (hno : no ∈ numbers (r.candidates fs)) :
    r.minNo.toNat ≤ no ∧ no ≤ r.segNo.toNat := by
  rw [numbers_candidates, Finset.mem_insert] at hno
  rcases hno with rfl | hold
  · exact ⟨h.min_le, Nat.le_refl _⟩
  · exact ⟨(h.within no hold).1, Nat.le_of_lt (h.within no hold).2⟩

theorem age_candidate (h : Intact fs r) {no : Nat} (hno : no ∈ numbers (r.candidates fs)) :
    age r.minNo.toNat no = no - r.minNo.toNat :=
  age_of_le (mem_numbers.mp hno).2 (h.candidates_within hno).1

theorem foreign_eq (h : Intact fs r) : foreign (r.candidates fs) = ∅ := by
  rw [foreign_candidates, h.canonical]

theorem wanted_notMem (h : Intact fs r) : r.wanted ∉ fs := by
  intro hmem
  have hno : r.segNo.toNat ∈ numbers (segments fs) :=
    mem_numbers.mpr ⟨mem_segments.mpr ⟨hmem, isSegment_segPath _⟩, r.segNo.toNat_lt⟩
  exact absurd (h.within _ hno).2 (Nat.lt_irrefl _)

/-- **The sweep in an intact directory**: what has been removed is what lies below the
counter, and the new segment is not. -/
theorem swept (h : Intact fs r) (hmax : 1 ≤ r.maxSegments)
    (ht : Swept (r.made fs) r.advanced k t) :
    foreign (segments t) = ∅ ∧ r.minNo.toNat + k ≤ r.segNo.toNat ∧
      ∀ no, no ∈ numbers (segments t) ↔
        no ∈ numbers (r.candidates fs) ∧ r.minNo.toNat + k ≤ no := by
  have hsegments := ht.segments_swept
  have hmem : ∀ no, no ∈ numbers (segments t) ↔
      no ∈ numbers (r.candidates fs) ∧ r.minNo.toNat + k ≤ no := by
    intro no
    rw [hsegments, mem_numbers_sweep r.minNo.toNat_lt]
    refine and_congr_right fun hno => ?_
    rw [h.age_candidate hno]
    have hle := (h.candidates_within hno).1
    omega
  have hforeign : foreign (segments t) = ∅ := by rw [hsegments, foreign_sweep, h.foreign_eq]
  refine ⟨hforeign, ?_, hmem⟩
  -- something is left, and nothing in the directory is above the new number
  cases k with
  | zero => exact h.min_le
  | succ k =>
    have hlast := ht.first (Nat.lt_succ_self k)
    have hstep := card_sweep_le_succ (r.candidates fs) r.minNo.toNat k
    have hcard := card_eq_numbers_add_foreign (segments t)
    rw [hforeign, Finset.card_empty, hsegments] at hcard
    obtain ⟨no, hno⟩ : (numbers (sweep (r.candidates fs) r.minNo.toNat (k + 1))).Nonempty :=
      Finset.card_pos.mp (by omega)
    rw [← hsegments] at hno
    obtain ⟨hC, hle⟩ := (hmem no).mp hno
    exact Nat.le_trans hle (h.candidates_within hC).2

theorem wanted_mem_swept (h : Intact fs r) (hmax : 1 ≤ r.maxSegments)
    (ht : Swept (r.made fs) r.advanced k t) : r.segNo.toNat ∈ numbers (segments t) :=
  ((h.swept hmax ht).2.2 _).mpr ⟨wanted_mem_numbers, (h.swept hmax ht).2.1⟩

/-- A call in an intact directory ends within one turn of the counter. -/
theorem ends (h : Intact fs r) {fuel : Nat} (hfuel : 2 ^ 64 < fuel) :
    (Rotator.nextSegment fuel fs r).outcome ≠ .running := by
  intro hrunning
  have hover := ((holds_nextSegment fuel fs r).running hrunning).2 (2 ^ 64) hfuel
  rw [card_sweep_turn _ r.minNo.toNat_lt, h.foreign_eq, Finset.card_empty] at hover
  exact absurd hover (Nat.not_lt_zero _)

/-- **What a call leaves** in an intact directory: the largest numbers. -/
theorem isLargest (h : Intact fs r) (hmax : 1 ≤ r.maxSegments)
    (ht : Swept (r.made fs) r.advanced k t)
    (hstop : (sweep (r.candidates fs) r.minNo.toNat k).card ≤ r.maxSegments) :
    IsLargest r.maxSegments (insert r.segNo.toNat (numbers (segments fs)))
      (numbers (segments t)) := by
  obtain ⟨hforeign, -, hmem⟩ := h.swept hmax ht
  have hsegments := ht.segments_swept
  have hleft := card_eq_numbers_add_foreign (segments t)
  rw [hforeign, Finset.card_empty] at hleft
  have hall := card_eq_numbers_add_foreign (r.candidates fs)
  rw [h.foreign_eq, Finset.card_empty] at hall
  rw [← numbers_candidates]
  refine ⟨fun no hno => ((hmem no).mp hno).1, ?_, fun a ha b hb => ?_⟩
  · by_cases hover : (r.candidates fs).card ≤ r.maxSegments
    · have hk : k = 0 := by
        by_contra hne
        have hzero := ht.first (Nat.pos_of_ne_zero hne)
        rw [sweep_zero] at hzero
        omega
      rw [hk, sweep_zero] at hsegments
      rw [hsegments] at hleft ⊢
      omega
    · have hfull := card_sweep_of_first (fun _ hj => ht.first hj) hstop (Nat.not_le.mp hover)
      rw [← hsegments] at hfull
      omega
  · obtain ⟨hbC, hbgone⟩ := Finset.mem_sdiff.mp hb
    have hale := ((hmem a).mp ha).2
    by_contra hle
    exact hbgone ((hmem b).mpr ⟨hbC, by omega⟩)

/-- The numbering stays intact in every state a call passes through, for the rotator
that goes on from there. -/
theorem of_swept (h : Intact fs r) (hmax : 1 ≤ r.maxSegments) (hroom : r.segNo.toNat + 1 < 2 ^ 64)
    (ht : Swept (r.made fs) r.advanced k t) :
    Intact t { r.advanced with minNo := r.minNo + UInt64.ofNat k } := by
  obtain ⟨hforeign, hle, hmem⟩ := h.swept hmax ht
  have hseg : (r.segNo + 1).toNat = r.segNo.toNat + 1 := by
    rw [UInt64.toNat_add]
    exact Nat.mod_eq_of_lt hroom
  have hmin : (r.minNo + UInt64.ofNat k).toNat = r.minNo.toNat + k := by
    rw [UInt64.toNat_add, UInt64.toNat_ofNat', Nat.mod_eq_of_lt (by omega),
      Nat.mod_eq_of_lt (by omega)]
  refine ⟨hforeign, fun no hno => ?_, ?_⟩
  · obtain ⟨hC, hno'⟩ := (hmem no).mp hno
    have hup := (h.candidates_within hC).2
    simp only [Rotator.advanced, hseg, hmin]
    omega
  · simp only [Rotator.advanced, hseg, hmin]
    omega

end Intact

/-- A restart on a directory without foreign names. -/
theorem intact_new {maxSegments : Nat} (hcanonical : foreign (segments fs) = ∅)
    (hbound : ∀ no ∈ numbers (segments fs), no + 1 < 2 ^ 64)
    (h : Rotator.new maxSegments fs = some r) :
    Intact fs r ∧ r.maxSegments = maxSegments ∧
      ∀ limit, (∀ no ∈ numbers (segments fs), no < limit) → r.segNo.toNat ≤ limit := by
  unfold Rotator.new at h
  split at h
  · cases hscan : scanExisting fs with
    | mk segNo minNo =>
      rw [hscan] at h
      rw [← Option.some.inj h]
      obtain ⟨hwithin, hends⟩ := scanExisting_canonical hcanonical hbound hscan
      refine ⟨⟨hcanonical, hwithin, ?_⟩, rfl, fun limit hlimit => ?_⟩
      · rcases hends with ⟨rfl, rfl⟩ | ⟨last, -, hseg, hmin⟩
        · exact Nat.le_refl _
        · simp only [hseg]
          omega
      · rcases hends with ⟨rfl, rfl⟩ | ⟨last, hlast, hseg, -⟩
        · exact Nat.zero_le _
        · simp only [hseg]
          exact hlimit last hlast
  · cases h

/-! ## Histories -/

/-- What `n` calls, started in a directory, can lead to: a call returns or is refused,
or a crash cuts it off after one of its steps and a new process scans what is left;
and the process may be restarted between two calls. -/
inductive History (maxSegments : Nat) (start : FileSystem) : Nat → FileSystem → Rotator → Prop
  | new {r : Rotator} : Rotator.new maxSegments start = some r → History maxSegments start 0 start r
  | returned {n : Nat} {fs t : FileSystem} {r r' : Rotator} {fuel : Nat} {name : FileName} :
      History maxSegments start n fs r →
      (Rotator.nextSegment fuel fs r).outcome = .done name t r' →
      History maxSegments start (n + 1) t r'
  | refused {n : Nat} {fs t : FileSystem} {r r' : Rotator} {fuel : Nat} :
      History maxSegments start n fs r →
      (Rotator.nextSegment fuel fs r).outcome = .failed t r' →
      History maxSegments start (n + 1) t r'
  | crashed {n : Nat} {fs t : FileSystem} {r r' : Rotator} {fuel : Nat} :
      History maxSegments start n fs r → t ∈ (Rotator.nextSegment fuel fs r).trace →
      Rotator.new maxSegments t = some r' → History maxSegments start (n + 1) t r'
  | restarted {n : Nat} {fs : FileSystem} {r r' : Rotator} :
      History maxSegments start n fs r → Rotator.new maxSegments fs = some r' →
      History maxSegments start n fs r'

/-- What holds all along a history.  `allocated` are the numbers of the segments made,
in order; the largest number ever used is covered by one that is still there. -/
structure Retained (maxSegments : Nat) (start : FileSystem) (limit : Nat) (fs : FileSystem)
    (r : Rotator) (allocated : List Nat) : Prop where
  intact : Intact fs r
  max_eq : r.maxSegments = maxSegments
  bounded : r.segNo.toNat ≤ limit
  covered : ∀ no, no ∈ numbers (segments start) ∨ no ∈ allocated →
    ∃ c ∈ numbers (segments fs), no ≤ c
  log : fs.created.map Prod.fst = start.created.map Prod.fst ++ allocated.map segPath
  increasing : allocated.Pairwise (· < ·)
  fresh : ∀ a ∈ allocated, ∀ no ∈ numbers (segments start), no < a

namespace Retained
variable {maxSegments limit : Nat} {start : FileSystem} {r' : Rotator} {allocated : List Nat}

/-- All numbers used so far are below the next. -/
theorem lt_segNo (h : Retained maxSegments start limit fs r allocated) {no : Nat}
    (hno : no ∈ numbers (segments start) ∨ no ∈ allocated) : no < r.segNo.toNat := by
  obtain ⟨c, hc, hle⟩ := h.covered no hno
  exact Nat.lt_of_le_of_lt hle (h.intact.within c hc).2

/-- A call up to any of its steps, with whatever rotator goes on from there. -/
theorem swept (h : Retained maxSegments start limit fs r allocated) (hmax : 1 ≤ maxSegments)
    (ht : Swept (r.made fs) r.advanced k t) (hintact : Intact t r')
    (hmax' : r'.maxSegments = maxSegments) (hbounded : r'.segNo.toNat ≤ limit + 1) :
    Retained maxSegments start (limit + 1) t r' (allocated ++ [r.segNo.toNat]) where
  intact := hintact
  max_eq := hmax'
  bounded := hbounded
  covered no hno := by
    refine ⟨_, h.intact.wanted_mem_swept (h.max_eq ▸ hmax) ht, ?_⟩
    rcases hno with hold | hmem
    · exact Nat.le_of_lt (h.lt_segNo (Or.inl hold))
    · rcases List.mem_append.mp hmem with hold | hnew
      · exact Nat.le_of_lt (h.lt_segNo (Or.inr hold))
      · exact Nat.le_of_eq (List.mem_singleton.mp hnew)
  log := by
    rw [ht.housekeeping.created, Rotator.made, FileSystem.created_record, FileSystem.created_link,
      List.map_append, h.log, List.append_assoc, List.map_append]
    rfl
  increasing := by
    refine List.pairwise_append.mpr ⟨h.increasing, List.pairwise_singleton _ _, fun a ha b hb => ?_⟩
    rw [List.mem_singleton.mp hb]
    exact h.lt_segNo (Or.inr ha)
  fresh a ha no hno := by
    rcases List.mem_append.mp ha with hold | hnew
    · exact h.fresh a hold no hno
    · rw [List.mem_singleton.mp hnew]
      exact h.lt_segNo (Or.inl hno)

/-- A crash after any step of a call, and the restart that scans what is left. -/
theorem crashed (h : Retained maxSegments start limit fs r allocated) (hmax : 1 ≤ maxSegments)
    (hroom : limit + 1 < 2 ^ 64) (ht : Swept (r.made fs) r.advanced k t)
    (hnew : Rotator.new maxSegments t = some r') :
    Retained maxSegments start (limit + 1) t r' (allocated ++ [r.segNo.toNat]) := by
  have hbounded := h.bounded
  obtain ⟨hcanonical, -, hmem⟩ := h.intact.swept (h.max_eq ▸ hmax) ht
  have hlast : ∀ no ∈ numbers (segments t), no ≤ r.segNo.toNat :=
    fun no hno => (h.intact.candidates_within ((hmem no).mp hno).1).2
  obtain ⟨hintact, hmax', hlimit⟩ := intact_new hcanonical
    (fun no hno => by have := hlast no hno; omega) hnew
  refine h.swept hmax ht hintact hmax' (hlimit _ fun no hno => ?_)
  have := hlast no hno
  omega

/-- A call that returns. -/
theorem returned (h : Retained maxSegments start limit fs r allocated) (hmax : 1 ≤ maxSegments)
    (hroom : limit + 1 < 2 ^ 64) (ht : Swept (r.made fs) r.advanced k t) :
    Retained maxSegments start (limit + 1) t { r.advanced with minNo := r.minNo + UInt64.ofNat k }
      (allocated ++ [r.segNo.toNat]) := by
  have hbounded := h.bounded
  refine h.swept hmax ht (h.intact.of_swept (h.max_eq ▸ hmax) (by omega) ht) h.max_eq ?_
  simp only [Rotator.advanced, UInt64.toNat_add]
  exact Nat.le_trans (Nat.mod_le _ _) (Nat.add_le_add_right hbounded 1)

/-- What a call does to a directory with this history: it ends and returns. -/
theorem holds_nextSegment (h : Retained maxSegments start limit fs r allocated)
    (hmax : 1 ≤ maxSegments) (hroom : limit + 1 < 2 ^ 64) {fuel : Nat} (hfuel : 2 ^ 64 < fuel) :
    (Rotator.nextSegment fuel).Holds (fun t => ∃ k, Swept (r.made fs) r.advanced k t)
      (.returns fun name t r' => name = r.wanted ∧ (∃ k, Swept (r.made fs) r.advanced k t) ∧
        Retained maxSegments start (limit + 1) t r' (allocated ++ [r.segNo.toNat])) fs r := by
  have hspec := SovProbe.holds_nextSegment fuel fs r
  refine ⟨fun t ht => (hspec.1 t ht).2, ?_⟩
  cases hout : (Rotator.nextSegment fuel fs r).outcome with
  | running => exact h.intact.ends hfuel hout
  | failed t r' => exact h.intact.wanted_notMem (hspec.failed hout).1
  | done name t r' =>
    obtain ⟨-, rfl, k, ht, -, rfl⟩ := hspec.done hout
    exact ⟨rfl, ⟨k, ht⟩, h.returned hmax hroom ht⟩

end Retained

/-- A process started in a directory of segments with numbers below `limit`. -/
theorem retained_new {maxSegments limit : Nat} {start : FileSystem}
    (hstart : ∀ name ∈ segments start, ∃ no, no < limit ∧ name = segPath no)
    (hlimit : limit < 2 ^ 64) (hnew : Rotator.new maxSegments start = some r) :
    Retained maxSegments start limit start r [] := by
  have hbelow : ∀ no ∈ numbers (segments start), no < limit := by
    intro no hno
    obtain ⟨no', hlt, heq⟩ := hstart _ (mem_numbers.mp hno).1
    exact segPath_injective heq ▸ hlt
  have hcanonical : foreign (segments start) = ∅ := by
    rw [Finset.eq_empty_iff_forall_notMem]
    intro name hname
    obtain ⟨hmem, hno⟩ := mem_foreign.mp hname
    obtain ⟨no, hlt, rfl⟩ := hstart name hmem
    exact hno no (by omega) rfl
  obtain ⟨hintact, hmax, hbounded⟩ := intact_new hcanonical
    (fun no hno => by have := hbelow no hno; omega) hnew
  refine ⟨hintact, hmax, hbounded limit hbelow, fun no hno => ?_, ?_, List.Pairwise.nil, nofun⟩
  · exact ⟨no, hno.resolve_right List.not_mem_nil, Nat.le_refl _⟩
  · rw [List.map_nil, List.append_nil]

/-- **The invariant of histories.** -/
theorem History.retained {maxSegments limit n : Nat} {start : FileSystem} (hmax : 1 ≤ maxSegments)
    (hstart : ∀ name ∈ segments start, ∃ no, no < limit ∧ name = segPath no)
    (hlimit : limit + n < 2 ^ 64) (h : History maxSegments start n fs r) :
    ∃ allocated, Retained maxSegments start (limit + n) fs r allocated := by
  induction h with
  | new hnew => exact ⟨[], retained_new hstart hlimit hnew⟩
  | returned _ hdone ih =>
    obtain ⟨allocated, hkept⟩ := ih (by omega)
    obtain ⟨-, -, k, ht, -, rfl⟩ := (holds_nextSegment _ _ _).done hdone
    exact ⟨_, hkept.returned hmax (by omega) ht⟩
  | refused _ hfailed ih =>
    obtain ⟨allocated, hkept⟩ := ih (by omega)
    have hspec := (holds_nextSegment _ _ _).failed hfailed
    exact absurd hspec.1 hkept.intact.wanted_notMem
  | crashed _ htrace hnew ih =>
    obtain ⟨allocated, hkept⟩ := ih (by omega)
    obtain ⟨-, k, ht⟩ := (holds_nextSegment _ _ _).1 _ htrace
    exact ⟨_, hkept.crashed hmax (by omega) ht hnew⟩
  | restarted _ hnew ih =>
    obtain ⟨allocated, hkept⟩ := ih (by omega)
    have hbounded := hkept.bounded
    have hlast := fun no hno => (hkept.intact.within no hno).2
    obtain ⟨hintact, hmax', hlimit'⟩ := intact_new hkept.intact.canonical
      (fun no hno => by have := hlast no hno; omega) hnew
    exact ⟨allocated, hintact, hmax', Nat.le_trans (hlimit' _ hlast) hbounded, hkept.covered,
      hkept.log, hkept.increasing, hkept.fresh⟩

/-- **Retention is exact and no number is used twice**, over every history.  The next
call ends; when it returns, its segment is there and the directory holds exactly the
largest `max_segments` numbers of what was there and the new one, none of them below
`min_no`.  The numbers of all segments ever made strictly increase, from above all
that were there at the start. -/
theorem retention {maxSegments limit n : Nat} {start fs : FileSystem} {r : Rotator}
    (hmax : 1 ≤ maxSegments)
    (hstart : ∀ name ∈ segments start, ∃ no, no < limit ∧ name = segPath no)
    (hlimit : limit + n + 1 < 2 ^ 64) (h : History maxSegments start n fs r) :
    (∃ enough, ∀ fuel, enough ≤ fuel →
        ∃ name t r', (Rotator.nextSegment fuel fs r).outcome = .done name t r') ∧
      (∀ fuel name t r', (Rotator.nextSegment fuel fs r).outcome = .done name t r' →
        name = segPath r.segNo.toNat ∧ name ∈ t ∧
          segments t = (numbers (segments t)).image segPath ∧
          IsLargest maxSegments (insert r.segNo.toNat (numbers (segments fs)))
            (numbers (segments t)) ∧
          ∀ no ∈ numbers (segments t), r'.minNo.toNat ≤ no) ∧
      ∃ allocated : List Nat,
        fs.created.map Prod.fst = start.created.map Prod.fst ++ allocated.map segPath ∧
        allocated.Pairwise (· < ·) ∧
        (∀ a ∈ allocated, a < r.segNo.toNat ∧ ∀ no ∈ numbers (segments start), no < a) ∧
        ∀ no ∈ numbers (segments fs), r.minNo.toNat ≤ no := by
  obtain ⟨allocated, hkept⟩ := h.retained hmax hstart (by omega)
  have hmax' : 1 ≤ r.maxSegments := hkept.max_eq ▸ hmax
  have hbounded := hkept.bounded
  refine ⟨?_, fun fuel name t r' hdone => ?_, allocated, hkept.log, hkept.increasing,
    fun a ha => ⟨hkept.lt_segNo (Or.inr ha), hkept.fresh a ha⟩,
    fun no hno => (hkept.intact.within no hno).1⟩
  · refine ⟨2 ^ 64 + 1, fun fuel hfuel => ?_⟩
    obtain ⟨name, t, r', hdone, -⟩ := (hkept.holds_nextSegment hmax hlimit hfuel).returned
    exact ⟨name, t, r', hdone⟩
  · obtain ⟨-, rfl, k, ht, hstop, rfl⟩ := (holds_nextSegment fuel fs r).done hdone
    have hnew := mem_numbers.mp (hkept.intact.wanted_mem_swept hmax' ht)
    have hforeign := (hkept.intact.swept hmax' ht).1
    have hafter := hkept.intact.of_swept hmax' (by omega) ht
    refine ⟨rfl, (mem_segments.mp hnew.1).1, ?_, ?_, fun no hno => (hafter.within no hno).1⟩
    · rw [foreign, Finset.sdiff_eq_empty_iff_subset] at hforeign
      exact Finset.Subset.antisymm hforeign (image_numbers_subset _)
    · rw [← hkept.max_eq]
      exact hkept.intact.isLargest hmax' ht hstop

/-- Two segments with a gap between them. -/
def gapDir : FileSystem := (FileSystem.empty.link (segPath 3)).link (segPath 7)

/-- A call, a call cut off right after it has made its segment, a call of the next process,
and another restart. -/
theorem retention_gap : ∃ fs r, History 2 gapDir 3 fs r ∧
    fs.created.map Prod.fst = [segPath 8, segPath 9, segPath 10] ∧ r.segNo = 11 ∧
    ∃ enough, ∀ fuel, enough ≤ fuel → ∃ name t r',
      (Rotator.nextSegment fuel fs r).outcome = .done name t r' ∧ name = segPath 11 ∧
        IsLargest 2 (insert 11 (numbers (segments fs))) (numbers (segments t)) := by
  have hstart : ∀ name ∈ segments gapDir, ∃ no, no < 8 ∧ name = segPath no := by
    have hsegments : segments gapDir = {segPath 7, segPath 3} := by decide
    intro name hname
    rw [hsegments, Finset.mem_insert, Finset.mem_singleton] at hname
    rcases hname with rfl | rfl
    · exact ⟨7, by decide, rfl⟩
    · exact ⟨3, by decide, rfl⟩
  have hnew : Rotator.new 2 gapDir = some ⟨2, 8, 3⟩ := by decide
  have hcalls : ((Rotator.nextSegment 2 gapDir ⟨2, 8, 3⟩).outcome.state?.bind fun s₁ =>
      (Rotator.nextSegment 2 s₁.1 s₁.2).trace.head?.bind fun fs₂ =>
      (Rotator.new 2 fs₂).bind fun r₂ =>
      (Rotator.nextSegment 3 fs₂ r₂).outcome.state?.bind fun s₃ =>
      (Rotator.new 2 s₃.1).map fun r => (s₃.1.created.map Prod.fst, r.segNo)) =
        some ([segPath 8, segPath 9, segPath 10], 11) := by decide +kernel
  obtain ⟨s₁, hfirst, hcalls⟩ := Option.bind_eq_some_iff.mp hcalls
  obtain ⟨fs₂, hcut, hcalls⟩ := Option.bind_eq_some_iff.mp hcalls
  obtain ⟨r₂, hscan, hcalls⟩ := Option.bind_eq_some_iff.mp hcalls
  obtain ⟨s₃, hlast, hcalls⟩ := Option.bind_eq_some_iff.mp hcalls
  obtain ⟨r, hagain, hends⟩ := Option.map_eq_some_iff.mp hcalls
  obtain ⟨hcreated, hsegNo⟩ := Prod.mk.inj hends
  obtain ⟨name₁, hfirst⟩ := Outcome.state?_eq_some.mp hfirst
  obtain ⟨name₃, hlast⟩ := Outcome.state?_eq_some.mp hlast
  have hhistory : History 2 gapDir 3 s₃.1 r :=
    .restarted (.returned (.crashed (.returned (.new hnew) hfirst)
      (List.mem_of_head? hcut) hscan) hlast) hagain
  obtain ⟨⟨enough, hreturns⟩, hkeeps, -⟩ :=
    retention (by decide : 1 ≤ 2) hstart (by decide) hhistory
  refine ⟨s₃.1, r, hhistory, hcreated, hsegNo, enough, fun fuel hfuel => ?_⟩
  obtain ⟨name, t, r', hdone⟩ := hreturns fuel hfuel
  obtain ⟨hname, -, -, hlargest, -⟩ := hkeeps fuel name t r' hdone
  rw [hsegNo] at hname hlargest
  exact ⟨name, t, r', hdone, hname, hlargest⟩

end SovProbe
