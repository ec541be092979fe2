import SovProbe.SegmentNames

/-! # What a scan of the directory finds

`scan_existing` goes through the names in whatever order the directory lists them
and keeps the largest and the smallest number.
-/

namespace SovProbe

/-- The scan of some names: the largest and the smallest number read off them. -/
structure Scanned (names : List FileName) (max min : Option UInt64) : Prop where
  bounds : ∀ name ∈ names, ∀ no, segmentNo name = some no →
    ∃ M m, max = some M ∧ min = some m ∧ no ≤ M ∧ m ≤ no
  max_mem : ∀ M, max = some M → ∃ name ∈ names, segmentNo name = some M
  min_mem : ∀ m, min = some m → ∃ name ∈ names, segmentNo name = some m

/-- One name of the scan. -/
def scanName (best : Option UInt64 × Option UInt64) (name : FileName) :
    Option UInt64 × Option UInt64 :=
  match segmentNo name with
  | some no => (some (best.1.elim no (Max.max · no)), some (best.2.elim no (Min.min · no)))
  | none => best

theorem le_max_iff {a b c : UInt64} : c ≤ Max.max a b ↔ c ≤ a ∨ c ≤ b := by
  have hmax : Max.max a b = if a ≤ b then b else a := rfl
  rw [hmax]
  split <;> simp only [UInt64.le_iff_toNat_le] at * <;> omega

theorem min_le_iff {a b c : UInt64} : Min.min a b ≤ c ↔ a ≤ c ∨ b ≤ c := by
  have hmin : Min.min a b = if a ≤ b then a else b := rfl
  rw [hmin]
  split <;> simp only [UInt64.le_iff_toNat_le] at * <;> omega

theorem max_eq_or (a b : UInt64) : Max.max a b = a ∨ Max.max a b = b := by
  have hmax : Max.max a b = if a ≤ b then b else a := rfl
  rw [hmax]
  split
  · exact Or.inr rfl
  · exact Or.inl rfl

theorem min_eq_or (a b : UInt64) : Min.min a b = a ∨ Min.min a b = b := by
  have hmin : Min.min a b = if a ≤ b then a else b := rfl
  rw [hmin]
  split
  · exact Or.inl rfl
  · exact Or.inr rfl

theorem scanned_concat {names : List FileName} {max min : Option UInt64} {name : FileName}
    (h : Scanned names max min) :
    Scanned (names ++ [name]) (scanName (max, min) name).1 (scanName (max, min) name).2 := by
  unfold scanName
  cases hno : segmentNo name with
  | none =>
    refine ⟨fun x hx no hx' => ?_, fun M hM => ?_, fun m hm => ?_⟩
    · rcases List.mem_append.mp hx with hold | hnew
      · exact h.bounds x hold no hx'
      · rw [List.mem_singleton.mp hnew, hno] at hx'
        cases hx'
    · obtain ⟨x, hx, hx'⟩ := h.max_mem M hM
      exact ⟨x, List.mem_append_left _ hx, hx'⟩
    · obtain ⟨x, hx, hx'⟩ := h.min_mem m hm
      exact ⟨x, List.mem_append_left _ hx, hx'⟩
  | some new =>
    have hlast : name ∈ names ++ [name] := List.mem_append_right _ List.mem_cons_self
    refine ⟨fun x hx no hx' => ⟨_, _, rfl, rfl, ?_⟩, fun M hM => ?_, fun m hm => ?_⟩
    · rcases List.mem_append.mp hx with hold | hnew
      · obtain ⟨M, m, rfl, rfl, hM, hm⟩ := h.bounds x hold no hx'
        exact ⟨le_max_iff.mpr (Or.inl hM), min_le_iff.mpr (Or.inl hm)⟩
      · rw [List.mem_singleton.mp hnew, hno] at hx'
        rw [← Option.some.inj hx']
        constructor
        · cases max with
          | none => exact UInt64.le_refl _
          | some M => exact le_max_iff.mpr (Or.inr (UInt64.le_refl _))
        · cases min with
          | none => exact UInt64.le_refl _
          | some m => exact min_le_iff.mpr (Or.inr (UInt64.le_refl _))
    · rw [← Option.some.inj hM]
      cases max with
      | none => exact ⟨name, hlast, hno⟩
      | some M₀ =>
        rcases max_eq_or M₀ new with heq | heq
        · obtain ⟨x, hx, hx'⟩ := h.max_mem M₀ rfl
          exact ⟨x, List.mem_append_left _ hx, by rw [hx', Option.elim_some, heq]⟩
        · exact ⟨name, hlast, by rw [hno, Option.elim_some, heq]⟩
    · rw [← Option.some.inj hm]
      cases min with
      | none => exact ⟨name, hlast, hno⟩
      | some m₀ =>
        rcases min_eq_or m₀ new with heq | heq
        · obtain ⟨x, hx, hx'⟩ := h.min_mem m₀ rfl
          exact ⟨x, List.mem_append_left _ hx, by rw [hx', Option.elim_some, heq]⟩
        · exact ⟨name, hlast, by rw [hno, Option.elim_some, heq]⟩

theorem scanExisting_eq (fs : FileSystem) :
    ∃ max min, Scanned fs.names max min ∧ scanExisting fs = (max.elim 0 (· + 1), min.getD 0) := by
  have key : ∀ names : List FileName,
      Scanned names (names.foldl scanName (none, none)).1
        (names.foldl scanName (none, none)).2 := by
    intro names
    induction names using List.reverseRec with
    | nil => exact ⟨nofun, nofun, nofun⟩
    | append_singleton names name ih =>
      rw [List.foldl_append]
      exact scanned_concat ih
  exact ⟨_, _, key fs.names, rfl⟩

/-- **What a restart finds** where no name is foreign: the smallest number, and one more
than the largest. -/
theorem scanExisting_canonical {fs : FileSystem} {segNo minNo : UInt64}
    (hcanonical : foreign (segments fs) = ∅)
    (hbound : ∀ no ∈ numbers (segments fs), no + 1 < 2 ^ 64)
    (h : scanExisting fs = (segNo, minNo)) :
    (∀ no ∈ numbers (segments fs), minNo.toNat ≤ no ∧ no < segNo.toNat) ∧
      (segNo = 0 ∧ minNo = 0 ∨
        ∃ last ∈ numbers (segments fs), segNo.toNat = last + 1 ∧ minNo.toNat ≤ last) := by
  obtain ⟨max, min, hscan, heq⟩ := scanExisting_eq fs
  rw [heq] at h
  obtain ⟨rfl, rfl⟩ := Prod.mk.inj h
  -- every number a scan reads is one of the directory
  have hread : ∀ name ∈ fs.names, ∀ no, segmentNo name = some no →
      no.toNat ∈ numbers (segments fs) := by
    intro name hname no hno
    have hmem : name ∈ segments fs := mem_segments.mpr ⟨hname, isSegment_of_segmentNo hno⟩
    have hnot : name ∉ foreign (segments fs) := by
      rw [hcanonical]
      exact Finset.notMem_empty _
    rw [mem_foreign] at hnot
    simp only [hmem, true_and, not_forall, not_not] at hnot
    obtain ⟨n, hn, rfl⟩ := hnot
    rw [segmentNo_segPath hn] at hno
    rw [← Option.some.inj hno, UInt64.toNat_ofNat', Nat.mod_eq_of_lt hn]
    exact mem_numbers.mpr ⟨hmem, hn⟩
  have hnext : ∀ M : UInt64, M.toNat + 1 < 2 ^ 64 → (M + 1).toNat = M.toNat + 1 := by
    intro M hM
    rw [UInt64.toNat_add]
    exact Nat.mod_eq_of_lt hM
  constructor
  · intro no hno
    obtain ⟨hmem, hlt⟩ := mem_numbers.mp hno
    obtain ⟨M, m, rfl, rfl, hM, hm⟩ :=
      hscan.bounds _ (mem_segments.mp hmem).1 _ (segmentNo_segPath hlt)
    obtain ⟨name, hname, hMname⟩ := hscan.max_mem M rfl
    rw [UInt64.le_iff_toNat_le, UInt64.toNat_ofNat', Nat.mod_eq_of_lt hlt] at hM hm
    refine ⟨hm, ?_⟩
    rw [Option.elim_some, hnext M (hbound _ (hread name hname M hMname))]
    omega
  · cases max with
    | none =>
      cases min with
      | none => exact Or.inl ⟨rfl, rfl⟩
      | some m =>
        obtain ⟨name, hname, hm⟩ := hscan.min_mem m rfl
        obtain ⟨M, -, hM, -⟩ := hscan.bounds name hname m hm
        cases hM
    | some M =>
      obtain ⟨name, hname, hM⟩ := hscan.max_mem M rfl
      obtain ⟨-, m, -, rfl, -, hm⟩ := hscan.bounds name hname M hM
      refine Or.inr ⟨M.toNat, hread name hname M hM, ?_, UInt64.le_iff_toNat_le.mp hm⟩
      exact hnext M (hbound _ (hread name hname M hM))

end SovProbe
