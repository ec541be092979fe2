import SovProbe.Rotate
import Mathlib.Data.Finset.Preimage

/-! # What the names of the directory say

A segment name that `seg_path` formats is counted by `existing_count` and read back
by `scan_existing`.  A name may also be counted without being one that `seg_path`
formats; such a foreign name is never removed.
-/

namespace SovProbe

theorem segPath_injective : Function.Injective segPath := by
  intro m n h
  have hpad := List.append_cancel_left (List.append_cancel_right h)
  rw [← Decimal.value_pad 4 m, hpad, Decimal.value_pad]

@[simp] theorem isSegment_segPath (no : Nat) : isSegment (segPath no) = true := by
  rw [isSegment, List.isPrefixOf_iff_prefix, segPath, List.append_assoc]
  exact List.prefix_append _ _

theorem isSegment_ledgerPath : isSegment ledgerPath = false := by decide

theorem ne_ledgerPath_of_isSegment {name : FileName} (h : isSegment name = true) :
    name ≠ ledgerPath := by
  rintro rfl
  rw [isSegment_ledgerPath] at h
  cases h

theorem segPath_ne_ledgerPath (no : Nat) : segPath no ≠ ledgerPath :=
  ne_ledgerPath_of_isSegment (isSegment_segPath no)

/-- A name `scan_existing` reads a number off. -/
theorem segmentNo_eq_some {name : FileName} {no : UInt64} :
    segmentNo name = some no ↔
      ∃ digits, name = segmentPrefix ++ digits ++ segmentSuffix ∧
        Decimal.parseU64 digits = some no := by
  unfold segmentNo
  simp only [Option.bind_eq_bind, Option.bind_eq_some_iff, List.dropPrefix?_eq_some_iff,
    List.dropSuffix?_eq_some_iff, beq_iff_eq]
  constructor
  · rintro ⟨rest, ⟨_, rfl, rfl⟩, digits, ⟨_, rfl, rfl⟩, hparse⟩
    exact ⟨digits, (List.append_assoc _ _ _).symm, hparse⟩
  · rintro ⟨digits, rfl, hparse⟩
    exact ⟨digits ++ segmentSuffix, ⟨segmentPrefix, List.append_assoc _ _ _, rfl⟩, digits,
      ⟨segmentSuffix, rfl, rfl⟩, hparse⟩

/-- **Scanning reads back what was formatted.** -/
theorem segmentNo_segPath {no : Nat} (h : no < 2 ^ 64) :
    segmentNo (segPath no) = some (UInt64.ofNat no) := by
  refine segmentNo_eq_some.mpr ⟨Decimal.pad 4 no, rfl, ?_⟩
  have hparse := Decimal.parseU64_pad (w := 4) (by decide) (UInt64.ofNat no)
  rwa [UInt64.toNat_ofNat', Nat.mod_eq_of_lt h] at hparse

theorem isSegment_of_segmentNo {name : FileName} {no : UInt64} (h : segmentNo name = some no) :
    isSegment name = true := by
  obtain ⟨digits, rfl, -⟩ := segmentNo_eq_some.mp h
  rw [isSegment, List.isPrefixOf_iff_prefix, List.append_assoc]
  exact List.prefix_append _ _

/-! ## The segments of a directory -/

/-- The names `existing_count` counts. -/
def segments (fs : FileSystem) : Finset FileName := (fs.names.filter isSegment).toFinset

theorem mem_segments {fs : FileSystem} {name : FileName} :
    name ∈ segments fs ↔ name ∈ fs ∧ isSegment name = true := by
  rw [segments, List.mem_toFinset, List.mem_filter, FileSystem.mem_names]

theorem existingCount_eq (fs : FileSystem) : existingCount fs = (segments fs).card := by
  rw [existingCount, segments, List.toFinset_card_of_nodup (fs.names_nodup.filter _)]

/-- The numbers of the segments that `seg_path` can format. -/
noncomputable def numbers (S : Finset FileName) : Finset Nat :=
  (S.preimage segPath segPath_injective.injOn).filter (· < 2 ^ 64)

/-- The segments it cannot. -/
noncomputable def foreign (S : Finset FileName) : Finset FileName := S \ (numbers S).image segPath

theorem mem_numbers {S : Finset FileName} {no : Nat} :
    no ∈ numbers S ↔ segPath no ∈ S ∧ no < 2 ^ 64 := by
  rw [numbers, Finset.mem_filter, Finset.mem_preimage]

theorem image_numbers_subset (S : Finset FileName) : (numbers S).image segPath ⊆ S := by
  intro name hname
  obtain ⟨no, hno, rfl⟩ := Finset.mem_image.mp hname
  exact (mem_numbers.mp hno).1

theorem mem_foreign {S : Finset FileName} {name : FileName} :
    name ∈ foreign S ↔ name ∈ S ∧ ∀ no, no < 2 ^ 64 → name ≠ segPath no := by
  rw [foreign, Finset.mem_sdiff, Finset.mem_image]
  constructor
  · rintro ⟨hname, hno⟩
    exact ⟨hname, fun no hlt heq => hno ⟨no, mem_numbers.mpr ⟨heq ▸ hname, hlt⟩, heq.symm⟩⟩
  · rintro ⟨hname, hno⟩
    refine ⟨hname, ?_⟩
    rintro ⟨no, hmem, rfl⟩
    exact hno no (mem_numbers.mp hmem).2 rfl

theorem card_eq_numbers_add_foreign (S : Finset FileName) :
    S.card = (numbers S).card + (foreign S).card := by
  rw [foreign, ← Finset.card_image_of_injective (numbers S) segPath_injective,
    Finset.card_sdiff_of_subset (image_numbers_subset S)]
  have hle := Finset.card_le_card (image_numbers_subset S)
  omega

end SovProbe
