import SovProbe.KeyedMap
import SovProbe.SegmentNames

/-! # The eviction loop

`enforce_budget` does not look for the oldest segment: it counts `min_no` up and
removes the name `seg_path` gives to it, until the directory is within the budget.
Its effect after `k` iterations is a set, `sweep`, and the loop stops at the first
`k` at which that set is small enough, if there is one (`holds_enforceBudget`).

Everything else it does is housekeeping: the ledger is written, and no other file
is touched.
-/

namespace SovProbe
open Process

/-! ## Housekeeping -/

/-- What the ledger and the evictions leave alone: no name appears but the ledger's,
none changes its file, and no inode but the ledger's changes its content. -/
structure Housekeeping (fs t : FileSystem) : Prop where
  created : t.created = fs.created
  lookup : ∀ {name i}, name ≠ ledgerPath → t.dir.lookup name = some i → fs.dir.lookup name = some i
  ledger : ∀ {i}, t.dir.lookup ledgerPath = some i →
    fs.dir.lookup ledgerPath = some i ∨ fs.inodes.length ≤ i
  length : fs.inodes.length ≤ t.inodes.length
  content : ∀ {i}, i < fs.inodes.length → fs.dir.lookup ledgerPath ≠ some i →
    t.content i = fs.content i

namespace Housekeeping
variable {fs t u : FileSystem}

theorem refl (fs : FileSystem) : Housekeeping fs fs :=
  ⟨rfl, fun _ h => h, Or.inl, Nat.le_refl _, fun _ _ => rfl⟩

theorem trans (hft : Housekeeping fs t) (htu : Housekeeping t u) : Housekeeping fs u where
  created := htu.created.trans hft.created
  lookup hname h := hft.lookup hname (htu.lookup hname h)
  ledger h := by
    rcases htu.ledger h with ht | hle
    · exact hft.ledger ht
    · exact Or.inr (Nat.le_trans hft.length hle)
  length := Nat.le_trans hft.length htu.length
  content {i} hi hledger := by
    have ht : t.dir.lookup ledgerPath ≠ some i := by
      intro hlookup
      rcases hft.ledger hlookup with hfs | hle
      · exact hledger hfs
      · exact absurd hi (Nat.not_lt.mpr hle)
    rw [htu.content (Nat.lt_of_lt_of_le hi hft.length) ht, hft.content hi hledger]

theorem remove (fs : FileSystem) {name : FileName} (hname : name ≠ ledgerPath) :
    Housekeeping fs (fs.remove name) where
  created := rfl
  lookup _ h := (AList.lookup_erase_eq_some.mp h).2
  ledger h := by
    rw [FileSystem.dir_remove, AList.lookup_erase_ne (Ne.symm hname)] at h
    exact Or.inl h
  length := Nat.le_refl _
  content _ _ := rfl

theorem linkLedger (fs : FileSystem) : Housekeeping fs (fs.link ledgerPath) where
  created := rfl
  lookup hname h := by
    rwa [FileSystem.dir_link, AList.lookup_insert_ne hname] at h
  ledger h := by
    rw [FileSystem.dir_link, AList.lookup_insert] at h
    exact Or.inr (Nat.le_of_eq (Option.some.inj h))
  length := by
    rw [FileSystem.length_link]
    exact Nat.le_succ _
  content hi _ := FileSystem.content_link hi

theorem setLedger {i : Nat} (hi : fs.dir.lookup ledgerPath = some i) (bytes : List UInt8) :
    Housekeeping fs (fs.setContent i bytes) where
  created := rfl
  lookup _ h := h
  ledger := Or.inl
  length := Nat.le_of_eq FileSystem.length_setContent.symm
  content {j} _ hledger := by
    refine FileSystem.content_setContent_ne ?_
    rintro rfl
    exact hledger hi

end Housekeeping

@[simp] theorem segments_remove (fs : FileSystem) (name : FileName) :
    segments (fs.remove name) = (segments fs).erase name := by
  ext name'
  rw [Finset.mem_erase, mem_segments, mem_segments, FileSystem.mem_remove, and_assoc]

@[simp] theorem segments_setContent (fs : FileSystem) (i : Nat) (bytes : List UInt8) :
    segments (fs.setContent i bytes) = segments fs := rfl

theorem segments_linkLedger (fs : FileSystem) : segments (fs.link ledgerPath) = segments fs := by
  ext name
  rw [mem_segments, mem_segments, FileSystem.mem_link]
  constructor
  · rintro ⟨rfl | hmem, hname⟩
    · exact absurd rfl (ne_ledgerPath_of_isSegment hname)
    · exact ⟨hmem, hname⟩
  · rintro ⟨hmem, hname⟩
    exact ⟨Or.inr hmem, hname⟩

/-- The ledger is housekeeping. -/
theorem holds_persistLedger {crash : FileSystem → Prop} {post : Post FileSystem Rotator Unit}
    {fs : FileSystem} {r : Rotator} (writeCursor : UInt64) (cursor : Option UInt64)
    (hcrash : ∀ t, Housekeeping fs t → segments t = segments fs → crash t)
    (hdone : ∀ t, Housekeeping fs t → segments t = segments fs → post.done () t r) :
    (Rotator.persistLedger writeCursor cursor).Holds crash post fs r := by
  -- writing to the ledger once it is open, whatever the line is
  have hwrite : ∀ (fs' : FileSystem) (i : Nat) (line : List UInt8), Housekeeping fs fs' →
      segments fs' = segments fs → fs'.dir.lookup ledgerPath = some i →
      (do write (·.setContent i []); writeAll i line : Process FileSystem Rotator Unit).Holds
        crash post fs' r := by
    intro fs' i line hkeep hsegments hledger
    have htruncated : Housekeeping fs (fs'.setContent i []) :=
      hkeep.trans (Housekeeping.setLedger hledger [])
    have hledger' : (fs'.setContent i []).dir.lookup ledgerPath = some i := hledger
    have happended : ∀ bytes, Housekeeping fs ((fs'.setContent i []).append i bytes) :=
      fun _ => htruncated.trans (Housekeeping.setLedger hledger' _)
    simp only [holds_bind, holds_write, holds_writeAll]
    exact ⟨hcrash _ htruncated hsegments, fun k _ => hcrash _ (happended _) hsegments,
      hdone _ (happended _) hsegments⟩
  have hline : ∀ line, (do let f ← openTruncate ledgerPath; writeAll f line :
      Process FileSystem Rotator Unit).Holds crash post fs r := by
    intro line
    simp only [openTruncate, holds_bind, holds_openAppend]
    cases hlookup : fs.dir.lookup ledgerPath with
    | some i =>
      have := hwrite fs i line (Housekeeping.refl fs) rfl hlookup
      simpa using this
    | none =>
      have hlinked := Housekeeping.linkLedger fs
      have hsegments := segments_linkLedger fs
      have := hwrite (fs.link ledgerPath) fs.inodes.length line hlinked hsegments
        (AList.lookup_insert _)
      refine ⟨hcrash _ hlinked hsegments, ?_⟩
      simpa using this
  unfold Rotator.persistLedger
  cases cursor with
  | some cursor => simpa using hline _
  | none => simpa using hline _

/-! ## What the loop removes -/

/-- The names left of `S` after `k` iterations from `start` on. -/
def sweep (S : Finset FileName) (start : Nat) (k : Nat) : Finset FileName :=
  S \ (Finset.range k).image fun j => segPath ((start + j) % 2 ^ 64)

@[simp] theorem sweep_zero (S : Finset FileName) (start : Nat) : sweep S start 0 = S := by
  rw [sweep, Finset.range_zero, Finset.image_empty, Finset.sdiff_empty]

theorem mem_sweep {S : Finset FileName} {start k : Nat} {name : FileName} :
    name ∈ sweep S start k ↔ name ∈ S ∧ ∀ j, j < k → name ≠ segPath ((start + j) % 2 ^ 64) := by
  rw [sweep, Finset.mem_sdiff, Finset.mem_image]
  refine and_congr_right fun _ => ?_
  constructor
  · intro h j hj heq
    exact h ⟨j, Finset.mem_range.mpr hj, heq.symm⟩
  · rintro h ⟨j, hj, heq⟩
    exact h j (Finset.mem_range.mp hj) heq.symm

theorem sweep_succ (S : Finset FileName) (start k : Nat) :
    sweep S start (k + 1) = (sweep S start k).erase (segPath ((start + k) % 2 ^ 64)) := by
  ext name
  rw [Finset.mem_erase, mem_sweep, mem_sweep]
  constructor
  · rintro ⟨hS, h⟩
    exact ⟨h k (Nat.lt_succ_self k), hS, fun j hj => h j (Nat.lt_succ_of_lt hj)⟩
  · rintro ⟨hk, hS, h⟩
    refine ⟨hS, fun j hj => ?_⟩
    rcases Nat.lt_succ_iff_lt_or_eq.mp hj with hlt | rfl
    · exact h j hlt
    · exact hk

/-- The loop after its first iteration. -/
theorem sweep_erase (S : Finset FileName) {start : Nat} (hstart : start < 2 ^ 64) (k : Nat) :
    sweep (S.erase (segPath start)) ((start + 1) % 2 ^ 64) k = sweep S start (k + 1) := by
  induction k with
  | zero => rw [sweep_zero, sweep_succ, sweep_zero, Nat.add_zero, Nat.mod_eq_of_lt hstart]
  | succ k ih =>
    rw [sweep_succ, ih, sweep_succ S start (k + 1)]
    congr 2
    omega

theorem card_sweep_le_succ (S : Finset FileName) (start k : Nat) :
    (sweep S start k).card ≤ (sweep S start (k + 1)).card + 1 := by
  rw [sweep_succ]
  have := Finset.pred_card_le_card_erase (s := sweep S start k)
    (a := segPath ((start + k) % 2 ^ 64))
  omega

/-- The directory in the course of the loop: `k` names have been passed, each of them
while there were too many segments. -/
structure Swept (fs : FileSystem) (r : Rotator) (k : Nat) (t : FileSystem) : Prop where
  housekeeping : Housekeeping fs t
  segments_eq : segments t = sweep (segments fs) r.minNo.toNat k
  overfull : ∀ j, j < k → r.maxSegments < (sweep (segments fs) r.minNo.toNat j).card

namespace Swept
variable {fs t : FileSystem} {r : Rotator} {k : Nat}

theorem zero (fs : FileSystem) (r : Rotator) : Swept fs r 0 fs :=
  ⟨Housekeeping.refl fs, (sweep_zero _ _).symm, fun _ hj => absurd hj (Nat.not_lt_zero _)⟩

/-- The first iteration of the loop and what follows it. -/
theorem sweep_next {fs₁ : FileSystem} {r : Rotator}
    (hsegments : segments fs₁ = (segments fs).erase (segPath r.minNo.toNat)) (j : Nat) :
    sweep (segments fs₁) (r.minNo + 1).toNat j = sweep (segments fs) r.minNo.toNat (j + 1) := by
  have hnext : (r.minNo + 1).toNat = (r.minNo.toNat + 1) % 2 ^ 64 := UInt64.toNat_add _ _
  rw [hsegments, hnext, sweep_erase _ r.minNo.toNat_lt]

theorem succ {fs₁ : FileSystem} (hover : r.maxSegments < (segments fs).card)
    (hkeep : Housekeeping fs fs₁)
    (hsegments : segments fs₁ = (segments fs).erase (segPath r.minNo.toNat))
    (h : Swept fs₁ { r with minNo := r.minNo + 1 } k t) : Swept fs r (k + 1) t := by
  refine ⟨hkeep.trans h.housekeeping, by rw [h.segments_eq, sweep_next hsegments], fun j hj => ?_⟩
  cases j with
  | zero => rwa [sweep_zero]
  | succ j =>
    rw [← sweep_next hsegments]
    exact h.overfull j (Nat.lt_of_succ_lt_succ hj)

end Swept

/-- How the loop ends: at a sweep that is within the budget, or when its fuel is used up
before there is one. -/
def evictionEnd (fuel : Nat) (fs : FileSystem) (r : Rotator) : Post FileSystem Rotator Unit where
  done _ t r' := ∃ k, Swept fs r k t ∧
    (sweep (segments fs) r.minNo.toNat k).card ≤ r.maxSegments ∧
    r' = { r with minNo := r.minNo + UInt64.ofNat k }
  failed _ _ := False
  running := ∀ j, j < fuel → r.maxSegments < (sweep (segments fs) r.minNo.toNat j).card

/-- The rest of an iteration and of the loop, once the oldest name is gone. -/
theorem holds_evictionRest {fuel : Nat} {fs fs₀ : FileSystem} {r : Rotator}
    (hcount : r.maxSegments < (segments fs).card) (hkeep : Housekeeping fs fs₀)
    (hsegments : segments fs₀ = (segments fs).erase (segPath r.minNo.toNat))
    (hloop : ∀ fs r, (Rotator.enforceBudget fuel).Holds (fun t => ∃ k, Swept fs r k t)
      (evictionEnd fuel fs r) fs r) :
    (do
      modify fun self : Rotator => { self with minNo := self.minNo + 1 }
      let self ← get
      Rotator.persistLedger self.segNo (some self.minNo)
      Rotator.enforceBudget fuel : Process FileSystem Rotator Unit).Holds
      (fun t => ∃ k, Swept fs r k t) (evictionEnd (fuel + 1) fs r) fs₀ r := by
  rw [holds_modify_bind, holds_get_bind, holds_bind]
  refine holds_persistLedger _ _ (fun t hk hs => ?_) (fun t hk hs => ?_)
  · exact ⟨1, Swept.succ hcount (hkeep.trans hk) (hs.trans hsegments) (Swept.zero t _)⟩
  · have hk' := hkeep.trans hk
    have hs' := hs.trans hsegments
    refine (hloop t { r with minNo := r.minNo + 1 }).mono ?_ ?_ (fun _ _ h => h) ?_
    · rintro u ⟨k, hu⟩
      exact ⟨k + 1, Swept.succ hcount hk' hs' hu⟩
    · rintro - u r' ⟨k, hu, hle, rfl⟩
      refine ⟨k + 1, Swept.succ hcount hk' hs' hu, ?_, ?_⟩
      · rwa [← Swept.sweep_next hs']
      · have hmin : r.minNo + 1 + UInt64.ofNat k = r.minNo + UInt64.ofNat (k + 1) := by
          rw [UInt64.ofNat_add, UInt64.add_assoc, UInt64.add_comm 1]
          rfl
        simp only [hmin]
    · intro hrunning j hj
      cases j with
      | zero => rwa [sweep_zero]
      | succ j =>
        rw [← Swept.sweep_next hs']
        exact hrunning j (Nat.lt_of_succ_lt_succ hj)

/-- **What the eviction loop does**, from any directory and any state of the rotator.
With fuel left it stops at the first sweep that is within the budget. -/
theorem holds_enforceBudget (fuel : Nat) (fs : FileSystem) (r : Rotator) :
    (Rotator.enforceBudget fuel).Holds (fun t => ∃ k, Swept fs r k t) (evictionEnd fuel fs r)
      fs r := by
  induction fuel generalizing fs r with
  | zero => exact holds_stuck.mpr nofun
  | succ fuel ih =>
    unfold Rotator.enforceBudget
    simp only [holds_bind, holds_read, holds_get, existingCount_eq]
    by_cases hcount : (segments fs).card ≤ r.maxSegments
    · rw [if_pos hcount, holds_pure]
      refine ⟨0, Swept.zero fs r, by rwa [sweep_zero], ?_⟩
      exact congrArg (fun minNo => { r with minNo }) (UInt64.add_zero _).symm
    rw [if_neg hcount]
    rw [Nat.not_le] at hcount
    by_cases hexists : segPath r.minNo.toNat ∈ fs
    · have hcontains : fs.contains (segPath r.minNo.toNat) = true := decide_eq_true hexists
      have hkeep := Housekeeping.remove fs (segPath_ne_ledgerPath r.minNo.toNat)
      have hrest := holds_evictionRest hcount hkeep (segments_remove _ _) ih
      simp only [holds_bind, holds_read, hcontains, if_true, holds_removeFile]
      refine ⟨fun _ => ⟨?_, ?_⟩, fun hnot => (hnot hexists).elim⟩
      · exact ⟨1, Swept.succ hcount hkeep (segments_remove _ _) (Swept.zero _ _)⟩
      · simpa only [holds_bind] using hrest
    · have hcontains : fs.contains (segPath r.minNo.toNat) = false := decide_eq_false hexists
      have herase : segments fs = (segments fs).erase (segPath r.minNo.toNat) := by
        rw [Finset.erase_eq_of_notMem fun hmem => hexists (mem_segments.mp hmem).1]
      have hrest := holds_evictionRest hcount (Housekeeping.refl fs) herase ih
      simp only [holds_bind, holds_read, hcontains, Bool.false_eq_true, if_false]
      simpa only [holds_bind] using hrest

end SovProbe
