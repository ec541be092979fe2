import SovProbe.NextSegment
import SovProbe.SegmentScan
import SovProbe.Transition

/-! # Numbers that are used again

A process numbers its segments upwards, and a new process goes on from the largest
number that it finds in the directory.  Segments are deleted: by the consumer who has
read them, by an operator, by the eviction.  So the numbers of a new process are above
all earlier ones iff a segment that is still there is (`covered_iff`); the write
cursor in the ledger, which survives, is not asked.

`never_reused` says that no number is used twice in a history whose restarts all find
such a segment, and that after any other restart some history does use one twice.
-/

namespace SovProbe
open Process

/-- What happens to the directory. -/
inductive SegmentOp where
  | nextSegment (fuel : Nat)
  /-- A call of `next_segment` in which the process dies, after step `i` on the disk. -/
  | crash (fuel i : Nat)
  /-- A new process, after a crash or between two calls. -/
  | restart
  /-- Someone else removes a segment. -/
  | delete (name : FileName)
  deriving DecidableEq, Repr

/-- The directory, the process, the numbers of all segments made so far, and whether the
process lives. -/
structure Numbering where
  disk : FileSystem
  rotator : Rotator
  allocated : List UInt64
  running : Bool

namespace Numbering

/-- One operation, where it returns.  The first step of a call on the disk makes the
segment; a call that fails has made none. -/
def step (maxSegments : Nat) (s : Numbering) : SegmentOp → Option Numbering
  | .nextSegment fuel =>
    if s.running then
      match (Rotator.nextSegment fuel s.disk s.rotator).outcome with
      | .done _ disk rotator =>
        some { s with disk, rotator, allocated := s.allocated ++ [s.rotator.segNo] }
      | .failed disk rotator => some { s with disk, rotator }
      | .running => none
    else none
  | .crash fuel i =>
    if s.running then
      (Rotator.nextSegment fuel s.disk s.rotator).trace[i]?.map fun disk =>
        { s with disk, allocated := s.allocated ++ [s.rotator.segNo], running := false }
    else none
  | .restart =>
    (Rotator.new maxSegments s.disk).map fun rotator => { s with rotator, running := true }
  | .delete name => if isSegment name then some { s with disk := s.disk.remove name } else none

/-- A segment that is still there has a number at or above every one of `allocated`,
and the largest number there is has a successor. -/
def Covered (fs : FileSystem) (allocated : List UInt64) : Prop :=
  ∀ a ∈ allocated, (∃ name ∈ fs, ∃ no, segmentNo name = some no ∧ a ≤ no) ∧
    ∀ name ∈ fs, ∀ no, segmentNo name = some no → no.toNat + 1 < 2 ^ 64

/-- After the operation the next number of a living process is above all those allocated. -/
def Safe (s : Numbering) : SegmentOp → Prop
  | .nextSegment _ => s.rotator.segNo.toNat + 1 < 2 ^ 64 ∨
      s.allocated = [] ∧ s.rotator.wanted ∈ s.disk
  | .crash _ _ => True
  | .restart => Covered s.disk s.allocated
  | .delete _ => True

instance (fs : FileSystem) (allocated : List UInt64) : Decidable (Covered fs allocated) :=
  decidable_of_iff (allocated.all (fun a =>
      fs.names.any (fun name => (segmentNo name).any (a ≤ ·)) &&
        fs.names.all fun name => (segmentNo name).all (·.toNat + 1 < 2 ^ 64)) = true) <| by
    simp only [Covered, FileSystem.mem_names, List.all_eq_true, List.any_eq_true, Bool.and_eq_true,
      Option.any_eq_true, Option.all_eq_true, decide_eq_true_eq]

instance (s : Numbering) (op : SegmentOp) : Decidable (Safe s op) :=
  match op with
  | .nextSegment _ => inferInstanceAs (Decidable (_ ∨ _ ∧ _))
  | .crash _ _ => inferInstanceAs (Decidable True)
  | .restart => inferInstanceAs (Decidable (Covered _ _))
  | .delete _ => inferInstanceAs (Decidable True)

/-- All numbers allocated are below the next. -/
def Below (s : Numbering) : Prop := ∀ a ∈ s.allocated, a < s.rotator.segNo

variable {maxSegments : Nat} {s t : Numbering} {op : SegmentOp} {fs : FileSystem} {r : Rotator}

/-! ## What a new process finds -/

theorem new_eq_some (h : Rotator.new maxSegments fs = some r) :
    1 ≤ maxSegments ∧ r.maxSegments = maxSegments ∧ r.segNo = (scanExisting fs).1 := by
  unfold Rotator.new at h
  split at h
  · rename_i hmax
    rw [← Option.some.inj h]
    exact ⟨hmax, rfl, rfl⟩
  · cases h

/-- **The next number of a new process is above all earlier ones** iff a segment that
covers them is still there. -/
theorem covered_iff (h : Rotator.new maxSegments fs = some r) (allocated : List UInt64) :
    (∀ a ∈ allocated, a < r.segNo) ↔ Covered fs allocated := by
  obtain ⟨-, -, hsegNo⟩ := new_eq_some h
  obtain ⟨max, min, hscan, heq⟩ := scanExisting_eq fs
  rw [hsegNo, heq]
  refine forall₂_congr fun a _ => ?_
  cases max with
  | none =>
    constructor
    · intro hlt
      exact absurd hlt (Nat.not_lt_zero _)
    · rintro ⟨⟨name, hname, no, hno, -⟩, -⟩
      obtain ⟨M, -, hM, -⟩ := hscan.bounds name hname no hno
      cases hM
  | some M =>
    obtain ⟨last, hlast, hM⟩ := hscan.max_mem M rfl
    rw [Option.elim_some]
    have hbound : ∀ name ∈ fs, ∀ no, segmentNo name = some no → no.toNat ≤ M.toNat := by
      intro name hname no hno
      obtain ⟨M', -, hM', -, hle, -⟩ := hscan.bounds name hname no hno
      rw [← Option.some.inj hM'] at hle
      exact UInt64.le_iff_toNat_le.mp hle
    have hnext : (M + 1).toNat = (M.toNat + 1) % 2 ^ 64 := UInt64.toNat_add _ _
    have hlt := M.toNat_lt
    rw [UInt64.lt_iff_toNat_lt, hnext]
    constructor
    · intro hbelow
      refine ⟨⟨last, hlast, M, hM, UInt64.le_iff_toNat_le.mpr (by omega)⟩, ?_⟩
      intro name hname no hno
      have hle := hbound name hname no hno
      omega
    · rintro ⟨⟨name, hname, no, hno, ha⟩, hroom⟩
      have hle := hbound name hname no hno
      have hsucc := hroom last hlast M hM
      rw [UInt64.le_iff_toNat_le] at ha
      omega

/-! ## One operation -/

theorem succ_toNat (h : r.segNo.toNat + 1 < 2 ^ 64) : (r.segNo + 1).toNat = r.segNo.toNat + 1 := by
  rw [UInt64.toNat_add]
  exact Nat.mod_eq_of_lt h

/-- The number after the next is above it unless it wraps. -/
theorem lt_succ_iff (r : Rotator) : r.segNo < r.segNo + 1 ↔ r.segNo.toNat + 1 < 2 ^ 64 := by
  have hnext : (r.segNo + 1).toNat = (r.segNo.toNat + 1) % 2 ^ 64 := UInt64.toNat_add _ _
  have hlt := r.segNo.toNat_lt
  rw [UInt64.lt_iff_toNat_lt, hnext]
  omega

/-- Numbers below the next stay below the one after it, if that does not wrap. -/
theorem Below.advanced (h : Below s) (hroom : s.rotator.segNo.toNat + 1 < 2 ^ 64) :
    ∀ a ∈ s.allocated, a < s.rotator.segNo + 1 := by
  intro a ha
  have hlt := UInt64.lt_iff_toNat_lt.mp (h a ha)
  rw [UInt64.lt_iff_toNat_lt, succ_toNat hroom]
  omega

/-- A state in which the next number is new. -/
structure Fresh (s : Numbering) : Prop where
  nodup : s.allocated.Nodup
  below : s.running = true → Below s
  budget : 1 ≤ s.rotator.maxSegments

theorem Fresh.nodup_concat (h : Fresh s) (hrunning : s.running = true) :
    (s.allocated ++ [s.rotator.segNo]).Nodup := by
  refine List.nodup_append.mpr ⟨h.nodup, List.nodup_singleton _, fun a ha b hb => ?_⟩
  rintro rfl
  rw [List.mem_singleton] at hb
  have hlt := h.below hrunning a ha
  rw [hb] at hlt
  exact UInt64.lt_irrefl _ hlt

/-- A call that makes a segment leaves the next number above all iff it does not wrap. -/
theorem Fresh.below_concat_iff (h : Fresh s) (hrunning : s.running = true) :
    (∀ a ∈ s.allocated ++ [s.rotator.segNo], a < s.rotator.segNo + 1) ↔
      s.rotator.segNo.toNat + 1 < 2 ^ 64 := by
  constructor
  · intro hbelow
    exact (lt_succ_iff _).mp (hbelow _ (List.mem_append_right _ List.mem_cons_self))
  · intro hroom a ha
    rcases List.mem_append.mp ha with hold | hlast
    · exact (h.below hrunning).advanced hroom a hold
    · rw [List.mem_singleton.mp hlast]
      exact (lt_succ_iff _).mpr hroom

/-- A call that is refused counts on as well. -/
theorem Fresh.below_succ_iff (h : Fresh s) (hrunning : s.running = true) :
    (∀ a ∈ s.allocated, a < s.rotator.segNo + 1) ↔
      s.rotator.segNo.toNat + 1 < 2 ^ 64 ∨ s.allocated = [] := by
  constructor
  · intro hbelow
    by_cases hroom : s.rotator.segNo.toNat + 1 < 2 ^ 64
    · exact Or.inl hroom
    · refine Or.inr (List.eq_nil_iff_forall_not_mem.mpr fun a ha => ?_)
      have hlt' : a.toNat < (s.rotator.segNo + 1).toNat := UInt64.lt_iff_toNat_lt.mp (hbelow a ha)
      have hmax := s.rotator.segNo.toNat_lt
      have hwrap : (s.rotator.segNo + 1).toNat = (s.rotator.segNo.toNat + 1) % 2 ^ 64 :=
        UInt64.toNat_add _ _
      omega
  · rintro (hroom | hnone) a ha
    · exact (h.below hrunning).advanced hroom a ha
    · rw [hnone] at ha
      exact absurd ha List.not_mem_nil

/-- **What an operation does to the numbers.**  It allocates none twice, and the next
number of a living process is above them all again iff the operation is safe. -/
theorem Fresh.step (h : Fresh s) (hstep : step maxSegments s op = some t) :
    t.allocated.Nodup ∧ 1 ≤ t.rotator.maxSegments ∧ ((t.running = true → Below t) ↔ Safe s op) := by
  cases op with
  | nextSegment fuel =>
    have hcall := holds_nextSegment fuel s.disk s.rotator
    rw [Numbering.step] at hstep
    split at hstep
    · rename_i hrunning
      cases hout : (Rotator.nextSegment fuel s.disk s.rotator).outcome with
      | running =>
        rw [hout] at hstep
        cases hstep
      | done name disk rotator =>
        obtain ⟨hnew, -, k, -, -, rfl⟩ := hcall.done hout
        rw [hout] at hstep
        rw [← Option.some.inj hstep]
        refine ⟨h.nodup_concat hrunning, h.budget, ?_⟩
        rw [Safe, or_iff_left fun hrefused => hnew hrefused.2]
        exact (imp_iff_right hrunning).trans (h.below_concat_iff hrunning)
      | failed disk rotator =>
        obtain ⟨htaken, rfl, rfl⟩ := hcall.failed hout
        rw [hout] at hstep
        rw [← Option.some.inj hstep]
        refine ⟨h.nodup, h.budget, (imp_iff_right hrunning).trans ?_⟩
        rw [Safe, and_iff_left htaken]
        exact h.below_succ_iff hrunning
    · cases hstep
  | crash fuel i =>
    rw [Numbering.step] at hstep
    split at hstep
    · rename_i hrunning
      obtain ⟨disk, -, rfl⟩ := Option.map_eq_some_iff.mp hstep
      exact ⟨h.nodup_concat hrunning, h.budget, fun _ => trivial, fun _ hdead => nomatch hdead⟩
    · cases hstep
  | restart =>
    obtain ⟨rotator, hnew, rfl⟩ := Option.map_eq_some_iff.mp hstep
    obtain ⟨hmax, hmax', -⟩ := new_eq_some hnew
    exact ⟨h.nodup, hmax' ▸ hmax, (imp_iff_right rfl).trans (covered_iff hnew s.allocated)⟩
  | delete name =>
    rw [Numbering.step] at hstep
    split at hstep
    · rw [← Option.some.inj hstep]
      exact ⟨h.nodup, h.budget, fun _ => trivial, fun _ => h.below⟩
    · cases hstep

/-- **Numbers stay fresh** in a history whose operations are all safe. -/
theorem fresh_of_guarded {start : Numbering} (h : Fresh start) {ops : List SegmentOp}
    (hok : Transition.Guarded (Numbering.step maxSegments) Safe start ops)
    (hrun : Transition.run (Numbering.step maxSegments) start ops = some s) : Fresh s := by
  refine Transition.run_invariant_of_guarded (fun s op t hs hsafe hstep => ?_) h hok hrun
  obtain ⟨hnodup, hbudget, hbelow⟩ := hs.step hstep
  exact ⟨hnodup, hbelow.mpr hsafe, hbudget⟩

/-! ## After an operation that is not safe -/

/-- A call in a directory without segments returns, and its segment is the only one. -/
theorem nextSegment_of_empty (maxSegments : Nat) (hempty : segments s.disk = ∅)
    (hbudget : 1 ≤ s.rotator.maxSegments) (hrunning : s.running = true) :
    ∃ t, step maxSegments s (.nextSegment 1) = some t ∧ t.running = true ∧
      t.rotator.segNo = s.rotator.segNo + 1 ∧ t.rotator.maxSegments = s.rotator.maxSegments ∧
      t.allocated = s.allocated ++ [s.rotator.segNo] ∧
      segments (t.disk.remove s.rotator.wanted) = ∅ := by
  have hcall := holds_nextSegment 1 s.disk s.rotator
  have hone : s.rotator.candidates s.disk = {s.rotator.wanted} := by
    rw [Rotator.candidates, hempty]
    rfl
  cases hout : (Rotator.nextSegment 1 s.disk s.rotator).outcome with
  | running =>
    have hover := (hcall.running hout).2 0 (Nat.lt_succ_self 0)
    rw [sweep_zero, hone, Finset.card_singleton] at hover
    exact absurd hbudget (Nat.not_le.mpr hover)
  | failed disk rotator =>
    have htaken : s.rotator.wanted ∈ segments s.disk :=
      mem_segments.mpr ⟨(hcall.failed hout).1, isSegment_segPath _⟩
    rw [hempty] at htaken
    exact absurd htaken (Finset.notMem_empty _)
  | done name disk rotator =>
    obtain ⟨-, -, k, hswept, -, hrotator⟩ := hcall.done hout
    refine ⟨⟨disk, rotator, s.allocated ++ [s.rotator.segNo], s.running⟩,
      by rw [step, if_pos hrunning, hout], hrunning, by rw [hrotator]; rfl, by rw [hrotator]; rfl,
      rfl, ?_⟩
    rw [segments_remove, hswept.segments_swept, hone]
    refine Finset.eq_empty_iff_forall_notMem.mpr fun other hother => ?_
    obtain ⟨hne, hmem⟩ := Finset.mem_erase.mp hother
    exact hne (Finset.mem_singleton.mp (mem_sweep.mp hmem).1)

/-- All segments can be deleted. -/
theorem exists_cleared (maxSegments : Nat) (s : Numbering) :
    ∃ ops disk, Transition.run (step maxSegments) s ops = some { s with disk } ∧
      segments disk = ∅ := by
  induction hcard : (segments s.disk).card generalizing s with
  | zero => exact ⟨[], s.disk, rfl, Finset.card_eq_zero.mp hcard⟩
  | succ n ih =>
    obtain ⟨name, hname⟩ := Finset.card_pos.mp (by omega : 0 < (segments s.disk).card)
    have hleft : (segments (s.disk.remove name)).card = n := by
      rw [segments_remove, Finset.card_erase_of_mem hname, hcard, Nat.add_sub_cancel]
    obtain ⟨ops, disk, hrun, hempty⟩ := ih { s with disk := s.disk.remove name } hleft
    refine ⟨.delete name :: ops, disk, ?_, hempty⟩
    rw [Transition.run_cons, step, if_pos (mem_segments.mp hname).2, Option.bind_some]
    exact hrun

/-- From a directory without segments the process counts up to a number already used. -/
theorem exists_reused (maxSegments : Nat) {a : UInt64} (d : Nat) :
    ∀ s : Numbering, segments s.disk = ∅ →
    1 ≤ s.rotator.maxSegments → s.running = true → a ∈ s.allocated →
    s.rotator.segNo.toNat + d = a.toNat →
    ∃ ops t, Transition.run (step maxSegments) s ops = some t ∧ ¬ t.allocated.Nodup := by
  induction d with
  | zero =>
    intro s hempty hbudget hrunning ha hdist
    obtain ⟨t, hstep, -, -, -, hallocated, -⟩ :=
      nextSegment_of_empty maxSegments hempty hbudget hrunning
    refine ⟨[.nextSegment 1], t, by rw [Transition.run_cons, hstep]; rfl, fun hnodup => ?_⟩
    have hsame : s.rotator.segNo = a := UInt64.toNat_inj.mp hdist
    rw [hallocated, hsame] at hnodup
    exact (List.nodup_append.mp hnodup).2.2 a ha a List.mem_cons_self rfl
  | succ d ih =>
    intro s hempty hbudget hrunning ha hdist
    obtain ⟨t, hstep, hrunning', hsegNo, hbudget', hallocated, hcleared⟩ :=
      nextSegment_of_empty maxSegments hempty hbudget hrunning
    have hlt := a.toNat_lt
    have hsucc : (s.rotator.segNo + 1).toNat = s.rotator.segNo.toNat + 1 := succ_toNat (by omega)
    obtain ⟨ops, u, hrun, hreused⟩ := ih { t with disk := t.disk.remove s.rotator.wanted } hcleared
      (by rw [hbudget']; exact hbudget) hrunning'
      (by rw [hallocated]; exact List.mem_append_left _ ha)
      (by rw [hsegNo, hsucc]; omega)
    refine ⟨.nextSegment 1 :: .delete s.rotator.wanted :: ops, u, ?_, hreused⟩
    have hsegment : isSegment s.rotator.wanted = true := isSegment_segPath _
    have hdelete : step maxSegments t (.delete s.rotator.wanted) =
        some { t with disk := t.disk.remove s.rotator.wanted } := by rw [step, if_pos hsegment]
    rw [Transition.run_cons, hstep, Option.bind_some, Transition.run_cons, hdelete,
      Option.bind_some]
    exact hrun

/-- Once a number used is not below the next, it can be used again. -/
theorem reused_of_not_below (hbudget : 1 ≤ s.rotator.maxSegments) (hrunning : s.running = true)
    (h : ¬ Below s) :
    ∃ ops t, Transition.run (step maxSegments) s ops = some t ∧ ¬ t.allocated.Nodup := by
  simp only [Below, not_forall] at h
  obtain ⟨a, ha, hle⟩ := h
  rw [UInt64.lt_iff_toNat_lt, Nat.not_lt] at hle
  obtain ⟨ops, disk, hrun, hempty⟩ := exists_cleared maxSegments s
  obtain ⟨more, t, hmore, hreused⟩ := exists_reused maxSegments
    (a.toNat - s.rotator.segNo.toNat) { s with disk } hempty hbudget hrunning ha (by
      show s.rotator.segNo.toNat + _ = _
      omega)
  refine ⟨ops ++ more, t, ?_, hreused⟩
  rw [Transition.run_append, hrun, Option.bind_some]
  exact hmore

/-- A process just started, before it has made a segment. -/
theorem fresh_new (hnew : Rotator.new maxSegments fs = some r) : Fresh ⟨fs, r, [], true⟩ := by
  obtain ⟨hmax, hmax', -⟩ := new_eq_some hnew
  exact ⟨List.nodup_nil, fun _ a ha => absurd ha List.not_mem_nil, hmax' ▸ hmax⟩

/-- **No number is used twice while every operation is safe**, whatever calls, crashes,
restarts and deletions there are and whatever was in the directory before; and after an
operation that is not, there is a way to use one twice. -/
theorem never_reused (hnew : Rotator.new maxSegments fs = some r) {ops : List SegmentOp}
    (hrun : Transition.run (step maxSegments) ⟨fs, r, [], true⟩ ops = some s)
    (hok : Transition.Guarded (step maxSegments) Safe ⟨fs, r, [], true⟩ ops) :
    s.allocated.Nodup ∧
      ∀ op t, step maxSegments s op = some t → ¬ Safe s op →
        ∃ more u, Transition.run (step maxSegments) t more = some u ∧ ¬ u.allocated.Nodup := by
  have hfresh := fresh_of_guarded (fresh_new hnew) hok hrun
  refine ⟨hfresh.nodup, fun op t hstep hunsafe => ?_⟩
  obtain ⟨-, hbudget, hbelow⟩ := hfresh.step hstep
  have hlate : t.running = true ∧ ¬ Below t :=
    Classical.not_imp.mp fun hall => hunsafe (hbelow.mp hall)
  exact reused_of_not_below hbudget hlate.1 hlate.2

/-- Two segments, of which the first is read and deleted; a third in whose making the process
dies; and one of the next process. -/
theorem never_reused_restart : ∃ s,
    Transition.run (step 8) ⟨FileSystem.empty, ⟨8, 0, 0⟩, [], true⟩
      [.nextSegment 1, .nextSegment 1, .delete (segPath 0), .crash 1 0, .restart,
        .nextSegment 1] = some s ∧
      s.allocated = [0, 1, 2, 3] ∧ s.allocated.Nodup := by
  have hnew : Rotator.new 8 FileSystem.empty = some ⟨8, 0, 0⟩ := by decide
  have hchecked : (Transition.run (Transition.checked (step 8) Safe)
      ⟨FileSystem.empty, ⟨8, 0, 0⟩, [], true⟩
      [.nextSegment 1, .nextSegment 1, .delete (segPath 0), .crash 1 0, .restart,
        .nextSegment 1]).map (fun s => s.allocated) = some [0, 1, 2, 3] := by decide +kernel
  obtain ⟨s, hs, hallocated⟩ := Option.map_eq_some_iff.mp hchecked
  obtain ⟨hsafe, hrun⟩ := Transition.guarded_of_checked hs
  exact ⟨s, hrun, hallocated, (never_reused hnew hrun hsafe).1⟩

/-- **A number is used twice**: the first segment is read and deleted, and a new process
starts from 0 again. -/
theorem number_reused :
    ¬ ∀ (maxSegments : Nat) (fs : FileSystem) (r : Rotator) (ops : List SegmentOp) (s : Numbering),
        Rotator.new maxSegments fs = some r →
        Transition.run (step maxSegments) ⟨fs, r, [], true⟩ ops = some s → s.allocated.Nodup := by
  intro h
  have hnew : Rotator.new 8 FileSystem.empty = some ⟨8, 0, 0⟩ := by decide
  have htwice : (Transition.run (step 8) ⟨FileSystem.empty, ⟨8, 0, 0⟩, [], true⟩
      [.nextSegment 1, .delete (segPath 0), .restart, .nextSegment 1]).map
        (fun s => s.allocated) = some [0, 0] := by decide
  obtain ⟨s, hrun, hallocated⟩ := Option.map_eq_some_iff.mp htwice
  have hnodup := h 8 FileSystem.empty ⟨8, 0, 0⟩ _ s hnew hrun
  rw [hallocated] at hnodup
  exact absurd hnodup (by decide)

end Numbering
end SovProbe
