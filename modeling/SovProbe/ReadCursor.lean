import SovProbe.Ledger
import SovProbe.Retention
import SovProbe.Transition

/-! # The read cursor over a history

The consumer tells the rotator with `mark_read` how far it has read, and the ledger
carries the cursor.  But `enforce_budget` writes its own counter there, and the first
call of `next_segment` the number of its own segment.  So the cursor can go back, and
it can claim segments that nobody has read.
-/

namespace SovProbe
open Process

section
variable {R : UInt64 → UInt64 → Prop} {fs : FileSystem} {r : Rotator}

/-- The cursor a call that returns leaves. -/
def cursorAfter (fs : FileSystem) (r r' : Rotator) : UInt64 :=
  if (r.candidates fs).card ≤ r.maxSegments then (ledgerCursor fs).getD r.segNo else r'.minNo

/-- **The cursors a call of `next_segment` writes.** -/
theorem shows_nextSegment (hR : ∀ a, R a a) {rest : Rest FileSystem Rotator FileName UInt64}
    (fuel : Nat) (fs : FileSystem) (r : Rotator)
    (hfailed : r.wanted ∈ fs → rest none fs r.advanced (published fs))
    (hdone : ∀ name t r', t.file? ledgerPath = some (ledgerLine r.segNo (cursorAfter fs r r')) →
      rest (some name) t r' (published t)) :
    (Rotator.nextSegment fuel).Shows R published rest (published fs) fs r ↔
      (r.wanted ∉ fs →
        Advances R fuel (r.candidates fs) r.maxSegments r.minNo (published fs)) := by
  have hledger : (r.made fs).file? ledgerPath = fs.file? ledgerPath :=
    file?_made_ne (Ne.symm (segPath_ne_ledgerPath _))
  have hmade : published (r.made fs) = published fs := published_congr hledger
  have hloop : ∀ {rest : Rest FileSystem Rotator Unit UInt64},
      (∀ t r', LedgerAfter (r.made fs) r.advanced t r' → rest (some ()) t r' (published t)) →
        ((Rotator.enforceBudget fuel).Shows R published rest (published fs) (r.made fs) r.advanced ↔
          Advances R fuel (r.candidates fs) r.maxSegments r.minNo (published fs)) := by
    intro rest hrest
    have hrun := shows_enforceBudget hR fuel (r.made fs) r.advanced hrest
    rwa [segments_made, hmade] at hrun
  unfold Rotator.nextSegment createNew
  simp only [shows_bind, shows_get, shows_modify, shows_read]
  by_cases hmem : r.wanted ∈ fs
  · have hcontains : fs.contains (segPath r.segNo.toNat) = true := decide_eq_true hmem
    simp only [hcontains, if_true, shows_bind, shows_fail]
    exact ⟨fun _ hnew => absurd hmem hnew, fun _ => hfailed hmem⟩
  · have hcontains : fs.contains (segPath r.segNo.toNat) = false := decide_eq_false hmem
    simp only [hcontains, Bool.false_eq_true, if_false, shows_bind, shows_read, shows_pure]
    have hsame : published ((fun t : FileSystem => (t.link (segPath r.segNo.toNat)).record
        (segPath r.segNo.toNat) fs.inodes.length) fs) = published fs := hmade
    rw [shows_write_same hR hsame]
    refine (hloop fun t r' hafter => ?_).trans (imp_iff_right hmem).symm
    -- the last write keeps the cursor the loop has left
    have hcursor : cursorAfter fs r r' = (none : Option UInt64).getD
        ((ledgerCursor t).getD r.segNo) := by
      obtain ⟨hstop, hmore⟩ := hafter
      rw [segments_made] at hstop hmore
      unfold cursorAfter
      by_cases hle : (r.candidates fs).card ≤ r.maxSegments
      · obtain ⟨rfl, rfl⟩ := hstop hle
        rw [if_pos hle, ledgerCursor, ledgerCursor, hledger]
        rfl
      · have hline := hmore (Nat.not_le.mp hle)
        rw [if_neg hle, ledgerCursor, hline, Option.bind_some, cursorOf_ledgerLine]
        rfl
    refine (shows_persistLedger none hcursor).mpr ⟨fun a ha => ?_, ?_⟩
    · rw [hcursor, ledgerCursor_of_published ha]
      exact hR a
    · have hline : (withLedger t (ledgerLine r.segNo (cursorAfter fs r r'))).file? ledgerPath =
          some (ledgerLine r.segNo (cursorAfter fs r r')) := file?_withLedger
      have hend := hdone (segPath r.segNo.toNat) _ r' hline
      rwa [published_withLedger] at hend

end

/-! ## Histories -/

/-- What happens to the ledger's directory: a call of `next_segment`, one of
`mark_read`, or a new process. -/
inductive LedgerOp where
  | nextSegment
  | markRead (cursor : UInt64)
  | restart
  deriving DecidableEq, Repr

/-- An error of `next_segment` is the caller's to handle. -/
def LedgerOp.perform (maxSegments fuel : Nat) : LedgerOp → Process FileSystem Rotator Unit
  | .nextSegment => do
    let _ ← (Rotator.nextSegment fuel).attempt
  | .markRead cursor => Rotator.markRead cursor
  | .restart => do
    match ← Process.read (Rotator.new maxSegments) with
    | some rotator => modify fun _ => rotator
    | none => fail

/-- One operation after the other. -/
def performAll (maxSegments fuel : Nat) (ops : List LedgerOp) : Process FileSystem Rotator Unit :=
  ops.forM (LedgerOp.perform maxSegments fuel)

/-- Between two operations; `marked` are the values passed to `mark_read` so far. -/
structure Ledgered where
  fs : FileSystem
  rotator : Rotator
  marked : List UInt64

/-- The values an operation passes to `mark_read`. -/
def LedgerOp.marks : LedgerOp → List UInt64
  | .markRead cursor => [cursor]
  | _ => []

/-- The state after an operation that returns. -/
def ledgerStep (maxSegments fuel : Nat) (s : Ledgered) (op : LedgerOp) : Option Ledgered :=
  match (op.perform maxSegments fuel s.fs s.rotator).outcome with
  | .done _ fs rotator => some ⟨fs, rotator, s.marked ++ op.marks⟩
  | _ => none

/-- The operation finds the cursor behind what it writes: a `mark_read` is not behind
the ledger's cursor, and neither is `min_no` when a call evicts, in the first
iteration of the loop and, lest the counter wrap, in the others. -/
def CursorBehind (fuel : Nat) (s : Ledgered) : LedgerOp → Prop
  | .nextSegment => s.rotator.wanted ∉ s.fs →
      Advances (· ≤ ·) fuel (s.rotator.candidates s.fs) s.rotator.maxSegments s.rotator.minNo
        (published s.fs)
  | .markRead cursor => ∀ a ∈ published s.fs, a ≤ cursor
  | .restart => True

section
variable {maxSegments fuel : Nat} {s s' : Ledgered} {op : LedgerOp} {ops : List LedgerOp}

theorem ledgerStep_eq_some :
    ledgerStep maxSegments fuel s op = some s' ↔
      (op.perform maxSegments fuel s.fs s.rotator).outcome = .done () s'.fs s'.rotator ∧
        s'.marked = s.marked ++ op.marks := by
  unfold ledgerStep
  obtain ⟨fs, rotator, marked⟩ := s'
  cases (op.perform maxSegments fuel s.fs s.rotator).outcome with
  | done u t r =>
    simp only [Option.some.injEq, Ledgered.mk.injEq, Outcome.done.injEq, true_and]
    constructor
    · rintro ⟨rfl, rfl, rfl⟩
      exact ⟨⟨rfl, rfl⟩, rfl⟩
    · rintro ⟨⟨rfl, rfl⟩, rfl⟩
      exact ⟨rfl, rfl, rfl⟩
  | failed t r => simp
  | running => simp

/-- **The cursors an operation writes.** -/
theorem shows_perform (op : LedgerOp) (s : Ledgered) {rest : Rest FileSystem Rotator Unit UInt64}
    (hrest : ∀ o t r', rest o t r' (published t)) :
    (op.perform maxSegments fuel).Shows (· ≤ ·) published rest (published s.fs) s.fs s.rotator ↔
      CursorBehind fuel s op := by
  cases op with
  | nextSegment =>
    unfold LedgerOp.perform
    simp only [shows_bind, shows_attempt, shows_pure]
    refine shows_nextSegment UInt64.le_refl fuel s.fs s.rotator (fun _ => ?_) fun _ t r' _ => ?_
    · exact hrest (some ()) s.fs s.rotator.advanced
    · exact hrest (some ()) t r'
  | markRead cursor =>
    have hread : cursor = (some cursor).getD ((ledgerCursor s.fs).getD s.rotator.segNo) := rfl
    unfold LedgerOp.perform Rotator.markRead
    rw [shows_bind, shows_get]
    refine (shows_persistLedger (some cursor) hread).trans (and_iff_left ?_)
    have hend := hrest (some ()) (withLedger s.fs (ledgerLine s.rotator.segNo cursor)) s.rotator
    rwa [published_withLedger] at hend
  | restart =>
    unfold LedgerOp.perform
    simp only [shows_bind, shows_read]
    refine iff_of_true ?_ trivial
    cases Rotator.new maxSegments s.fs with
    | none => exact shows_fail.mpr (hrest _ _ _)
    | some r => exact (shows_modify _).mpr (hrest _ _ _)

/-- The cursors of a history. -/
theorem shows_performAll (ops : List LedgerOp) (s : Ledgered) :
    (performAll maxSegments fuel ops).Shows (· ≤ ·) published (fun _ _ _ _ => True)
        (published s.fs) s.fs s.rotator ↔
      Transition.Guarded (ledgerStep maxSegments fuel) (CursorBehind fuel) s ops := by
  induction ops generalizing s with
  | nil => exact ⟨fun _ => Transition.guarded_nil _ s, fun _ => (shows_pure ()).mpr trivial⟩
  | cons op ops ih =>
    have hcons : performAll maxSegments fuel (op :: ops) =
        op.perform maxSegments fuel >>= fun _ => performAll maxSegments fuel ops := rfl
    rw [hcons, shows_bind, Transition.guarded_cons_iff]
    -- an operation after which the cursor shown last is the one published
    have htracks : (op.perform maxSegments fuel).Shows (· ≤ ·) published
        (fun _ t _ last => last = published t) (published s.fs) s.fs s.rotator ↔
          CursorBehind fuel s op := shows_perform op s fun _ _ _ => rfl
    constructor
    · intro h
      have hshown : (op.perform maxSegments fuel).Shows (· ≤ ·) published (fun _ _ _ _ => True)
          (published s.fs) s.fs s.rotator :=
        h.imp (fun _ _ _ _ _ _ => trivial) fun _ _ _ _ _ => trivial
      have hop : CursorBehind fuel s op := (shows_perform op s fun _ _ _ => trivial).mp hshown
      refine ⟨hop, fun t ht => (ih t).mp ?_⟩
      have hout := (ledgerStep_eq_some.mp ht).1
      have hlast := htracks.mpr hop
      have hend := h.2
      have hend' := hlast.2
      rw [hout] at hend hend'
      exact hend' ▸ hend
    · rintro ⟨hop, hrest⟩
      refine (htracks.mpr hop).imp (fun _ t r' last hout hlast => ?_) fun _ _ _ _ _ => trivial
      obtain rfl := hlast
      exact (ih ⟨t, r', s.marked ++ op.marks⟩).mpr
        (hrest _ (ledgerStep_eq_some.mpr ⟨hout, rfl⟩))

instance isTrans_le : IsTrans UInt64 (· ≤ ·) := ⟨fun _ _ _ => UInt64.le_trans⟩

/-- **When the read cursor never goes back.**  Over any operations from any directory,
the cursors of all complete lines the ledger ever has do not decrease exactly if no
operation of the history finds a larger cursor than the one it writes. -/
theorem never_regresses_iff (maxSegments fuel : Nat) (ops : List LedgerOp) (start : FileSystem)
    (r : Rotator) :
    ((start :: (performAll maxSegments fuel ops start r).trace).filterMap published).Pairwise
        (· ≤ ·) ↔
      Transition.Guarded (ledgerStep maxSegments fuel) (CursorBehind fuel) ⟨start, r, []⟩ ops := by
  rw [pairwise_iff_shows]
  exact shows_performAll ops ⟨start, r, []⟩

variable (maxSegments fuel s) in
/-- `mark_read` returns. -/
theorem ledgerStep_markRead (cursor : UInt64) :
    ledgerStep maxSegments fuel s (.markRead cursor) =
      some ⟨withLedger s.fs (ledgerLine s.rotator.segNo cursor), s.rotator,
        s.marked ++ [cursor]⟩ := by
  have hholds : (Rotator.markRead cursor).Holds (fun _ => True)
      (.returns fun _ t r' =>
        t = withLedger s.fs (ledgerLine s.rotator.segNo cursor) ∧ r' = s.rotator)
      s.fs s.rotator := by
    unfold Rotator.markRead Rotator.persistLedger openTruncate withLedger truncated opened
      ledgerInode
    simp only [holds_bind, holds_pure, holds_openAppend]
    cases hlookup : s.fs.dir.lookup ledgerPath with
    | some i => simp [hlookup, Post.returns]
    | none => simp [hlookup, Post.returns]
  obtain ⟨⟨⟩, t, r', hdone, rfl, rfl⟩ := hholds.returned
  exact ledgerStep_eq_some.mpr ⟨hdone, rfl⟩

/-- A directory with three segments, and a rotator that keeps three. -/
def threeDir : FileSystem :=
  ((FileSystem.empty.link (segPath 0)).link (segPath 1)).link (segPath 2)

/-- **The cursor goes back** from 2, marked as read, to 1, when the next call evicts
segment 0. -/
theorem cursor_regresses :
    ¬ ∀ (maxSegments fuel : Nat) (ops : List LedgerOp) (start : FileSystem) (r : Rotator),
        1 ≤ maxSegments → 2 ^ 64 < fuel → Rotator.new maxSegments start = some r →
        (ops.flatMap LedgerOp.marks).Pairwise (· ≤ ·) →
        ((start :: (performAll maxSegments fuel ops start r).trace).filterMap published).Pairwise
          (· ≤ ·) := by
  intro h
  have hnew : Rotator.new 3 threeDir = some ⟨3, 3, 0⟩ := by decide
  have hguarded := (shows_performAll _ ⟨threeDir, ⟨3, 3, 0⟩, []⟩).mp (pairwise_iff_shows.mp
    (h 3 (2 ^ 64 + 1) [.markRead 2, .nextSegment] threeDir ⟨3, 3, 0⟩ (by decide)
      (Nat.lt_succ_self _) hnew (by decide)))
  have hmarked := ledgerStep_markRead 3 (2 ^ 64 + 1) ⟨threeDir, ⟨3, 3, 0⟩, []⟩ 2
  have hrun := hguarded [.markRead 2] .nextSegment List.prefix_rfl _
    (by rw [Transition.run_cons, hmarked]; rfl)
  have hsegments : segments (withLedger threeDir (ledgerLine 3 2)) =
      {segPath 2, segPath 1, segPath 0} := by
    rw [segments_withLedger]
    decide
  have hcandidates : (⟨3, 3, 0⟩ : Rotator).candidates (withLedger threeDir (ledgerLine 3 2)) =
      {segPath 3, segPath 2, segPath 1, segPath 0} := by
    rw [Rotator.candidates, hsegments]
    rfl
  have hnewName : (⟨3, 3, 0⟩ : Rotator).wanted ∉ withLedger threeDir (ledgerLine 3 2) := by
    intro hmem
    have hsegment := mem_segments.mpr ⟨hmem, isSegment_segPath _⟩
    rw [hsegments] at hsegment
    revert hsegment
    decide
  have hfirst := hrun hnewName 0 (Nat.succ_pos _)
  rw [sweep_zero, hcandidates] at hfirst
  exact absurd (hfirst (by decide) 2 published_withLedger) (by decide)

end

end SovProbe
