import SovProbe.WriterSteps
import SovProbe.Transition

/-! # Rotation by the clock

A segment is to be rotated when its deadline, `next_rotate`, has passed.  The writer
looks at the clock in `maybe_rotate`, at the end of an iteration that received a
record.  An iteration that times out goes straight to the next one, past
`maybe_rotate`, so when no record comes the deadline passes unnoticed.

`timed_rotation` says that this is the only way to be late: in a run all iterations
end on time iff no timeout finds written bytes and a deadline in the past, and then no
record waits in its segment for longer than the interval and one iteration.
-/

namespace SovProbe
open Process

/-- An iteration of the loop with its readings of the clock; also a timeout happens at
some instant. -/
inductive Turn where
  | record (record : WalRecord) (degraded : Bool) (clock : Clock)
  | timeout (now : Nat)
  deriving DecidableEq, Repr

namespace Turn

/-- What the loop gets. -/
def received : Turn → Received
  | .record r degraded clock => .record r degraded clock
  | .timeout _ => .timeout

/-- The reading of the clock at which the deadline is to be checked. -/
def reading : Turn → Nat
  | .record _ _ clock => clock.check
  | .timeout now => now

/-- All readings of the clock, in order. -/
def readings : Turn → List Nat
  | .record _ _ clock => [clock.handle, clock.check, clock.rotate]
  | .timeout now => [now]

end Turn

namespace WalWriter

/-- One iteration of the loop, if it returns. -/
def turn (crc32 : List UInt8 → UInt32) (fuel : Nat) (s : FileSystem × WalWriter) (x : Turn) :
    Option (FileSystem × WalWriter) :=
  (iteration crc32 fuel x.received s.1 s.2).outcome.state?

/-- The iteration does not leave written bytes in a segment past its deadline. -/
def OnTime (x : Turn) (w : WalWriter) : Prop := ¬ (w.written > 0 ∧ x.reading ≥ w.nextRotate)

/-- An iteration that times out does not find written bytes in a segment past its
deadline. -/
def NotOverdue (s : FileSystem × WalWriter) : Turn → Prop
  | .record _ _ _ => True
  | .timeout now => ¬ (s.2.written > 0 ∧ now ≥ s.2.nextRotate)

instance (s : FileSystem × WalWriter) (x : Turn) : Decidable (NotOverdue s x) :=
  match x with
  | .record _ _ _ => inferInstanceAs (Decidable True)
  | .timeout _ => inferInstanceAs (Decidable (¬ (_ ∧ _)))

/-! ## The operations, if they return -/

/-- A flush changes nothing in memory but the file. -/
theorem holds_flush_any (fs : FileSystem) (w : WalWriter) :
    flush.Holds (fun _ => True) (.ifDone fun _ _ w' => ∃ file, w' = { w with file }) fs w := by
  cases hfile : w.file with
  | none =>
    have hsame : ∃ file, w = { w with file } := ⟨w.file, rfl⟩
    simpa [flush, hfile, Post.ifDone] using hsame
  | some f =>
    rw [holds_flush hfile]
    exact ⟨fun _ _ => trivial, _, rfl⟩

/-- And so does `write_all`. -/
theorem holds_bufWriteAll_any (bytes : List UInt8) (fs : FileSystem) (w : WalWriter) :
    (bufWriteAll bytes).Holds (fun _ => True) (.ifDone fun _ _ w' => ∃ file, w' = { w with file })
      fs w := by
  unfold bufWriteAll
  rw [holds_get_bind]
  cases hfile : w.file with
  | none => exact (holds_pure ()).mpr ⟨w.file, rfl⟩
  | some f =>
    dsimp only
    by_cases hroom : bytes.length < bufCapacity - f.buffer.length
    · rw [if_pos hroom]
      exact (holds_modify _).mpr ⟨_, rfl⟩
    rw [if_neg hroom]
    have hrest : ∀ t file, (if bytes.length ≥ bufCapacity then writeAll f.inode bytes
        else modify fun self => { self with
          file := self.file.map fun f => { f with buffer := f.buffer ++ bytes } }).Holds
        (fun _ => True) (.ifDone fun _ _ w' => ∃ file, w' = { w with file }) t
        { w with file } := by
      intro t file
      by_cases hlarge : bytes.length ≥ bufCapacity
      · rw [if_pos hlarge, holds_writeAll]
        exact ⟨fun _ _ => trivial, file, rfl⟩
      · rw [if_neg hlarge]
        exact (holds_modify _).mpr ⟨_, rfl⟩
    by_cases hover : bytes.length > bufCapacity - f.buffer.length
    · rw [if_pos hover]
      refine (holds_flush_any fs w).bind_ifDone ?_
      rintro - t w' ⟨file, rfl⟩
      exact hrest t file
    · rw [if_neg hover]
      exact hrest fs w.file

/-- A new segment has been opened at `now`. -/
structure Reopened (now : Nat) (w w' : WalWriter) : Prop where
  interval : w'.rotateInterval = w.rotateInterval
  segNo : w'.rotator.segNo = w.rotator.segNo + 1
  deadline : w'.nextRotate = now + w.rotateInterval

/-- The segment is the same, with what it held. -/
structure Kept (w w' : WalWriter) : Prop where
  interval : w'.rotateInterval = w.rotateInterval
  segNo : w'.rotator.segNo = w.rotator.segNo
  deadline : w'.nextRotate = w.nextRotate
  written : w.written ≤ w'.written

theorem holds_openAppend_any (name : FileName) (fs : FileSystem) (w : WalWriter) :
    (openAppend name : Process FileSystem WalWriter Nat).Holds (fun _ => True)
      (.ifDone fun _ _ w' => w' = w) fs w := by
  rw [holds_openAppend]
  cases fs.dir.lookup name with
  | none => exact ⟨trivial, rfl⟩
  | some i => exact rfl

/-- `open_segment`, if it returns. -/
theorem holds_openSegment_any (fuel now : Nat) (fs : FileSystem) (w : WalWriter) :
    (openSegment fuel now).Holds (fun _ => True)
      (.ifDone fun _ _ w' => Reopened now w w' ∧ w'.written = 0) fs w := by
  have hnext : (zoom rotator (fun r self => { self with rotator := r })
      (Rotator.nextSegment fuel)).Holds (fun _ => True)
      (.ifDone fun _ _ w' => ∃ r', w' = { w with rotator := r' } ∧
        r'.segNo = w.rotator.segNo + 1) fs w := by
    rw [holds_zoom]
    refine (holds_nextSegment fuel fs w.rotator).mono (fun _ _ => trivial) ?_
      (fun _ _ _ => trivial) fun _ => trivial
    rintro name t r' ⟨-, -, k, -, -, rfl⟩
    exact ⟨_, rfl, rfl⟩
  unfold openSegment
  refine hnext.bind_ifDone ?_
  rintro path t - ⟨r', rfl, hr'⟩
  refine (holds_openAppend_any path t _).bind_ifDone ?_
  rintro i u - rfl
  refine (holds_flush_any u _).bind_ifDone ?_
  rintro - v - ⟨file, rfl⟩
  exact (holds_modify _).mpr ⟨⟨rfl, hr', rfl⟩, rfl⟩

theorem holds_writeScratch_any (scratch : List UInt8) (fs : FileSystem) (w : WalWriter) :
    (writeScratch scratch).Holds (fun _ => True) (.ifDone fun _ _ w' => Kept w w') fs w := by
  unfold writeScratch
  rw [holds_get_bind]
  by_cases hfile : w.file.isSome = true
  · rw [if_pos hfile]
    refine (holds_bufWriteAll_any scratch fs w).bind_ifDone ?_
    rintro - t - ⟨file, rfl⟩
    exact (holds_modify _).mpr ⟨rfl, rfl, rfl, Nat.le_add_right _ _⟩
  · rw [if_neg hfile]
    exact (holds_pure ()).mpr ⟨rfl, rfl, rfl, Nat.le_refl _⟩

/-- `handle_record`, if it returns: the segment is the same or has just been opened. -/
theorem holds_handleRecord_any (crc32 : List UInt8 → UInt32) (fuel : Nat) (r : WalRecord)
    (degraded : Bool) (now : Nat) (fs : FileSystem) (w : WalWriter) :
    (handleRecord crc32 fuel r degraded now).Holds (fun _ => True)
      (.ifDone fun _ _ w' => Kept w w' ∨ Reopened now w w') fs w := by
  unfold handleRecord
  cases degraded with
  | true =>
    rw [if_pos rfl]
    exact (holds_modify _).mpr (Or.inl ⟨rfl, rfl, rfl, Nat.le_refl _⟩)
  | false =>
    rw [if_neg Bool.false_ne_true, holds_modify_bind, holds_get_bind, WalRecord.encode_eq]
    dsimp only
    rw [holds_modify_bind, holds_get_bind]
    generalize [] ++ WalRecord.frame crc32 r = scratch
    by_cases hfull : w.written + scratch.length > w.segmentSize.toNat
    · rw [if_pos hfull]
      refine (holds_flush_any fs _).bind_ifDone ?_
      rintro - t - ⟨file, rfl⟩
      refine (holds_openSegment_any fuel now t _).bind_ifDone ?_
      rintro - t u ⟨hopen, -⟩
      refine (holds_writeScratch_any scratch t u).imp_ifDone fun _ _ w' hkept => Or.inr ?_
      exact ⟨hkept.interval.trans hopen.interval, hkept.segNo.trans hopen.segNo,
        hkept.deadline.trans hopen.deadline⟩
    · rw [if_neg hfull]
      refine (holds_writeScratch_any scratch fs _).imp_ifDone fun _ _ w' hkept => Or.inl ?_
      exact ⟨hkept.interval, hkept.segNo, hkept.deadline, hkept.written⟩

/-- `maybe_rotate`, if it returns: the next segment if the old one is past its deadline
and holds something. -/
theorem holds_maybeRotate_any (fuel check now : Nat) (fs : FileSystem) (w : WalWriter) :
    (maybeRotate fuel check now).Holds (fun _ => True)
      (.ifDone fun _ _ w' => if check ≥ w.nextRotate ∧ w.written > 0
        then Reopened now w w' ∧ w'.written = 0 else w' = w) fs w := by
  unfold maybeRotate
  rw [holds_get_bind]
  by_cases hdue : check ≥ w.nextRotate ∧ w.written > 0
  · simp only [if_pos hdue]
    refine (holds_flush_any fs w).bind_ifDone ?_
    rintro - t - ⟨file, rfl⟩
    exact (holds_openSegment_any fuel now t { w with file }).imp_ifDone fun _ _ w' h =>
      ⟨⟨h.1.interval, h.1.segNo, h.1.deadline⟩, h.2⟩
  · simp only [if_neg hdue]
    exact (holds_pure ()).mpr rfl

/-! ## One iteration -/

variable {crc32 : List UInt8 → UInt32} {fuel : Nat} {s t : FileSystem × WalWriter} {x : Turn}

theorem turn_timeout (now : Nat) : turn crc32 fuel s (.timeout now) = some s := rfl

/-- An iteration that received a record: `handle_record`, and then `maybe_rotate`. -/
theorem turn_record {r : WalRecord} {degraded : Bool} {clock : Clock}
    (h : turn crc32 fuel s (.record r degraded clock) = some t) :
    ∃ u, (Kept s.2 u ∨ Reopened clock.handle s.2 u) ∧
      if clock.check ≥ u.nextRotate ∧ u.written > 0
        then Reopened clock.rotate u t.2 ∧ t.2.written = 0 else t.2 = u := by
  have hholds : (iteration crc32 fuel (.record r degraded clock)).Holds (fun _ => True)
      (.ifDone fun _ _ w' => ∃ u, (Kept s.2 u ∨ Reopened clock.handle s.2 u) ∧
        if clock.check ≥ u.nextRotate ∧ u.written > 0
          then Reopened clock.rotate u w' ∧ w'.written = 0 else w' = u) s.1 s.2 := by
    unfold iteration
    refine (holds_handleRecord_any crc32 fuel r degraded clock.handle s.1 s.2).bind_ifDone ?_
    intro _ fs u hu
    exact (holds_maybeRotate_any fuel clock.check clock.rotate fs u).imp_ifDone
      fun _ _ w' hw' => ⟨u, hu, hw'⟩
  obtain ⟨⟨⟩, hdone⟩ := Outcome.state?_eq_some.mp h
  exact hholds.done hdone

/-- **The end of an iteration**: only a timeout can be late, when it finds the deadline
passed. -/
theorem onTime_iff (h : turn crc32 fuel s x = some t) : OnTime x t.2 ↔ NotOverdue s x := by
  cases x with
  | timeout now =>
    obtain rfl : s = t := Option.some.inj ((turn_timeout now).symm.trans h)
    exact Iff.rfl
  | record r degraded clock =>
    refine iff_of_true ?_ trivial
    obtain ⟨u, -, hrotate⟩ := turn_record h
    rintro ⟨hwritten, hlate⟩
    by_cases hdue : clock.check ≥ u.nextRotate ∧ u.written > 0
    · rw [if_pos hdue] at hrotate
      have hempty : t.2.written = 0 := hrotate.2
      omega
    · rw [if_neg hdue] at hrotate
      exact hdue ⟨hrotate ▸ hlate, hrotate ▸ hwritten⟩

/-- What an iteration does to the deadline: a segment that has got bytes by the end of it
was opened before the check. -/
structure Turned (x : Turn) (w w' : WalWriter) : Prop where
  interval : w'.rotateInterval = w.rotateInterval
  deadline : w'.nextRotate = w.nextRotate ∨ ∃ opened ∈ x.readings,
    w'.nextRotate = opened + w.rotateInterval ∧
      (w'.written > 0 → [opened, x.reading].Sublist x.readings)
  kept : w'.rotator.segNo = w.rotator.segNo →
    w'.nextRotate = w.nextRotate ∧ w.written ≤ w'.written

theorem turned (h : turn crc32 fuel s x = some t) : Turned x s.2 t.2 := by
  cases x with
  | timeout now =>
    obtain rfl : s = t := Option.some.inj ((turn_timeout now).symm.trans h)
    exact ⟨rfl, Or.inl rfl, fun _ => ⟨rfl, Nat.le_refl _⟩⟩
  | record r degraded clock =>
    obtain ⟨u, hhandle, hrotate⟩ := turn_record h
    -- the number of a segment differs from the next two
    have hne : ∀ no : UInt64, no + 1 ≠ no ∧ no + 1 + 1 ≠ no := by
      intro no
      simp only [ne_eq, ← UInt64.toNat_inj, UInt64.toNat_add, UInt64.toNat_one]
      omega
    by_cases hdue : clock.check ≥ u.nextRotate ∧ u.written > 0
    · rw [if_pos hdue] at hrotate
      obtain ⟨hopen, hempty⟩ := hrotate
      have hinterval : u.rotateInterval = s.2.rotateInterval :=
        hhandle.elim Kept.interval Reopened.interval
      refine ⟨hopen.interval.trans hinterval,
        Or.inr ⟨clock.rotate, by simp [Turn.readings], ?_, ?_⟩, fun hsame => ?_⟩
      · rw [hopen.deadline, hinterval]
      · intro hwritten
        omega
      · rw [hopen.segNo] at hsame
        rcases hhandle with hkept | hopened
        · exact absurd (hkept.segNo ▸ hsame) (hne _).1
        · exact absurd (hopened.segNo ▸ hsame) (hne _).2
    · rw [if_neg hdue] at hrotate
      rw [hrotate]
      rcases hhandle with hkept | hopened
      · exact ⟨hkept.interval, Or.inl hkept.deadline, fun _ => ⟨hkept.deadline, hkept.written⟩⟩
      · refine ⟨hopened.interval, Or.inr ⟨clock.handle, by simp [Turn.readings], hopened.deadline,
          fun _ => ?_⟩, fun hsame => absurd (hopened.segNo ▸ hsame) (hne _).1⟩
        exact List.take_sublist 2 [clock.handle, clock.check, clock.rotate]

/-! ## Runs -/

variable {turns pre mid : List Turn} {u v : FileSystem × WalWriter} {start latest : Nat}

theorem reading_mem_readings (x : Turn) : x.reading ∈ x.readings := by
  cases x <;> simp [Turn.reading, Turn.readings]

/-- The deadline is at most the interval after the latest reading of the clock. -/
theorem deadline_le (hs : s.2.nextRotate = start + s.2.rotateInterval)
    (hrun : Transition.run (turn crc32 fuel) s turns = some t) (hstart : start ≤ latest)
    (hreadings : ∀ r ∈ turns.flatMap Turn.readings, r ≤ latest) :
    t.2.rotateInterval = s.2.rotateInterval ∧ t.2.nextRotate ≤ latest + s.2.rotateInterval := by
  induction turns using List.reverseRec generalizing t with
  | nil =>
    obtain rfl : s = t := Option.some.inj hrun
    exact ⟨rfl, by omega⟩
  | append_singleton pre x ih =>
    obtain ⟨u, hu, hx⟩ := (Transition.run_concat_eq_some _).mp hrun
    simp only [List.flatMap_append, List.flatMap_singleton, List.mem_append] at hreadings
    obtain ⟨hinterval, hle⟩ := ih hu fun r hr => hreadings r (Or.inl hr)
    have hturned := turned hx
    refine ⟨hturned.interval.trans hinterval, ?_⟩
    rcases hturned.deadline with hsame | ⟨opened, hmem, hdeadline, -⟩
    · rw [hsame]
      exact hle
    · have hopened : opened ≤ latest := hreadings opened (Or.inr hmem)
      rw [hdeadline, hinterval]
      omega

/-- And if the segment holds something, at most the interval after the check of the
latest iteration. -/
theorem deadline_of_written (hs : s.2.nextRotate = start + s.2.rotateInterval)
    (hrun : Transition.run (turn crc32 fuel) s (pre ++ [x]) = some t)
    (hclock : (start :: (pre ++ [x]).flatMap Turn.readings).Pairwise (· ≤ ·))
    (hwritten : t.2.written > 0) : t.2.nextRotate ≤ x.reading + s.2.rotateInterval := by
  obtain ⟨u, hu, hx⟩ := (Transition.run_concat_eq_some _).mp hrun
  rw [List.flatMap_append, List.flatMap_singleton, ← List.cons_append,
    List.pairwise_append] at hclock
  obtain ⟨-, hwithin, hbefore⟩ := hclock
  have hlatest : ∀ r ∈ start :: pre.flatMap Turn.readings, r ≤ x.reading :=
    fun r hr => hbefore r hr x.reading (reading_mem_readings x)
  obtain ⟨hinterval, hle⟩ := deadline_le hs hu (hlatest start List.mem_cons_self)
    fun r hr => hlatest r (List.mem_cons_of_mem start hr)
  rcases (turned hx).deadline with hsame | ⟨opened, -, hdeadline, hcheck⟩
  · rw [hsame]
    exact hle
  · have hpair : [opened, x.reading].Pairwise (· ≤ ·) := hwithin.sublist (hcheck hwritten)
    have hopened : opened ≤ x.reading := List.rel_of_pairwise_cons hpair List.mem_cons_self
    rw [hdeadline, hinterval]
    omega

/-- As long as no other segment is opened, the deadline stays and nothing is lost. -/
theorem kept_of_run (hrun : Transition.run (turn crc32 fuel) u mid = some v)
    (hsame : ∀ ys t, ys <+: mid → Transition.run (turn crc32 fuel) u ys = some t →
      t.2.rotator.segNo = u.2.rotator.segNo) :
    v.2.nextRotate = u.2.nextRotate ∧ u.2.written ≤ v.2.written := by
  induction mid using List.reverseRec generalizing v with
  | nil =>
    obtain rfl : u = v := Option.some.inj hrun
    exact ⟨rfl, Nat.le_refl _⟩
  | append_singleton ys y ih =>
    obtain ⟨t, ht, hy⟩ := (Transition.run_concat_eq_some _).mp hrun
    have hpre : ys <+: ys ++ [y] := List.prefix_append ys [y]
    have hstay : v.2.rotator.segNo = t.2.rotator.segNo :=
      (hsame _ v (List.prefix_refl _) hrun).trans (hsame ys t hpre ht).symm
    obtain ⟨hdeadline, hwritten⟩ := ih ht fun zs w hzs => hsame zs w (hzs.trans hpre)
    obtain ⟨hdeadline', hwritten'⟩ := (turned hy).kept hstay
    exact ⟨hdeadline'.trans hdeadline, hwritten.trans hwritten'⟩

/-- All iterations of a run end on time exactly when no timeout finds the deadline passed. -/
theorem onTime_iff_guarded (hrun : Transition.run (turn crc32 fuel) s turns = some t) :
    (∀ pre x u, pre ++ [x] <+: turns →
      Transition.run (turn crc32 fuel) s (pre ++ [x]) = some u → OnTime x u.2) ↔
    Transition.Guarded (turn crc32 fuel) NotOverdue s turns := by
  constructor
  · intro h pre x hpre v hv
    obtain ⟨u, hu⟩ := Transition.run_prefix _ hpre hrun
    obtain ⟨v', hv', hx⟩ := (Transition.run_concat_eq_some _).mp hu
    obtain rfl : v' = v := Option.some.inj (hv'.symm.trans hv)
    exact (onTime_iff hx).mp (h pre x u hpre hu)
  · intro h pre x u hpre hu
    obtain ⟨v, hv, hx⟩ := (Transition.run_concat_eq_some _).mp hu
    exact (onTime_iff hx).mpr (h pre x hpre v hv)

/-- **Rotation by the clock**, from when the loop has opened its first segment.  All
iterations end on time exactly when no timeout finds written bytes in a segment past its
deadline.  Then what is in a segment after the iteration `x` leaves it, at the latest, in
the first iteration whose reading is later by the interval. -/
theorem timed_rotation (crc32 : List UInt8 → UInt32) (fuel start : Nat) {fs₀ fs : FileSystem}
    {w₀ w : WalWriter} (hopen : (openSegment fuel start fs₀ w₀).outcome = .done () fs w)
    {turns : List Turn} (hclock : (start :: turns.flatMap Turn.readings).Pairwise (· ≤ ·))
    {s : FileSystem × WalWriter} (hrun : Transition.run (turn crc32 fuel) (fs, w) turns = some s) :
    ((∀ pre x u, pre ++ [x] <+: turns →
        Transition.run (turn crc32 fuel) (fs, w) (pre ++ [x]) = some u → OnTime x u.2) ↔
      Transition.Guarded (turn crc32 fuel) NotOverdue (fs, w) turns) ∧
    (Transition.Guarded (turn crc32 fuel) NotOverdue (fs, w) turns →
      ∀ pre x mid y u, pre ++ [x] ++ (mid ++ [y]) <+: turns →
        Transition.run (turn crc32 fuel) (fs, w) (pre ++ [x]) = some u → u.2.written > 0 →
        (∀ ys t, ys <+: mid ++ [y] → Transition.run (turn crc32 fuel) u ys = some t →
          t.2.rotator.segNo = u.2.rotator.segNo) →
        y.reading < x.reading + w.rotateInterval) := by
  have hfirst : Reopened start w₀ w ∧ w.written = 0 :=
    (holds_openSegment_any fuel start fs₀ w₀).done hopen
  have hdeadline : w.nextRotate = start + w.rotateInterval := by
    rw [hfirst.1.deadline, hfirst.1.interval]
  refine ⟨onTime_iff_guarded hrun, fun hok pre x mid y u hpre hu hwritten hsame => ?_⟩
  obtain ⟨v, hv⟩ := Transition.run_prefix _ hpre hrun
  have hontime := (onTime_iff_guarded hrun).mpr hok (pre ++ [x] ++ mid) y v
    (by rwa [List.append_assoc]) (by rwa [List.append_assoc])
  rw [Transition.run_append, hu, Option.bind_some] at hv
  obtain ⟨hkept, hmore⟩ := kept_of_run hv hsame
  -- the readings up to that of `x` are in order
  have hordered : (start :: (pre ++ [x]).flatMap Turn.readings).Pairwise (· ≤ ·) := by
    obtain ⟨rest, rfl⟩ := (List.prefix_append (pre ++ [x]) (mid ++ [y])).trans hpre
    rw [List.flatMap_append, ← List.cons_append] at hclock
    exact (List.pairwise_append.mp hclock).1
  have hle := deadline_of_written hdeadline hu hordered hwritten
  have hlt : ¬ y.reading ≥ v.2.nextRotate := fun hge => hontime ⟨hwritten.trans_le hmore, hge⟩
  rw [hkept] at hlt
  exact (Nat.not_le.mp hlt).trans_le hle

/-- A writer on an empty directory, in milliseconds and with an interval of a second. -/
def sampleWriter : WalWriter := ⟨⟨8, 0, 0⟩, 134217728, 1000, none, 0, 1000, [], 0, 0⟩

/-- Its state after it has opened a segment and taken these iterations. -/
def sampleRun (turns : List Turn) : Option (FileSystem × WalWriter) :=
  (openSegment 1 0 FileSystem.empty sampleWriter).outcome.state?.bind fun s =>
    Transition.run (turn Crc.ieee 1) s turns

theorem sampleRun_eq_some (h : sampleRun turns = some s) : ∃ fs w,
    (openSegment 1 0 FileSystem.empty sampleWriter).outcome = .done () fs w ∧
      Transition.run (turn Crc.ieee 1) (fs, w) turns = some s := by
  obtain ⟨⟨fs, w⟩, hstate, hrun⟩ := Option.bind_eq_some_iff.mp h
  obtain ⟨⟨⟩, hopen⟩ := Outcome.state?_eq_some.mp hstate
  exact ⟨fs, w, hopen, hrun⟩

/-- A pause before the deadline, and a record behind it: the segment is rotated. -/
def pausedTurns : List Turn :=
  [.record sampleRecord false ⟨0, 0, 0⟩, .timeout 200, .timeout 999,
    .record sampleRecord false ⟨1000, 1000, 1001⟩]

theorem timed_rotation_records : ∃ fs w s,
    Transition.run (turn Crc.ieee 1) (fs, w) pausedTurns = some s ∧ s.2.nextRotate = 2001 ∧
    ∀ pre x u, pre ++ [x] <+: pausedTurns →
      Transition.run (turn Crc.ieee 1) (fs, w) (pre ++ [x]) = some u → OnTime x u.2 := by
  have hend : (sampleRun pausedTurns).map (fun s => s.2.nextRotate) = some 2001 := by
    decide +kernel
  obtain ⟨s, hs, hdeadline⟩ := Option.map_eq_some_iff.mp hend
  obtain ⟨fs, w, hopen, hrun⟩ := sampleRun_eq_some hs
  obtain ⟨hontime, -⟩ := timed_rotation Crc.ieee 1 0 hopen (by decide) hrun
  -- the same run, with the deadline checked in front of each timeout
  have hchecked : ((openSegment 1 0 FileSystem.empty sampleWriter).outcome.state?.bind fun s =>
      Transition.run (Transition.checked (turn Crc.ieee 1) NotOverdue) s pausedTurns).isSome =
        true := by decide +kernel
  obtain ⟨s', hs'⟩ := Option.isSome_iff_exists.mp hchecked
  rw [hopen] at hs'
  obtain ⟨hok, -⟩ := Transition.guarded_of_checked hs'
  exact ⟨fs, w, s, hrun, hdeadline, hontime.mpr hok⟩

/-- **The traffic stops** after one record, and its segment is still the same when the
interval has passed. -/
theorem timeout_not_on_time :
    ¬ ∀ (start fuel : Nat) (fs₀ fs : FileSystem) (w₀ w : WalWriter) (turns : List Turn)
        (s : FileSystem × WalWriter),
        (openSegment fuel start fs₀ w₀).outcome = .done () fs w →
        (start :: turns.flatMap Turn.readings).Pairwise (· ≤ ·) →
        Transition.run (turn Crc.ieee fuel) (fs, w) turns = some s →
        ∀ pre x u, pre ++ [x] <+: turns →
          Transition.run (turn Crc.ieee fuel) (fs, w) (pre ++ [x]) = some u → OnTime x u.2 := by
  intro h
  have hend : (sampleRun ([.record sampleRecord false ⟨0, 0, 0⟩, .timeout 200, .timeout 400,
      .timeout 600, .timeout 800] ++ [.timeout 1000])).map
        (fun s => (s.2.written, s.2.nextRotate)) = some (81, 1000) := by decide +kernel
  obtain ⟨s, hs, hpair⟩ := Option.map_eq_some_iff.mp hend
  obtain ⟨fs, w, hopen, hrun⟩ := sampleRun_eq_some hs
  obtain ⟨hwritten, hdeadline⟩ := Prod.mk.inj hpair
  have hontime := h 0 1 _ fs _ w _ s hopen (by decide) hrun _ _ s (List.prefix_refl _) hrun
  refine hontime ⟨?_, hdeadline.le⟩
  rw [hwritten]
  decide

end WalWriter
end SovProbe
