import SovProbe.Pipeline

/-! # The capture thread and the full queue

`tx.send` on a bounded channel waits for a free slot as long as a reference to the
receiver is alive, and `main` keeps one for ever.  So the capture thread stays off
a full queue only if the flag stops it before, and the flag follows the queue only
when the writer gets to its check.
-/

namespace SovProbe
namespace Pipeline
variable {Frame Record : Type} {cfg : Config} {slice : Frame → Option (UInt64 → Bool → Record)}
  {s t : State Frame Record}

/-- The capture thread waits in `tx.send`: the queue is full and a receiver alive. -/
def Blocked (cfg : Config) (s : State Frame Record) : Prop :=
  ∃ record, s.capture = .sending record ∧ cfg.queueCapacity.toNat ≤ s.queue.length ∧
    0 < s.receivers

/-! ## What the writer's steps leave alone -/

@[simp] theorem writerExits_capture : s.writerExits.capture = s.capture := rfl

@[simp] theorem writerExits_writer : s.writerExits.writer = .done := rfl

@[simp] theorem writerExits_receivers : s.writerExits.receivers = s.receivers - 1 := rfl

theorem writerExits_queue : s.writerExits.queue <:+ s.queue := by
  unfold State.writerExits
  dsimp only
  split
  · exact List.nil_suffix
  · exact List.suffix_refl _

/-- What a step of the writer can do: leave the loop, or go on with no more than a
record taken from the front of the queue. -/
theorem writerStep_cases {a : WriterAction} (h : writerStep cfg s a = some t) :
    s.writer ≠ .done ∧
      (t = s.writerExits ∨
        t.writer ≠ .done ∧ t.receivers = s.receivers ∧ t.capture = s.capture ∧
          t.queue <:+ s.queue) := by
  cases a with
  | openSegment ok =>
    cases ok <;> cases hw : s.writer <;> simp [writerStep, hw] at h <;> subst h <;> simp
  | hotPathCheck =>
    cases hw : s.writer <;> simp only [writerStep, hw, reduceCtorEq] at h
    split at h <;> simp at h <;> subst h <;> simp
  | recv =>
    cases hw : s.writer <;> cases hq : s.queue <;> simp [writerStep, hw, hq] at h
    subst h
    simp
  | timeout =>
    cases hw : s.writer <;> cases hq : s.queue <;> simp [writerStep, hw, hq] at h
    subst h
    simp
  | disconnected =>
    cases hw : s.writer <;> cases hq : s.queue <;> cases hc : s.capture <;>
      simp [writerStep, hw, hq, hc] at h
    subst h
    simp
  | handleRecord =>
    cases hw : s.writer <;> simp only [writerStep, hw, reduceCtorEq] at h
    split at h <;> simp at h <;> subst h <;> simp
  | writeAll ok =>
    cases ok <;> cases hw : s.writer <;> simp [writerStep, hw] at h <;> subst h <;> simp
  | maybeRotate ok =>
    cases ok <;> cases hw : s.writer <;> simp [writerStep, hw] at h <;> subst h <;> simp

/-- What a step of the capture thread leaves alone. -/
theorem captureStep_frame {a : CaptureAction Frame} (h : captureStep cfg slice s a = some t) :
    t.writer = s.writer ∧ t.receivers = s.receivers ∧ t.degraded = s.degraded := by
  cases a with
  | next frame =>
    cases hc : s.capture <;> simp [captureStep, hc] at h
    subst h
    simp
  | pollFails =>
    cases hc : s.capture <;> simp [captureStep, hc] at h
    subst h
    simp
  | isDegraded =>
    cases hc : s.capture <;> simp only [captureStep, hc, reduceCtorEq] at h
    split at h <;> simp at h <;> subst h <;> simp
  | process tsNs =>
    cases hc : s.capture <;> simp only [captureStep, hc, reduceCtorEq] at h
    split at h <;> simp at h <;> subst h <;> simp
  | send =>
    cases hc : s.capture <;> simp only [captureStep, hc, reduceCtorEq] at h
    repeat' split at h
    all_goals simp at h
    all_goals subst h; simp

/-! ## The receiver stays alive -/

/-- The references to the receiver: `main`'s, and the writer's until it exits. -/
def receiversOf : WriterPc Record → Nat
  | .done => 1
  | _ => 2

theorem receiversOf_pos (pc : WriterPc Record) : 0 < receiversOf pc := by
  cases pc <;> exact Nat.succ_pos _

theorem receiversOf_running {pc : WriterPc Record} (h : pc ≠ .done) : receiversOf pc = 2 := by
  cases pc <;> first | rfl | exact absurd rfl h

/-- The references to the receiver are those that are held. -/
def ReceiversCounted (s : State Frame Record) : Prop := s.receivers = receiversOf s.writer

theorem step_receiversCounted {a : Action Frame} (hs : ReceiversCounted s)
    (h : step cfg slice s a = some t) : ReceiversCounted t := by
  unfold ReceiversCounted at hs ⊢
  cases a with
  | sampler resident load => exact Option.some.inj h ▸ hs
  | capture a =>
    obtain ⟨hwriter, hreceivers, -⟩ := captureStep_frame h
    rw [hwriter, hreceivers, hs]
  | writer a =>
    obtain ⟨hw, rfl | ⟨hw', hreceivers, -⟩⟩ := writerStep_cases h
    · rw [writerExits_receivers, writerExits_writer, hs, receiversOf_running hw]
      rfl
    · rw [hreceivers, hs, receiversOf_running hw, receiversOf_running hw']

/-- **A receiver is alive in every reachable state**, even when the writer is gone. -/
theorem receivers_pos {as : List (Action Frame)} (h : run cfg slice as = some s) :
    0 < s.receivers := by
  have hinit : ReceiversCounted ({} : State Frame Record) := rfl
  have hcounted : ReceiversCounted s :=
    Transition.run_invariant (fun _ _ _ hs ha => step_receiversCounted hs ha) hinit h
  rw [hcounted]
  exact receiversOf_pos s.writer

/-! ## Checks that find room -/

/-- A check of the flag that lets an acceptable frame through finds room in the queue. -/
def ChecksWithRoom (cfg : Config) (slice : Frame → Option (UInt64 → Bool → Record))
    (s : State Frame Record) : Action Frame → Prop
  | .capture .isDegraded => ∀ frame, s.capture = .taken frame → s.degraded = false →
      (slice frame).isSome → s.queue.length < cfg.queueCapacity.toNat
  | _ => True

/-- Between the check and the send the queue keeps room for the record. -/
def RoomForRecord (cfg : Config) (slice : Frame → Option (UInt64 → Bool → Record))
    (s : State Frame Record) : Prop :=
  match s.capture with
  | .checked frame => (slice frame).isSome → s.queue.length < cfg.queueCapacity.toNat
  | .sending _ => s.queue.length < cfg.queueCapacity.toNat
  | _ => True

theorem roomForRecord_of_le (hs : RoomForRecord cfg slice s) (hcapture : t.capture = s.capture)
    (hqueue : t.queue.length ≤ s.queue.length) : RoomForRecord cfg slice t := by
  unfold RoomForRecord at hs ⊢
  rw [hcapture]
  cases hc : s.capture with
  | checked frame =>
    rw [hc] at hs
    exact fun hframe => Nat.lt_of_le_of_lt hqueue (hs hframe)
  | sending record =>
    rw [hc] at hs
    exact Nat.lt_of_le_of_lt hqueue hs
  | _ => trivial

/-- Only the capture thread adds to the queue, and it does so by the send itself. -/
theorem step_roomForRecord {a : Action Frame} (hs : RoomForRecord cfg slice s)
    (hok : ChecksWithRoom cfg slice s a) (h : step cfg slice s a = some t) :
    RoomForRecord cfg slice t := by
  cases a with
  | sampler resident load =>
    exact Option.some.inj h ▸ roomForRecord_of_le hs rfl (Nat.le_refl _)
  | writer a =>
    obtain ⟨-, rfl | ⟨-, -, hcapture, hqueue⟩⟩ := writerStep_cases h
    · exact roomForRecord_of_le hs rfl writerExits_queue.length_le
    · exact roomForRecord_of_le hs hcapture hqueue.length_le
  | capture a =>
    cases a with
    | next frame =>
      cases hc : s.capture <;> simp [step, captureStep, hc] at h
      subst h
      trivial
    | pollFails =>
      cases hc : s.capture <;> simp [step, captureStep, hc] at h
      subst h
      trivial
    | isDegraded =>
      cases hc : s.capture <;> simp only [step, captureStep, hc, reduceCtorEq] at h
      by_cases hd : s.degraded = true
      · rw [if_pos hd] at h
        rw [← Option.some.inj h]
        trivial
      · rw [if_neg hd] at h
        rw [← Option.some.inj h]
        exact hok _ hc (Bool.eq_false_iff.mpr hd)
    | process tsNs =>
      cases hc : s.capture <;> simp only [step, captureStep, hc, reduceCtorEq] at h
      rename_i frame
      have hroom : (slice frame).isSome → s.queue.length < cfg.queueCapacity.toNat := by
        simpa only [RoomForRecord, hc] using hs
      cases hslice : slice frame with
      | none =>
        rw [hslice] at h
        rw [← Option.some.inj h]
        trivial
      | some record =>
        rw [hslice] at h hroom
        rw [← Option.some.inj h]
        exact hroom rfl
    | send =>
      cases hc : s.capture <;> simp only [step, captureStep, hc, reduceCtorEq] at h
      repeat' split at h
      all_goals simp at h
      all_goals subst h; trivial

theorem not_blocked_of_room (hs : RoomForRecord cfg slice s) : ¬ Blocked cfg s := by
  rintro ⟨record, hc, hfull, -⟩
  rw [RoomForRecord, hc] at hs
  exact Nat.not_lt.mpr hfull hs

/-- A check that lets an acceptable frame through on a full queue: the capture
thread's own next step blocks it. -/
theorem blocks_of_check {as : List (Action Frame)} (hrun : run cfg slice as = some s)
    (hok : ¬ ChecksWithRoom cfg slice s (.capture .isDegraded)) (tsNs : UInt64) :
    ∃ t, run cfg slice (as ++ [.capture .isDegraded, .capture (.process tsNs)]) = some t ∧
      Blocked cfg t := by
  have hreceivers := receivers_pos hrun
  simp only [ChecksWithRoom, not_forall, exists_prop] at hok
  obtain ⟨frame, hc, hd, haccepted, hfull⟩ := hok
  obtain ⟨record, hrecord⟩ := Option.isSome_iff_exists.mp haccepted
  have hcheck : step cfg slice s (.capture .isDegraded) =
      some { s with capture := .checked frame } := by
    simp [step, captureStep, hc, hd]
  have hprocess : step cfg slice { s with capture := .checked frame } (.capture (.process tsNs)) =
      some { s with capture := .sending (record tsNs s.degraded) } := by
    simp [step, captureStep, hrecord]
  refine ⟨{ s with capture := .sending (record tsNs s.degraded) }, ?_, ?_⟩
  · rw [run] at hrun ⊢
    simp [Transition.run_append, hrun, hcheck, hprocess]
  · exact ⟨_, rfl, Nat.not_lt.mp hfull, hreceivers⟩

/-- **When the capture thread never waits for the queue.**  If every check of the flag
that lets an acceptable frame through finds room in the queue, no state of the run
has the capture thread waiting in `tx.send`.  And any check that does not find room
can be followed by the capture thread's own next step into such a state. -/
theorem never_blocked_of_checksWithRoom (cfg : Config)
    (slice : Frame → Option (UInt64 → Bool → Record)) (as : List (Action Frame)) :
    (Transition.Guarded (step cfg slice) (ChecksWithRoom cfg slice) {} as →
        ∀ xs, xs <+: as → ∀ s, run cfg slice xs = some s → ¬ Blocked cfg s) ∧
      ∀ s, run cfg slice as = some s → ¬ ChecksWithRoom cfg slice s (.capture .isDegraded) →
        ∀ tsNs, ∃ t, run cfg slice (as ++ [.capture .isDegraded, .capture (.process tsNs)]) =
          some t ∧ Blocked cfg t := by
  refine ⟨fun hok xs hpre s hrun => ?_, fun s hrun hnot tsNs => blocks_of_check hrun hnot tsNs⟩
  have hinit : RoomForRecord cfg slice ({} : State Frame Record) := trivial
  have hroom : RoomForRecord cfg slice s :=
    Transition.run_invariant_of_guarded (fun _ _ _ hs ha h => step_roomForRecord hs ha h) hinit
      (hok.mono hpre) hrun
  exact not_blocked_of_room hroom

/-- A queue of two records. -/
def twoSlots : Config := { defaultConfig with queueCapacity := 2 }

/-- Two frames fill a queue of two, and the flag is set before the third is checked; the
third is dropped, and while the writer takes a record out a fourth one is let through. -/
def fillsTheQueue : List (Action Unit) :=
  [.writer (.openSegment true), .capture (.next ()), .capture .isDegraded, .capture (.process 0),
    .capture .send, .capture (.next ()), .capture .isDegraded, .capture (.process 1),
    .capture .send, .capture (.next ()), .writer .hotPathCheck, .capture .isDegraded,
    .writer .recv, .sampler none (some 0), .capture (.next ()), .capture .isDegraded,
    .capture (.process 2), .capture .send]

instance (cfg : Config) (slice : Frame → Option (UInt64 → Bool → Record))
    (s : State Frame Record) (a : Action Frame) : Decidable (ChecksWithRoom cfg slice s a) :=
  match a with
  | .capture .isDegraded =>
    match hc : s.capture with
    | .taken frame =>
      decidable_of_iff (s.degraded = false → (slice frame).isSome →
          s.queue.length < cfg.queueCapacity.toNat) (by
        refine ⟨fun h frame' hframe => ?_, fun h => h frame hc⟩
        rw [hc] at hframe
        exact CapturePc.taken.inj hframe ▸ h)
    | .polling | .checked _ | .sending _ | .done => isTrue (by
        intro frame hframe
        rw [hc] at hframe
        cases hframe)
  | .capture (.next _) | .capture .pollFails | .capture (.process _) | .capture .send
  | .writer _ | .sampler _ _ => isTrue trivial

theorem never_blocked_of_checksWithRoom_full :
    (∃ s, run twoSlots (fun _ : Unit => some fun _ _ => ()) (fillsTheQueue.take 10) = some s ∧
      s.queue.length = 2) ∧
    ∀ xs, xs <+: fillsTheQueue →
      ∀ s, run twoSlots (fun _ : Unit => some fun _ _ => ()) xs = some s →
        ¬ Blocked twoSlots s := by
  refine ⟨⟨_, rfl, rfl⟩, ?_⟩
  apply (never_blocked_of_checksWithRoom _ _ _).1
  obtain ⟨t, ht⟩ : ∃ t, Transition.run (Transition.checked
      (step twoSlots fun _ : Unit => some fun _ _ => ())
      (ChecksWithRoom twoSlots fun _ => some fun _ _ => ())) {} fillsTheQueue = some t := ⟨_, rfl⟩
  exact (Transition.guarded_of_checked ht).1

/-- **The capture thread does wait on a full queue**: the writer's first segment could
not be opened, the queue of one record is full, and the flag is still off. -/
theorem capture_blocks_on_full_queue :
    ¬ ∀ (cfg : Config) (slice : Unit → Option (UInt64 → Bool → Unit)) (as : List (Action Unit)) s,
        1 ≤ cfg.queueCapacity → run cfg slice as = some s → ¬ Blocked cfg s := by
  intro h
  exact h { defaultConfig with queueCapacity := 1 } (fun _ => some fun _ _ => ())
    [.writer (.openSegment false), .capture (.next ()), .capture .isDegraded,
      .capture (.process 0), .capture .send, .capture (.next ()), .capture .isDegraded,
      .capture (.process 0)] _ (by decide) rfl ⟨(), rfl, by decide, by decide⟩

/-! ## Nothing frees a capture thread that waits for a writer that is gone -/

theorem step_blocked {a : Action Frame} (hs : Blocked cfg s) (hw : s.writer = .done)
    (h : step cfg slice s a = some t) : Blocked cfg t ∧ t.writer = .done := by
  cases a with
  | sampler resident load =>
    rw [← Option.some.inj h]
    exact ⟨hs, hw⟩
  | writer a => exact absurd hw (writerStep_cases h).1
  | capture a =>
    obtain ⟨record, hc, hfull, hreceivers⟩ := hs
    have hsend : ¬ s.queue.length < cfg.queueCapacity.toNat := Nat.not_lt.mpr hfull
    cases a <;> simp [step, captureStep, hc, hsend, Nat.ne_of_gt hreceivers] at h

/-- **Once the writer is gone, a wait for the queue never ends.** -/
theorem blocked_forever {bs : List (Action Frame)} (hs : Blocked cfg s) (hw : s.writer = .done)
    (h : Transition.run (step cfg slice) s bs = some t) : Blocked cfg t := by
  have hboth : (fun s => Blocked cfg s ∧ s.writer = .done) t :=
    Transition.run_invariant (fun _ _ _ hs ha => step_blocked hs.1 hs.2 ha) ⟨hs, hw⟩ h
  exact hboth.1

/-- The steps that carry one frame into the queue. -/
def enqueue (frame : Frame) : List (Action Frame) :=
  [.capture (.next frame), .capture .isDegraded, .capture (.process 0), .capture .send]

/-- Frame after frame goes into the queue behind the back of a writer that is gone. -/
theorem run_enqueue {frame : Frame} {record : UInt64 → Bool → Record}
    (hslice : slice frame = some record) (n : Nat) (hn : n ≤ cfg.queueCapacity.toNat) :
    ∃ as s, run cfg slice as = some s ∧
      s.capture = .polling ∧ s.queue.length = n ∧ s.degraded = false ∧ s.writer = .done ∧
        s.receivers = 1 := by
  induction n with
  | zero => exact ⟨[.writer (.openSegment false)], _, rfl, rfl, rfl, rfl, rfl, rfl⟩
  | succ n ih =>
    obtain ⟨as, s, hrun, hc, hlen, hd, hw, hr⟩ := ih (Nat.le_of_succ_le hn)
    have hroom : s.queue.length < cfg.queueCapacity.toNat := by omega
    refine ⟨as ++ enqueue frame,
      { s with capture := .polling, queue := s.queue ++ [record 0 false] }, ?_, rfl, ?_,
      hd, hw, hr⟩
    · rw [run, Transition.run_append, ← run, hrun]
      simp [enqueue, step, captureStep, hc, hd, hslice, hr, hroom]
    · rw [List.length_append, hlen]
      rfl

/-- **The wait is reachable whatever the capacity**, with one frame the slicer accepts. -/
theorem blocked_reachable {frame : Frame} {record : UInt64 → Bool → Record}
    (hslice : slice frame = some record) :
    ∃ as s, run cfg slice as = some s ∧ Blocked cfg s ∧ s.writer = .done := by
  obtain ⟨as, s, hrun, hc, hlen, hd, hw, hr⟩ :=
    run_enqueue hslice cfg.queueCapacity.toNat (Nat.le_refl _)
  refine ⟨as ++ [.capture (.next frame), .capture .isDegraded, .capture (.process 0)],
    { s with capture := .sending (record 0 false) }, ?_, ?_, hw⟩
  · rw [run, Transition.run_append, ← run, hrun]
    simp [step, captureStep, hc, hd, hslice]
  · refine ⟨_, rfl, Nat.le_of_eq hlen.symm, ?_⟩
    rw [hr]
    exact Nat.one_pos

end Pipeline
end SovProbe
