import SovProbe.PipelineLog

/-! # The exported counters

`metrics.rs`, and the part of `main` that hands two of the counters to the writer.  No
thread has the others: what the capture thread drops it counts in the breaker, and what
the slicer rejects nobody counts.
-/

namespace SovProbe

/-- `Metrics`, the counters that are exported. -/
structure Metrics where
  captured : Nat := 0
  written : Nat := 0
  dropped : Nat := 0
  degraded : Nat := 0
  slicerDropped : Nat := 0

/-- The samples of `Metrics::render`. -/
def Metrics.render (self : Metrics) (degradedNow : Bool) : List (String × Nat) :=
  [("sovprobe_captured_total", self.captured),
    ("sovprobe_written_total", self.written),
    ("sovprobe_dropped_total", self.dropped),
    ("sovprobe_degraded_total", self.degraded),
    ("sovprobe_degraded_now", degradedNow.toNat),
    ("sovprobe_slicer_dropped_total", self.slicerDropped)]

namespace Pipeline
variable {Frame Record : Type} {cfg : Config} {slice : Frame → Option (UInt64 → Bool → Record)}
  {t : Traced Frame Record} {as : List (Action Frame)}

/-- The metrics in `main`: `written` and `dropped` are the writer's two counters. -/
def exported (s : State Frame Record) : Metrics :=
  { written := s.writtenRecords, dropped := s.droppedRecords }

/-- The frames and records in the hands of the two threads. -/
def held (s : State Frame Record) : Nat := captureHeld s.capture + (inHand s.writer).length

/-- The samples say how many frames were taken from the ring buffer, and where they are. -/
def Accounts (t : Traced Frame Record) : Prop :=
  ∃ captured written dropped slicerDropped,
    ((exported t.state).render t.state.degraded).lookup "sovprobe_captured_total" = some captured ∧
    ((exported t.state).render t.state.degraded).lookup "sovprobe_written_total" = some written ∧
    ((exported t.state).render t.state.degraded).lookup "sovprobe_dropped_total" = some dropped ∧
    ((exported t.state).render t.state.degraded).lookup "sovprobe_slicer_dropped_total" =
      some slicerDropped ∧
    captured = (Event.taken t.log).length ∧
    captured = written + dropped + slicerDropped + t.state.queue.length + held t.state

theorem accounts_iff_counts : Accounts t ↔ 0 = (Event.taken t.log).length ∧
    0 = t.state.writtenRecords + t.state.droppedRecords + t.state.queue.length + held t.state := by
  constructor
  · rintro ⟨captured, written, dropped, slicerDropped, hcaptured, hwritten, hdropped, hslicer, hall⟩
    cases hcaptured
    cases hwritten
    cases hdropped
    cases hslicer
    exact hall
  · intro hall
    exact ⟨_, _, _, _, rfl, rfl, rfl, rfl, hall⟩

/-- **Where the frames are.**  In every reachable state each frame taken from the ring
buffer is counted as dropped by one of the two threads or as written, was rejected or
lost, or is in the queue or in a thread's hands. -/
theorem taken_length (h : tracedRun cfg slice as = some t) :
    (Event.taken t.log).length =
      t.state.writtenRecords + t.state.droppedRecords + t.state.breakerDropped +
        (Event.rejected t.log).length + (Event.hungUp t.log).length +
          (Event.failed t.log).length + t.state.queue.length + held t.state := by
  have heffect := (logged_of_run h).effect
  have hcapture : 0 + (Event.taken t.log).length = _ := heffect.capture
  have hqueue := congrArg List.length heffect.queue
  have hwriter := congrArg List.length heffect.writer
  have hbreaker : t.state.breakerDropped = 0 + _ := heffect.breakerDropped
  have hwritten : t.state.writtenRecords = 0 + _ := heffect.writtenRecords
  have hdropped : t.state.droppedRecords = 0 + _ := heffect.droppedRecords
  have hhandled := Event.handled_length t.log
  have hempty : ([] : List Record).length = 0 := rfl
  rw [List.length_append, List.length_append] at hqueue hwriter
  change ([] : List Record).length + _ = _ at hqueue hwriter
  rw [held]
  omega

/-- **The exported metrics account for the frames only as long as there are none.** -/
theorem accounts_iff (h : tracedRun cfg slice as = some t) :
    Accounts t ↔ Event.taken t.log = [] := by
  have hwhere := taken_length h
  rw [accounts_iff_counts, ← List.length_eq_zero_iff]
  constructor
  · rintro ⟨hnone, -⟩
    exact hnone.symm
  · intro hnone
    omega

/-- The writer opens its first segment, and then a frame goes all the way to the disk and
the next one waits in the queue. -/
theorem accounts_iff_oneWritten :
    (∃ t, tracedRun defaultConfig (fun _ : Unit => some fun _ _ => ())
        [.writer (.openSegment true)] = some t ∧ Accounts t) ∧
      ∃ t, tracedRun defaultConfig (fun _ : Unit => some fun _ _ => ())
          ([.writer (.openSegment true)] ++ enqueue () ++
            [.writer .hotPathCheck, .writer .recv, .writer .handleRecord,
              .writer (.writeAll true), .writer (.maybeRotate true)] ++ enqueue ()) = some t ∧
        t.state.writtenRecords = 1 ∧ t.state.queue = [()] ∧ ¬ Accounts t := by
  constructor
  · obtain ⟨t, ht, hnone⟩ : ∃ t, tracedRun defaultConfig (fun _ : Unit => some fun _ _ => ())
        [.writer (.openSegment true)] = some t ∧ Event.taken t.log = [] := ⟨_, rfl, rfl⟩
    exact ⟨t, ht, (accounts_iff ht).mpr hnone⟩
  · obtain ⟨t, ht, htaken, hwritten, hqueue⟩ :
        ∃ t, tracedRun defaultConfig (fun _ : Unit => some fun _ _ => ())
            ([.writer (.openSegment true)] ++ enqueue () ++
              [.writer .hotPathCheck, .writer .recv, .writer .handleRecord,
                .writer (.writeAll true), .writer (.maybeRotate true)] ++ enqueue ()) = some t ∧
          Event.taken t.log = [(), ()] ∧ t.state.writtenRecords = 1 ∧ t.state.queue = [()] :=
      ⟨_, rfl, rfl, rfl, rfl⟩
    refine ⟨t, ht, hwritten, hqueue, fun haccounts => ?_⟩
    have hnone := (accounts_iff ht).mp haccounts
    rw [htaken] at hnone
    cases hnone

/-- **A frame that was taken is not counted.** -/
theorem captured_not_counted :
    ¬ ∀ (cfg : Config) (slice : Unit → Option (UInt64 → Bool → Unit)) (as : List (Action Unit)) t,
        tracedRun cfg slice as = some t → Accounts t := by
  intro h
  have haccounts := h defaultConfig (fun _ => some fun _ _ => ()) [.capture (.next ())] _ rfl
  exact absurd (accounts_iff_counts.mp haccounts).1 (by decide)

end Pipeline
end SovProbe
