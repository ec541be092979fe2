import SovProbe.Hysteresis
import SovProbe.Probe

/-! # The writer thread is the writer

However the threads interleave, the writer thread goes through `WalWriter::run` on the
records it receives, as if it were alone.  `Follows` says where it is, and `Follows.turn`
that each of its turns is the next piece of that run.
-/

namespace SovProbe
open Process Pipeline Received

namespace WalWriter
variable {crc32 : List UInt8 → UInt32} {fuel now : Nat} {start : FileSystem} {w : WalWriter}

/-- A writer just made opens its first segment. -/
theorem loop_nil (hfile : w.file = none) :
    loop crc32 fuel now [] start w = openSegment fuel now start w := by
  have hopen : loop crc32 fuel now [] start w =
      (openSegment fuel now >>= fun _ => pure ()) start w := by
    unfold loop
    rw [get_bind_eq, hfile]
    rfl
  rw [hopen, Process.bind_pure]

/-- One more iteration. -/
theorem loop_concat (received : List Received) (x : Received) :
    loop crc32 fuel now (received ++ [x]) =
      loop crc32 fuel now received >>= fun _ => iteration crc32 fuel x := by
  unfold loop
  simp only [List.forM_eq_forM, List.forM_append, List.forM_cons, List.forM_nil, bind_pure_unit]
  funext d m
  rw [get_bind_eq, Process.bind_assoc, get_bind_eq]
  split
  · rw [Process.bind_assoc]
  · rfl

end WalWriter

namespace Probe
variable (crc32 : List UInt8 → UInt32) (fuel : Nat) (start : FileSystem) (w : WalWriter)

/-- Where the writer thread is in the run on `received`: before its first step, behind what
was received, in the middle of the last iteration, or at the end. -/
def Follows (now : Nat) (received : List Received) :
    WriterPc WalRecord → FileSystem → WalWriter → Prop
  | .opening, disk, writer => received = [] ∧ disk = start ∧ writer = w
  | .rotating, disk, writer => ∃ before record degraded clock,
      received = before ++ [.record record degraded clock] ∧
        ((WalWriter.loop crc32 fuel now before >>= fun _ =>
          WalWriter.handleRecord crc32 fuel record degraded clock.handle) start w).outcome =
            .done () disk writer
  | .done, disk, writer =>
    (WalWriter.run crc32 fuel now received start w).outcome = .done () disk writer
  | _, disk, writer =>
    (WalWriter.loop crc32 fuel now received start w).outcome = .done () disk writer

/-- The program is the next piece of the run on `received`, and leads to a place there. -/
structure Advances (program : Process FileSystem WalWriter Unit) (pc : WriterPc WalRecord)
    (now : Nat) (received : List Received) (disk : FileSystem) (writer : WalWriter) : Prop where
  piece : ∃ (before : Process FileSystem WalWriter Unit)
    (after : Unit → Process FileSystem WalWriter Unit),
      (before start w).outcome = .done () disk writer ∧
      WalWriter.run crc32 fuel now received start w =
        (before >>= fun _ => program >>= after) start w
  leads : ∀ t writer', (program disk writer).outcome = .done () t writer' →
    Follows crc32 fuel start w now received pc t writer'

variable {crc32 fuel start w} {now : Nat} {received : List Received} {pc : WriterPc WalRecord}
  {disk : FileSystem} {writer : WalWriter} {cfg : Config} {s t : State (List UInt8) WalRecord}

/-- The disk is one the run has passed, if anything has been changed at all. -/
theorem Follows.passed (h : Follows crc32 fuel start w now received pc disk writer) :
    disk = start ∨ disk ∈ (WalWriter.run crc32 fuel now received start w).trace := by
  have hloop : ∀ {disk writer},
      (WalWriter.loop crc32 fuel now received start w).outcome = .done () disk writer →
        disk = start ∨ disk ∈ (WalWriter.run crc32 fuel now received start w).trace :=
    fun hdone => (WalWriter.settled_loop crc32 fuel now received _ _ _ _ _ hdone).imp_right
      mem_trace_bind
  cases pc with
  | opening => exact Or.inl h.2.1
  | checking => exact hloop h
  | receiving => exact hloop h
  | handling record => exact hloop h
  | writing record => exact hloop h
  | rotating =>
    obtain ⟨before, record, degraded, clock, rfl, hdone⟩ := h
    have hsettled := (WalWriter.settled_loop crc32 fuel now before).bind fun _ =>
      WalWriter.settled_handleRecord crc32 fuel record degraded clock.handle
    refine (hsettled _ _ _ _ _ hdone).imp_right fun hmem => ?_
    have hrun : WalWriter.run crc32 fuel now (before ++ [.record record degraded clock]) =
        ((WalWriter.loop crc32 fuel now before >>= fun _ =>
          WalWriter.handleRecord crc32 fuel record degraded clock.handle) >>= fun _ =>
            WalWriter.maybeRotate fuel clock.check clock.rotate) >>= fun _ => WalWriter.flush := by
      unfold WalWriter.run
      rw [WalWriter.loop_concat, WalWriter.iteration]
      simp only [Process.bind_assoc]
    rw [hrun]
    exact mem_trace_bind (mem_trace_bind hmem)
  | done =>
    exact ((WalWriter.settled_loop crc32 fuel now received).bind fun _ => WalWriter.settled_flush)
      _ _ _ _ _ h

/-- A turn in which the writer does nothing to the disk, inside the loop. -/
theorem Advances.idle
    (h : (WalWriter.loop crc32 fuel now received start w).outcome = .done () disk writer)
    (hpc : ∀ t writer', (WalWriter.loop crc32 fuel now received start w).outcome =
      .done () t writer' → Follows crc32 fuel start w now received pc t writer') :
    Advances crc32 fuel start w (pure ()) pc now received disk writer where
  piece := ⟨WalWriter.loop crc32 fuel now received, fun _ => WalWriter.flush, h, rfl⟩
  leads t writer' hdone := by
    cases hdone
    exact hpc _ _ h

/-- A record is handled. -/
theorem Advances.handle
    (h : (WalWriter.loop crc32 fuel now received start w).outcome = .done () disk writer)
    (record : WalRecord) (degraded : Bool) (clock : Clock) :
    Advances crc32 fuel start w
      (WalWriter.handleRecord crc32 fuel record degraded clock.handle) .rotating now
      (received ++ [.record record degraded clock]) disk writer where
  piece := by
    refine ⟨WalWriter.loop crc32 fuel now received, fun _ =>
      WalWriter.maybeRotate fuel clock.check clock.rotate >>= fun _ => WalWriter.flush, h, ?_⟩
    unfold WalWriter.run
    rw [WalWriter.loop_concat, WalWriter.iteration]
    simp only [Process.bind_assoc]
  leads t writer' hdone :=
    ⟨received, record, degraded, clock, rfl, (bind_of_done h _).2.trans hdone⟩

/-- The program of a turn the threads allow is the next piece of a run. -/
theorem Follows.turn {turn : WriterTurn} (hfile : w.file = none)
    (h : Follows crc32 fuel start w now received s.writer disk writer)
    (hstep : writerStep cfg s turn.action = some t) (hpanics : turn.panics cfg = false)
    (clock : Clock) :
    ∃ now' received', Advances crc32 fuel start w (turn.program crc32 fuel s clock) t.writer now'
        received' disk writer ∧
      accepted received' = accepted received ++ Event.written (writerEvents s turn.action) ∧
      refused received' = refused received + (Event.discarded (writerEvents s turn.action)).length ∧
      received'.length = received.length + (Event.handled (writerEvents s turn.action)).length := by
  have hsame : ∀ {pc},
      Advances crc32 fuel start w (turn.program crc32 fuel s clock) pc now received disk writer →
      ∃ now' received', Advances crc32 fuel start w (turn.program crc32 fuel s clock) pc now'
          received' disk writer ∧
        accepted received' = accepted received ++ [] ∧ refused received' = refused received + 0 ∧
        received'.length = received.length + 0 :=
    fun hadvances => ⟨now, received, hadvances, (List.append_nil _).symm, rfl, rfl⟩
  cases turn with
  | openSegment =>
    cases hw : s.writer <;> simp only [WriterTurn.action, writerStep, hw, reduceCtorEq] at hstep
    obtain rfl := Option.some.inj hstep
    rw [hw] at h
    obtain ⟨rfl, rfl, rfl⟩ := h
    have hopen : WalWriter.loop crc32 fuel clock.handle [] disk writer =
        WalWriter.openSegment fuel clock.handle disk writer := WalWriter.loop_nil hfile
    refine ⟨clock.handle, [], ⟨⟨pure (), fun _ => WalWriter.flush, rfl, ?_⟩, ?_⟩, rfl, rfl, rfl⟩
    · exact bind_congr_left hopen _
    · exact fun t writer' hdone => (congrArg Execution.outcome hopen).trans hdone
  | hotPathCheck =>
    cases hw : s.writer <;> simp only [WriterTurn.action, writerStep, hw, reduceCtorEq] at hstep
    rw [hw] at h
    have hreturns : ∃ d, Breaker.hotPathCheck (some cfg.queueCapacity)
        (UInt64.ofNat s.queue.length) cfg.queueHighWatermark s.degraded = .ok d := by
      have hcapacity : cfg.queueCapacity ≠ 0 := by simpa [WriterTurn.panics] using hpanics
      exact ⟨_, Breaker.hotPathCheck_returns cfg hcapacity _ _⟩
    obtain ⟨d, hd⟩ := hreturns
    rw [hd] at hstep
    obtain rfl := Option.some.inj hstep
    exact hsame (Advances.idle h fun _ _ hdone => hdone)
  | recv =>
    cases hw : s.writer <;> cases hq : s.queue <;>
      simp only [WriterTurn.action, writerStep, hw, hq, reduceCtorEq] at hstep
    obtain rfl := Option.some.inj hstep
    rw [hw] at h
    simp only [WriterTurn.action, writerEvents, hq]
    exact hsame (Advances.idle h fun _ _ hdone => hdone)
  | timeout =>
    cases hw : s.writer <;> cases hq : s.queue <;>
      simp only [WriterTurn.action, writerStep, hw, hq, reduceCtorEq] at hstep
    obtain rfl := Option.some.inj hstep
    rw [hw] at h
    exact hsame (Advances.idle h fun _ _ hdone => hdone)
  | disconnected =>
    cases hw : s.writer <;> cases hq : s.queue <;> cases hc : s.capture <;>
      simp only [WriterTurn.action, writerStep, hw, hq, hc, reduceCtorEq] at hstep
    obtain rfl := Option.some.inj hstep
    rw [hw] at h
    refine hsame ⟨⟨WalWriter.loop crc32 fuel now received, fun _ => pure (), h, ?_⟩, ?_⟩
    · rw [Process.bind_pure]
      rfl
    · exact fun t writer' hdone => (bind_of_done h _).2.trans hdone
  | handleRecord =>
    cases hw : s.writer <;> simp only [WriterTurn.action, writerStep, hw, reduceCtorEq] at hstep
    rename_i record
    rw [hw] at h
    cases hd : s.degraded with
    | true =>
      rw [hd, if_pos rfl] at hstep
      obtain rfl := Option.some.inj hstep
      have hhandle := Advances.handle h record true clock
      simp only [WriterTurn.program, WriterTurn.action, writerEvents, hw, hd, if_true]
      refine ⟨now, _, hhandle, ?_, ?_, List.length_append⟩
      · rw [accepted_append]
        rfl
      · rw [refused_append]
        rfl
    | false =>
      rw [hd, if_neg Bool.false_ne_true] at hstep
      obtain rfl := Option.some.inj hstep
      simp only [WriterTurn.program, WriterTurn.action, writerEvents, hw, hd] at hsame ⊢
      exact hsame (Advances.idle h fun _ _ hdone => hdone)
  | writeAll =>
    cases hw : s.writer <;>
      simp only [WriterTurn.action, writerStep, hw, if_true, reduceCtorEq] at hstep
    rename_i record
    obtain rfl := Option.some.inj hstep
    rw [hw] at h
    have hhandle := Advances.handle h record false clock
    simp only [WriterTurn.program, WriterTurn.action, writerEvents, hw, if_true]
    refine ⟨now, _, hhandle, ?_, ?_, List.length_append⟩
    · rw [accepted_append]
      rfl
    · rw [refused_append]
      rfl
  | maybeRotate =>
    cases hw : s.writer <;>
      simp only [WriterTurn.action, writerStep, hw, if_true, reduceCtorEq] at hstep
    obtain rfl := Option.some.inj hstep
    rw [hw] at h
    obtain ⟨before, record, degraded, handled, rfl, hdone⟩ := h
    -- the readings of the clock that were still open
    have hconcat : WalWriter.loop crc32 fuel now (before ++
        [.record record degraded ⟨handled.handle, clock.check, clock.rotate⟩]) =
        (WalWriter.loop crc32 fuel now before >>= fun _ =>
          WalWriter.handleRecord crc32 fuel record degraded handled.handle) >>= fun _ =>
            WalWriter.maybeRotate fuel clock.check clock.rotate := by
      rw [WalWriter.loop_concat, WalWriter.iteration, Process.bind_assoc]
    refine ⟨now, before ++ [.record record degraded ⟨handled.handle, clock.check, clock.rotate⟩],
      ⟨⟨_, fun _ => WalWriter.flush, hdone, ?_⟩, ?_⟩, ?_, ?_, ?_⟩
    · rw [WalWriter.run, hconcat, Process.bind_assoc]
      rfl
    · intro t writer' hrotated
      have hloop := (bind_of_done hdone fun _ =>
        WalWriter.maybeRotate fuel clock.check clock.rotate).2.trans hrotated
      rw [← hconcat] at hloop
      exact hloop
    · have hnone : Event.written (writerEvents s WriterTurn.maybeRotate.action) = [] := rfl
      rw [hnone, List.append_nil, accepted_append, accepted_append]
      cases degraded <;> rfl
    · have hnone : Event.discarded (writerEvents s WriterTurn.maybeRotate.action) = [] := rfl
      rw [hnone, refused_append, refused_append]
      cases degraded <;> rfl
    · rw [List.length_append, List.length_append]
      rfl

end Probe

end SovProbe
