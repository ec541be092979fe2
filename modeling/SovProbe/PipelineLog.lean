import SovProbe.FailOpen

/-! # What becomes of a frame

A run of the probe, with a log of what happens to frames and records: taken from the
ring buffer, dropped while degraded, rejected by the slicer, put into the queue,
received by the writer, written, discarded.  The log is read off the steps and does
not influence them.

Whatever the interleaving, nothing is lost between two stages: `Effect` says what a
sequence of steps moved through the queue and through the hands of the two threads,
and effects compose.
-/

namespace SovProbe
namespace Pipeline
variable {Frame Record : Type}

/-- What becomes of frames and records. -/
inductive Event (Frame Record : Type) where
  | take (frame : Frame)
  /-- Dropped by the capture thread, with the flag as it was when the frame was taken. -/
  | drop (frame : Frame) (degraded : Bool)
  | reject (frame : Frame)
  | enqueue (record : Record)
  /-- Lost by the capture thread: no receiver is alive. -/
  | hangUp (record : Record)
  | receive (record : Record)
  | discard (record : Record)
  | write (record : Record)
  /-- Lost by the writer: the write fails. -/
  | fail (record : Record)
  deriving DecidableEq, Repr

namespace Event

/-- The frames taken from the ring buffer. -/
def taken (es : List (Event Frame Record)) : List Frame :=
  es.filterMap fun | take frame => some frame | _ => none

/-- The frames the capture thread has dropped, with the flag as it was when each was taken. -/
def dropped (es : List (Event Frame Record)) : List (Frame × Bool) :=
  es.filterMap fun | drop frame degraded => some (frame, degraded) | _ => none

/-- The frames of which the slicer has made no record. -/
def rejected (es : List (Event Frame Record)) : List Frame :=
  es.filterMap fun | reject frame => some frame | _ => none

/-- The records put into the queue. -/
def enqueued (es : List (Event Frame Record)) : List Record :=
  es.filterMap fun | enqueue record => some record | _ => none

/-- The records that could not be sent. -/
def hungUp (es : List (Event Frame Record)) : List Record :=
  es.filterMap fun | hangUp record => some record | _ => none

/-- The records the writer has taken out of the queue. -/
def received (es : List (Event Frame Record)) : List Record :=
  es.filterMap fun | receive record => some record | _ => none

/-- The records the writer has dropped. -/
def discarded (es : List (Event Frame Record)) : List Record :=
  es.filterMap fun | discard record => some record | _ => none

/-- The records the writer has written. -/
def written (es : List (Event Frame Record)) : List Record :=
  es.filterMap fun | write record => some record | _ => none

/-- The records the writer could not write. -/
def failed (es : List (Event Frame Record)) : List Record :=
  es.filterMap fun | fail record => some record | _ => none

/-- The records that left the writer's hands, one way or another. -/
def handled (es : List (Event Frame Record)) : List Record :=
  es.filterMap fun
    | write record => some record
    | discard record => some record
    | fail record => some record
    | _ => none

/-! What is read off the parts of a log is what is read off the whole. -/

variable (es fs : List (Event Frame Record))

@[simp] theorem taken_append : taken (es ++ fs) = taken es ++ taken fs :=
  List.filterMap_append

@[simp] theorem dropped_append : dropped (es ++ fs) = dropped es ++ dropped fs :=
  List.filterMap_append

@[simp] theorem rejected_append : rejected (es ++ fs) = rejected es ++ rejected fs :=
  List.filterMap_append

@[simp] theorem enqueued_append : enqueued (es ++ fs) = enqueued es ++ enqueued fs :=
  List.filterMap_append

@[simp] theorem hungUp_append : hungUp (es ++ fs) = hungUp es ++ hungUp fs :=
  List.filterMap_append

@[simp] theorem received_append : received (es ++ fs) = received es ++ received fs :=
  List.filterMap_append

@[simp] theorem discarded_append : discarded (es ++ fs) = discarded es ++ discarded fs :=
  List.filterMap_append

@[simp] theorem written_append : written (es ++ fs) = written es ++ written fs :=
  List.filterMap_append

@[simp] theorem failed_append : failed (es ++ fs) = failed es ++ failed fs :=
  List.filterMap_append

@[simp] theorem handled_append : handled (es ++ fs) = handled es ++ handled fs :=
  List.filterMap_append

theorem handled_length :
    (handled es).length = (written es).length + (discarded es).length + (failed es).length := by
  induction es with
  | nil => rfl
  | cons e es ih =>
    cases e <;> simp [handled, written, discarded, failed] at ih ⊢ <;> omega

/-- If nothing is discarded and no write fails, what left the writer was written. -/
theorem handled_eq_written {es : List (Event Frame Record)} (hdiscarded : discarded es = [])
    (hfailed : failed es = []) : handled es = written es := by
  induction es with
  | nil => rfl
  | cons e es ih =>
    cases e <;> simp [handled, written, discarded, failed] at hdiscarded hfailed ih ⊢ <;>
      exact ih hdiscarded hfailed

end Event

/-! ## The log of a run -/

/-- What the capture thread's step does to a frame or a record. -/
def captureEvents (slice : Frame → Option (UInt64 → Bool → Record)) (s : State Frame Record)
    (takenDegraded : Bool) : CaptureAction Frame → List (Event Frame Record)
  | .next frame => [.take frame]
  | .pollFails => []
  | .isDegraded =>
    match s.capture with
    | .taken frame => if s.degraded then [.drop frame takenDegraded] else []
    | _ => []
  | .process _ =>
    match s.capture with
    | .checked frame => if (slice frame).isSome then [] else [.reject frame]
    | _ => []
  | .send =>
    match s.capture with
    | .sending record => if s.receivers = 0 then [.hangUp record] else [.enqueue record]
    | _ => []

/-- What the writer's step does to a record. -/
def writerEvents (s : State Frame Record) : WriterAction → List (Event Frame Record)
  | .recv =>
    match s.queue with
    | record :: _ => [.receive record]
    | [] => []
  | .handleRecord =>
    match s.writer with
    | .handling record => if s.degraded then [.discard record] else []
    | _ => []
  | .writeAll ok =>
    match s.writer with
    | .writing record => if ok then [.write record] else [.fail record]
    | _ => []
  | _ => []

/-- A state with the log of the run that led to it. -/
structure Traced (Frame Record : Type) where
  state : State Frame Record := {}
  /-- The flag when the capture thread last took a frame. -/
  takenDegraded : Bool := false
  log : List (Event Frame Record) := []

variable (cfg : Config) (slice : Frame → Option (UInt64 → Bool → Record))

/-- What a step of any thread does to frames and records. -/
def eventsOf (s : Traced Frame Record) : Action Frame → List (Event Frame Record)
  | .capture a => captureEvents slice s.state s.takenDegraded a
  | .writer a => writerEvents s.state a
  | .sampler _ _ => []

/-- The flag to remember for the frame the capture thread is at. -/
def takenDegradedOf (s : Traced Frame Record) : Action Frame → Bool
  | .capture (.next _) => s.state.degraded
  | _ => s.takenDegraded

/-- A step with its log. -/
def tracedStep (s : Traced Frame Record) (a : Action Frame) : Option (Traced Frame Record) :=
  (step cfg slice s.state a).map fun t =>
    { state := t, takenDegraded := takenDegradedOf s a, log := s.log ++ eventsOf slice s a }

/-- A run from the beginning, with its log. -/
def tracedRun (as : List (Action Frame)) : Option (Traced Frame Record) :=
  Transition.run (tracedStep cfg slice) {} as

variable {cfg slice} {s t : Traced Frame Record} {a : Action Frame}

theorem tracedStep_eq_some : tracedStep cfg slice s a = some t ↔
    step cfg slice s.state a = some t.state ∧ t.takenDegraded = takenDegradedOf s a ∧
      t.log = s.log ++ eventsOf slice s a := by
  obtain ⟨state, takenDegraded, log⟩ := t
  rw [tracedStep, Option.map_eq_some_iff]
  constructor
  · rintro ⟨t, ht, heq⟩
    obtain ⟨rfl, rfl, rfl⟩ := Traced.mk.inj heq
    exact ⟨ht, rfl, rfl⟩
  · rintro ⟨ht, rfl, rfl⟩
    exact ⟨state, ht, rfl⟩

/-- **The log changes nothing**: the runs with it are the runs. -/
theorem tracedRun_state (as : List (Action Frame)) :
    (tracedRun cfg slice as).map Traced.state = run cfg slice as := by
  have key : ∀ (as : List (Action Frame)) (s : Traced Frame Record),
      (Transition.run (tracedStep cfg slice) s as).map Traced.state =
        Transition.run (step cfg slice) s.state as := by
    intro as
    induction as with
    | nil => intro s; rfl
    | cons a as ih =>
      intro s
      rw [Transition.run_cons, Transition.run_cons, tracedStep]
      cases step cfg slice s.state a with
      | none => rfl
      | some t => exact ih _
  exact key as {}

/-! ## What steps move -/

/-- The number of frames or records in the capture thread's hands. -/
def captureHeld : CapturePc Frame Record → Nat
  | .polling => 0
  | .done => 0
  | _ => 1

/-- The record in the writer's hands. -/
def inHand : WriterPc Record → List Record
  | .handling record => [record]
  | .writing record => [record]
  | _ => []

/-- What happened between two states, by the log. -/
structure Effect (s : State Frame Record) (es : List (Event Frame Record))
    (t : State Frame Record) : Prop where
  capture : captureHeld s.capture + (Event.taken es).length =
    (Event.dropped es).length + (Event.rejected es).length + (Event.enqueued es).length +
      (Event.hungUp es).length + captureHeld t.capture
  queue : s.queue ++ Event.enqueued es = Event.received es ++ t.queue
  writer : inHand s.writer ++ Event.received es = Event.handled es ++ inHand t.writer
  breakerDropped : t.breakerDropped = s.breakerDropped + (Event.dropped es).length
  writtenRecords : t.writtenRecords = s.writtenRecords + (Event.written es).length
  droppedRecords : t.droppedRecords = s.droppedRecords + (Event.discarded es).length

theorem Effect.refl (s : State Frame Record) : Effect s [] s where
  capture := by simp [Event.taken, Event.dropped, Event.rejected, Event.enqueued, Event.hungUp]
  queue := List.append_nil _
  writer := List.append_nil _
  breakerDropped := rfl
  writtenRecords := rfl
  droppedRecords := rfl

/-- **Effects compose.** -/
theorem Effect.trans {s t u : State Frame Record} {es fs : List (Event Frame Record)}
    (h : Effect s es t) (h' : Effect t fs u) : Effect s (es ++ fs) u where
  capture := by
    have hfirst := h.capture
    have hsecond := h'.capture
    simp only [Event.taken_append, Event.dropped_append, Event.rejected_append,
      Event.enqueued_append, Event.hungUp_append, List.length_append]
    omega
  queue := by
    rw [Event.enqueued_append, Event.received_append, ← List.append_assoc, h.queue,
      List.append_assoc, h'.queue, List.append_assoc]
  writer := by
    rw [Event.received_append, Event.handled_append, ← List.append_assoc, h.writer,
      List.append_assoc, h'.writer, List.append_assoc]
  breakerDropped := by
    rw [h'.breakerDropped, h.breakerDropped, Event.dropped_append, List.length_append,
      Nat.add_assoc]
  writtenRecords := by
    rw [h'.writtenRecords, h.writtenRecords, Event.written_append, List.length_append,
      Nat.add_assoc]
  droppedRecords := by
    rw [h'.droppedRecords, h.droppedRecords, Event.discarded_append, List.length_append,
      Nat.add_assoc]

/-- A step that moves nothing. -/
theorem Effect.quiet {s t : State Frame Record}
    (hcapture : captureHeld t.capture = captureHeld s.capture) (hqueue : t.queue = s.queue)
    (hwriter : inHand t.writer = inHand s.writer) (hbreaker : t.breakerDropped = s.breakerDropped)
    (hwritten : t.writtenRecords = s.writtenRecords)
    (hdropped : t.droppedRecords = s.droppedRecords) : Effect s [] t where
  capture := by rw [hcapture]; exact (Effect.refl s).capture
  queue := by rw [hqueue]; exact (Effect.refl s).queue
  writer := by rw [hwriter]; exact (Effect.refl s).writer
  breakerDropped := hbreaker
  writtenRecords := hwritten
  droppedRecords := hdropped

section
attribute [local simp] captureHeld inHand Event.taken Event.dropped Event.rejected Event.enqueued
  Event.hungUp Event.received Event.handled Event.written Event.discarded

/-- A step of the capture thread. -/
theorem captureStep_effect {s t : State Frame Record} {a : CaptureAction Frame}
    (takenDegraded : Bool) (h : captureStep cfg slice s a = some t) :
    Effect s (captureEvents slice s takenDegraded a) t := by
  cases a with
  | next frame =>
    cases hc : s.capture <;> simp [captureStep, hc] at h
    subst h
    constructor <;> simp [captureEvents, hc]
  | pollFails =>
    cases hc : s.capture <;> simp [captureStep, hc] at h
    subst h
    exact Effect.quiet (by rw [hc]; rfl) rfl rfl rfl rfl rfl
  | isDegraded =>
    cases hc : s.capture <;> simp only [captureStep, hc, reduceCtorEq] at h
    cases hd : s.degraded <;> simp only [hd, if_true, Bool.false_eq_true, if_false] at h <;>
      obtain rfl := Option.some.inj h
    · simp only [captureEvents, hc, hd, Bool.false_eq_true, if_false]
      exact Effect.quiet (by rw [hc]; rfl) rfl rfl rfl rfl rfl
    · constructor <;> simp [captureEvents, hc, hd]
  | process tsNs =>
    cases hc : s.capture <;> simp only [captureStep, hc, reduceCtorEq] at h
    rename_i frame
    cases hs : slice frame <;> simp only [hs] at h <;> obtain rfl := Option.some.inj h
    · constructor <;> simp [captureEvents, hc, hs]
    · simp only [captureEvents, hc, hs, Option.isSome_some, if_true]
      exact Effect.quiet (by rw [hc]; rfl) rfl rfl rfl rfl rfl
  | send =>
    cases hc : s.capture <;> simp only [captureStep, hc, reduceCtorEq] at h
    by_cases hr : s.receivers = 0
    · rw [if_pos hr] at h
      obtain rfl := Option.some.inj h
      constructor <;> simp [captureEvents, hc, hr]
    · rw [if_neg hr] at h
      by_cases hroom : s.queue.length < cfg.queueCapacity.toNat
      · rw [if_pos hroom] at h
        obtain rfl := Option.some.inj h
        constructor <;> simp [captureEvents, hc, hr]
      · rw [if_neg hroom] at h
        cases h

/-- The writer leaves while another receiver is alive. -/
theorem writerExits_effect {s : State Frame Record} (hreceivers : s.receivers = 2)
    (hwriter : inHand s.writer = []) : Effect s [] s.writerExits := by
  refine Effect.quiet rfl ?_ ?_ rfl rfl rfl
  · rw [State.writerExits, hreceivers]
    rfl
  · rw [hwriter]
    rfl

/-- A step of the writer, which is not the last receiver. -/
theorem writerStep_effect {s t : State Frame Record} {a : WriterAction}
    (hreceivers : s.receivers = receiversOf s.writer) (h : writerStep cfg s a = some t) :
    Effect s (writerEvents s a) t := by
  have htwo : s.receivers = 2 := hreceivers.trans (receiversOf_running (writerStep_cases h).1)
  cases a with
  | openSegment ok =>
    cases hw : s.writer <;> simp only [writerStep, hw, reduceCtorEq] at h
    cases ok <;> simp only [if_true, Bool.false_eq_true, if_false] at h <;>
      obtain rfl := Option.some.inj h
    · exact writerExits_effect htwo (by rw [hw]; rfl)
    · exact Effect.quiet rfl rfl (by rw [hw]; rfl) rfl rfl rfl
  | hotPathCheck =>
    cases hw : s.writer <;> simp only [writerStep, hw, reduceCtorEq] at h
    split at h <;> obtain rfl := Option.some.inj h
    · exact Effect.quiet rfl rfl (by rw [hw]; rfl) rfl rfl rfl
    · exact writerExits_effect htwo (by rw [hw]; rfl)
  | recv =>
    cases hw : s.writer <;> cases hq : s.queue <;> simp [writerStep, hw, hq] at h
    subst h
    constructor <;> simp [writerEvents, hw, hq]
  | timeout =>
    cases hw : s.writer <;> cases hq : s.queue <;> simp [writerStep, hw, hq] at h
    subst h
    exact Effect.quiet rfl hq.symm (by rw [hw]; rfl) rfl rfl rfl
  | disconnected =>
    cases hw : s.writer <;> cases hq : s.queue <;> cases hc : s.capture <;>
      simp [writerStep, hw, hq, hc] at h
    subst h
    exact writerExits_effect htwo (by rw [hw]; rfl)
  | handleRecord =>
    cases hw : s.writer <;> simp only [writerStep, hw, reduceCtorEq] at h
    cases hd : s.degraded <;> simp only [hd, if_true, Bool.false_eq_true, if_false] at h <;>
      obtain rfl := Option.some.inj h
    · simp only [writerEvents, hw, hd, Bool.false_eq_true, if_false]
      exact Effect.quiet rfl rfl (by rw [hw]; rfl) rfl rfl rfl
    · constructor <;> simp [writerEvents, hw, hd]
  | writeAll ok =>
    cases hw : s.writer <;> simp only [writerStep, hw, reduceCtorEq] at h
    cases ok <;> simp only [if_true, Bool.false_eq_true, if_false] at h <;>
      obtain rfl := Option.some.inj h
    · constructor <;> simp [writerEvents, hw, htwo, State.writerExits]
    · constructor <;> simp [writerEvents, hw]
  | maybeRotate ok =>
    cases hw : s.writer <;> simp only [writerStep, hw, reduceCtorEq] at h
    cases ok <;> simp only [if_true, Bool.false_eq_true, if_false] at h <;>
      obtain rfl := Option.some.inj h
    · exact writerExits_effect htwo (by rw [hw]; rfl)
    · exact Effect.quiet rfl rfl (by rw [hw]; rfl) rfl rfl rfl

end

/-- **One step of any thread.** -/
theorem tracedStep_effect (hreceivers : ReceiversCounted s.state)
    (h : tracedStep cfg slice s a = some t) : Effect s.state (eventsOf slice s a) t.state := by
  obtain ⟨hstep, -, -⟩ := tracedStep_eq_some.mp h
  cases a with
  | capture a => exact captureStep_effect s.takenDegraded hstep
  | writer a => exact writerStep_effect hreceivers hstep
  | sampler resident load =>
    rw [← Option.some.inj hstep]
    exact Effect.quiet rfl rfl rfl rfl rfl rfl

/-- What is known of a run with its log. -/
structure Logged (s : Traced Frame Record) : Prop where
  receivers : ReceiversCounted s.state
  effect : Effect {} s.log s.state

/-- **The log of a run is its effect**: every frame and record taken over at one stage
is at the next one, in the queue, in a thread's hands, or among those dropped. -/
theorem logged_of_run {as : List (Action Frame)} (h : tracedRun cfg slice as = some s) :
    Logged s := by
  have hinit : Logged ({} : Traced Frame Record) := ⟨rfl, Effect.refl _⟩
  refine Transition.run_invariant (fun s a t hs ha => ?_) hinit h
  obtain ⟨hstep, -, hlog⟩ := tracedStep_eq_some.mp ha
  refine ⟨step_receiversCounted hs.receivers hstep, ?_⟩
  rw [hlog]
  exact hs.effect.trans (tracedStep_effect hs.receivers ha)

end Pipeline
end SovProbe
