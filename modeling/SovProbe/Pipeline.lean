import SovProbe.Breaker
import SovProbe.Transition

/-! # From the ring buffer to the writer

The capture loop of `capture/mod.rs`, the bounded channel, the loop of
`wal/writer.rs`, the background sampler and the reference to the receiver that
`main` keeps.  The three threads interleave between any two steps.  Each access to what
they share (the flag, the channel, the counters) is a step of its own, with one exception:
`hotPathCheck` reads the length of the queue and stores the flag in one step, with nothing
of the other threads in between.  A check that panics ends the writer thread here, and
nothing else; that the release profile ends the process is for `Probe` to say.

What a record holds does not matter here: `slice` gives, for a frame the slicer
accepts, its record as a function of the timestamp and of the flag.  What a file
operation does is left open, and so is how long it takes: a step of the writer that
performs one either succeeds or fails, and may come at any time.
-/

namespace SovProbe
namespace Pipeline
variable {Frame Record : Type}

/-- Where the capture thread is. -/
inductive CapturePc (Frame Record : Type) where
  /-- About to poll the ring buffer. -/
  | polling
  /-- With a frame of the ring buffer, before the check of the flag. -/
  | taken (frame : Frame)
  /-- Behind the check, before the slicer. -/
  | checked (frame : Frame)
  /-- In `tx.send`. -/
  | sending (record : Record)
  | done
  deriving DecidableEq, Repr

/-- Where the writer is. -/
inductive WriterPc (Record : Type) where
  /-- In the first `open_segment`. -/
  | opening
  /-- At the top of the loop, before `hot_path_check`. -/
  | checking
  /-- In `rx.recv_timeout`. -/
  | receiving
  /-- In `handle_record`, before the check of the flag. -/
  | handling (record : Record)
  /-- In `handle_record`, behind it. -/
  | writing (record : Record)
  /-- In `maybe_rotate`. -/
  | rotating
  | done
  deriving DecidableEq, Repr

/-- What the threads share, and where each of them is.  The counters are `breaker.dropped`
and the two of the writer. -/
structure State (Frame Record : Type) where
  degraded : Bool := false
  queue : List Record := []
  /-- Live references to the receiver: the writer's and the one `main` keeps. -/
  receivers : Nat := 2
  capture : CapturePc Frame Record := .polling
  writer : WriterPc Record := .opening
  breakerDropped : Nat := 0
  writtenRecords : Nat := 0
  droppedRecords : Nat := 0
  deriving DecidableEq, Repr

/-- The steps of `Capture::consume`, with what comes from outside. -/
inductive CaptureAction (Frame : Type) where
  | next (frame : Frame)
  | pollFails
  | isDegraded
  | process (tsNs : UInt64)
  | send

/-- The steps of `WalWriter::run`, each with whether its file operations succeed. -/
inductive WriterAction where
  | openSegment (ok : Bool)
  | hotPathCheck
  | recv
  | timeout
  | disconnected
  | handleRecord
  | writeAll (ok : Bool)
  | maybeRotate (ok : Bool)

/-- A step of one of the threads. -/
inductive Action (Frame : Type) where
  | capture (a : CaptureAction Frame)
  | writer (a : WriterAction)
  | sampler (resident : Option UInt64) (load : Option UInt8)

/-- The writer returns or panics: its reference to the receiver goes, and with the
last one the records in the channel. -/
def State.writerExits (s : State Frame Record) : State Frame Record :=
  { s with
    writer := .done
    receivers := s.receivers - 1
    queue := if s.receivers - 1 = 0 then [] else s.queue }

variable (cfg : Config) (slice : Frame → Option (UInt64 → Bool → Record))

/-- A step of `Capture::consume`. -/
def captureStep (s : State Frame Record) : CaptureAction Frame → Option (State Frame Record)
  | .next frame =>
    match s.capture with
    | .polling => some { s with capture := .taken frame }
    | _ => none
  | .pollFails =>
    match s.capture with
    | .polling => some { s with capture := .done }
    | _ => none
  | .isDegraded =>
    match s.capture with
    | .taken frame =>
      if s.degraded then
        some { s with capture := .polling, breakerDropped := s.breakerDropped + 1 }
      else
        some { s with capture := .checked frame }
    | _ => none
  | .process tsNs =>
    match s.capture with
    | .checked frame =>
      match slice frame with
      | some record => some { s with capture := .sending (record tsNs s.degraded) }
      | none => some { s with capture := .polling }
    | _ => none
  | .send =>
    match s.capture with
    | .sending record =>
      if s.receivers = 0 then
        some { s with capture := .done }
      else if s.queue.length < cfg.queueCapacity.toNat then
        some { s with capture := .polling, queue := s.queue ++ [record] }
      else
        none -- blocked
    | _ => none

/-- A step of `WalWriter::run`. -/
def writerStep (s : State Frame Record) : WriterAction → Option (State Frame Record)
  | .openSegment ok =>
    match s.writer with
    | .opening => if ok then some { s with writer := .checking } else some s.writerExits
    | _ => none
  | .hotPathCheck =>
    match s.writer with
    | .checking =>
      match Breaker.hotPathCheck (some cfg.queueCapacity) (UInt64.ofNat s.queue.length)
          cfg.queueHighWatermark s.degraded with
      | .ok degraded => some { s with writer := .receiving, degraded := degraded }
      | .error _ => some s.writerExits
    | _ => none
  | .recv =>
    match s.writer, s.queue with
    | .receiving, record :: rest => some { s with writer := .handling record, queue := rest }
    | _, _ => none
  | .timeout =>
    match s.writer, s.queue with
    | .receiving, [] => some { s with writer := .checking }
    | _, _ => none
  | .disconnected =>
    match s.writer, s.queue, s.capture with
    | .receiving, [], .done => some s.writerExits
    | _, _, _ => none
  | .handleRecord =>
    match s.writer with
    | .handling record =>
      if s.degraded then
        some { s with writer := .rotating, droppedRecords := s.droppedRecords + 1 }
      else
        some { s with writer := .writing record }
    | _ => none
  | .writeAll ok =>
    match s.writer with
    | .writing _ =>
      if ok then some { s with writer := .rotating, writtenRecords := s.writtenRecords + 1 }
      else some s.writerExits
    | _ => none
  | .maybeRotate ok =>
    match s.writer with
    | .rotating => if ok then some { s with writer := .checking } else some s.writerExits
    | _ => none

/-- A step of any of the threads. -/
def step (s : State Frame Record) : Action Frame → Option (State Frame Record)
  | .capture a => captureStep cfg slice s a
  | .writer a => writerStep cfg s a
  | .sampler resident load =>
    some { s with degraded := Breaker.samplerTick cfg resident load s.degraded }

/-- The state after a sequence of steps from the start of the probe. -/
def run (as : List (Action Frame)) : Option (State Frame Record) :=
  Transition.run (step cfg slice) {} as

end Pipeline
end SovProbe
