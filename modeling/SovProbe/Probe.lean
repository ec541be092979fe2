import SovProbe.DropTail
import SovProbe.Incarnations
import SovProbe.Slicer

/-! # The probe as a whole

The three threads of `Pipeline` on the disk: the frames are bytes, the slicer makes
records of them, and each step of the writer thread does what `WalWriter` does there.
File operations succeed.  A panic ends the process, as the release profile has it.

However the threads interleave, the writer thread goes through `WalWriter::run` on the
records it receives, as if it were alone (`Probe.Follows`).  So all that is known of `run`
is known of the probe, also in the middle of a step.
-/

namespace SovProbe
open Process Pipeline

/-- What becomes of a frame, as the capture thread sees it: the record waits for the
timestamp and the flag. -/
def Slicer.slice (fromEthernet : FromEthernet) (slicer : Slicer) (frame : List UInt8) :
    Option (UInt64 → Bool → WalRecord) :=
  (slicer.process fromEthernet frame 0 false).map fun r tsNs degraded =>
    { r with
      timestampNs := tsNs
      flags := if degraded then flagDegraded ||| r.flags else r.flags }

/-- **The slicer, with the timestamp and the flag given later.** -/
theorem Slicer.slice_eq (fromEthernet : FromEthernet) (slicer : Slicer) (frame : List UInt8)
    (tsNs : UInt64) (degraded : Bool) :
    slicer.process fromEthernet frame tsNs degraded =
      (slicer.slice fromEthernet frame).map fun record => record tsNs degraded := by
  unfold slice process
  cases fromEthernet frame with
  | none => rfl
  | some packet =>
    simp only [Option.bind_eq_bind, Option.bind_some]
    cases packet.ip with
    | none => rfl
    | some ip =>
      cases ip with
      | ipv6 => rfl
      | ipv4 hdr =>
        cases transportHeader packet with
        | none => rfl
        | some transport =>
          cases degraded <;> by_cases hlong : transport.app.length > slicer.maxPayload <;>
            simp [hlong]

/-- A turn of the writer thread, whose file operations succeed. -/
inductive WriterTurn where
  | openSegment
  | hotPathCheck
  | recv
  | timeout
  | disconnected
  | handleRecord
  | writeAll
  | maybeRotate
  deriving DecidableEq, Repr

namespace WriterTurn

/-- What it does to the state the threads share. -/
def action : WriterTurn → WriterAction
  | openSegment => .openSegment true
  | hotPathCheck => .hotPathCheck
  | recv => .recv
  | timeout => .timeout
  | disconnected => .disconnected
  | handleRecord => .handleRecord
  | writeAll => .writeAll true
  | maybeRotate => .maybeRotate true

/-- What it does to the disk and to the writer, which `run` flushes at its end. -/
def program (crc32 : List UInt8 → UInt32) (fuel : Nat) (s : State (List UInt8) WalRecord)
    (clock : Clock) : WriterTurn → Process FileSystem WalWriter Unit
  | openSegment => WalWriter.openSegment fuel clock.handle
  | handleRecord =>
    match s.writer, s.degraded with
    | .handling record, true => WalWriter.handleRecord crc32 fuel record true clock.handle
    | _, _ => return ()
  | writeAll =>
    match s.writer with
    | .writing record => WalWriter.handleRecord crc32 fuel record false clock.handle
    | _ => return ()
  | maybeRotate => WalWriter.maybeRotate fuel clock.check clock.rotate
  | disconnected => WalWriter.flush
  | _ => return ()

/-- The check of the queue divides by its capacity. -/
def panics (cfg : Config) (turn : WriterTurn) : Bool :=
  turn = hotPathCheck && cfg.queueCapacity = 0

end WriterTurn

/-- The threads with the log of what they have done, and the disk and the writer of the writer
thread. -/
structure Probe where
  threads : Traced (List UInt8) WalRecord
  disk : FileSystem
  writer : WalWriter

namespace Probe

/-- A step of one of the threads; one of the writer with what its clock says. -/
inductive Action where
  | capture (a : CaptureAction (List UInt8))
  | writer (turn : WriterTurn) (clock : Clock)
  | sampler (resident : Option UInt64) (load : Option UInt8)

/-- The step of the threads alone. -/
def Action.threads : Action → Pipeline.Action (List UInt8)
  | capture a => .capture a
  | writer turn _ => .writer turn.action
  | sampler resident load => .sampler resident load

/-- It does not end the process. -/
def Action.Survives (cfg : Config) : Action → Prop
  | writer turn _ => turn.panics cfg = false
  | _ => True

variable (fromEthernet : FromEthernet) (crc32 : List UInt8 → UInt32) (cfg : Config) (fuel : Nat)

/-- The slicer of `Capture::consume`. -/
def slice : List UInt8 → Option (UInt64 → Bool → WalRecord) :=
  (Slicer.mk cfg.sliceBytes.toNat).slice fromEthernet

/-- A step of the threads alone. -/
def threadsStep (s : Probe) (a : Pipeline.Action (List UInt8)) :
    Option (Traced (List UInt8) WalRecord) :=
  tracedStep cfg (slice fromEthernet cfg) s.threads a

/-- A step of any of the threads. -/
def step (s : Probe) : Action → Option Probe
  | .capture a => do
    let threads ← s.threadsStep fromEthernet cfg (.capture a)
    return { s with threads }
  | .sampler resident load => do
    let threads ← s.threadsStep fromEthernet cfg (.sampler resident load)
    return { s with threads }
  | .writer turn clock =>
    if turn.panics cfg then
      none
    else do
      let threads ← s.threadsStep fromEthernet cfg (.writer turn.action)
      let (disk, writer) ←
        (turn.program crc32 fuel s.threads.state clock s.disk s.writer).outcome.state?
      return { threads, disk, writer }

/-- The probe when its threads begin. -/
def begin (disk : FileSystem) (writer : WalWriter) : Probe := ⟨{}, disk, writer⟩

/-- A run from the beginning. -/
def run (start : FileSystem) (w : WalWriter) (as : List Action) : Option Probe :=
  Transition.run (step fromEthernet crc32 cfg fuel) (begin start w) as

end Probe
/-! ## The writer's operations leave a disk they have passed -/

theorem Rotator.settled_persistLedger (writeCursor : UInt64) (cursor : Option UInt64) :
    Settled (Rotator.persistLedger writeCursor cursor) := by
  cases cursor with
  | some cursor =>
    exact (Settled.pure cursor).bind fun _ =>
      (Settled.openTruncate _).bind fun f => Settled.writeAll f _
  | none =>
    exact (Settled.read _).bind fun _ => (Settled.openTruncate _).bind fun f => Settled.writeAll f _

theorem Rotator.settled_enforceBudget (fuel : Nat) : Settled (Rotator.enforceBudget fuel) := by
  induction fuel with
  | zero => exact Settled.stuck
  | succ fuel ih =>
    refine (Settled.read _).bind fun count => Settled.get.bind fun r => ?_
    by_cases hwithin : count ≤ r.maxSegments
    · rw [if_pos hwithin]
      exact Settled.pure ()
    · rw [if_neg hwithin]
      have hrest : ∀ u : Unit, Settled (do
          modify fun r : Rotator => { r with minNo := r.minNo + 1 }
          let r ← get
          persistLedger r.segNo (some r.minNo)
          enforceBudget fuel) := fun _ => (Settled.modify _).bind fun _ => Settled.get.bind fun r =>
        (settled_persistLedger _ _).bind fun _ => ih
      refine (Settled.read _).bind fun there => ?_
      cases there with
      | true => exact (Settled.removeFile _).bind hrest
      | false => exact hrest ()

theorem Rotator.settled_nextSegment (fuel : Nat) : Settled (Rotator.nextSegment fuel) := by
  refine Settled.get.bind fun r => (Settled.modify _).bind fun _ => ?_
  exact (Settled.createNew _).bind fun _ => (settled_enforceBudget fuel).bind fun _ =>
    (settled_persistLedger _ _).bind fun _ => Settled.pure _

namespace WalWriter

theorem settled_flush : Settled flush := by
  refine Settled.get.bind fun w => ?_
  cases w.file with
  | none => exact Settled.pure ()
  | some f => exact (Settled.writeAll _ _).bind fun _ => Settled.modify _

theorem settled_bufWriteAll (bytes : List UInt8) : Settled (bufWriteAll bytes) := by
  refine Settled.get.bind fun w => ?_
  cases w.file with
  | none => exact Settled.pure ()
  | some f =>
    have hrest : ∀ u : Unit, Settled (if bytes.length ≥ bufCapacity then writeAll f.inode bytes else
        modify fun w : WalWriter =>
          { w with file := w.file.map fun f => { f with buffer := f.buffer ++ bytes } }) := by
      intro u
      by_cases hlarge : bytes.length ≥ bufCapacity
      · rw [if_pos hlarge]
        exact Settled.writeAll _ _
      · rw [if_neg hlarge]
        exact Settled.modify _
    dsimp only
    by_cases hroom : bytes.length < bufCapacity - f.buffer.length
    · rw [if_pos hroom]
      exact Settled.modify _
    · rw [if_neg hroom]
      by_cases hover : bytes.length > bufCapacity - f.buffer.length
      · rw [if_pos hover]
        exact settled_flush.bind hrest
      · rw [if_neg hover]
        exact hrest ()

theorem settled_openSegment (fuel now : Nat) : Settled (openSegment fuel now) :=
  (Rotator.settled_nextSegment fuel).zoom.bind fun _ => (Settled.openAppend _).bind fun _ =>
    settled_flush.bind fun _ => Settled.modify _

theorem settled_writeScratch (scratch : List UInt8) : Settled (writeScratch scratch) := by
  refine Settled.get.bind fun w => ?_
  by_cases hopen : w.file.isSome = true
  · rw [if_pos hopen]
    exact (settled_bufWriteAll scratch).bind fun _ => Settled.modify _
  · rw [if_neg hopen]
    exact Settled.pure ()

variable (crc32 : List UInt8 → UInt32) (fuel : Nat)

theorem settled_handleRecord (record : WalRecord) (degraded : Bool) (now : Nat) :
    Settled (handleRecord crc32 fuel record degraded now) := by
  unfold handleRecord
  cases degraded with
  | true =>
    rw [if_pos rfl]
    exact Settled.modify _
  | false =>
    rw [if_neg Bool.false_ne_true]
    refine (Settled.modify _).bind fun _ => Settled.get.bind fun w => ?_
    cases record.encode crc32 w.scratch with
    | error e => exact Settled.fail
    | ok scratch =>
      refine (Settled.modify _).bind fun _ => Settled.get.bind fun w => ?_
      by_cases hfull : w.written + scratch.length > w.segmentSize.toNat
      · rw [if_pos hfull]
        exact settled_flush.bind fun _ => (settled_openSegment fuel now).bind fun _ =>
          settled_writeScratch scratch
      · rw [if_neg hfull]
        exact settled_writeScratch scratch

theorem settled_maybeRotate (check now : Nat) : Settled (maybeRotate fuel check now) := by
  refine Settled.get.bind fun w => ?_
  by_cases hdue : check ≥ w.nextRotate ∧ w.written > 0
  · rw [if_pos hdue]
    exact settled_flush.bind fun _ => settled_openSegment fuel now
  · rw [if_neg hdue]
    exact Settled.pure ()

theorem settled_iteration (x : Received) : Settled (iteration crc32 fuel x) := by
  cases x with
  | record record degraded clock =>
    exact (settled_handleRecord crc32 fuel record degraded _).bind fun _ =>
      settled_maybeRotate fuel _ _
  | timeout => exact Settled.pure ()

theorem settled_loop (now : Nat) (received : List Received) :
    Settled (loop crc32 fuel now received) := by
  have hrest : ∀ u : Unit, Settled (received.forM (iteration crc32 fuel)) :=
    fun _ => Settled.forM (settled_iteration crc32 fuel) received
  refine Settled.get.bind fun w => ?_
  by_cases hclosed : w.file.isNone = true
  · rw [if_pos hclosed]
    exact (settled_openSegment fuel now).bind hrest
  · rw [if_neg hclosed]
    exact hrest ()

end WalWriter
end SovProbe
