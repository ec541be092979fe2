import SovProbe.RejectedFrames

/-! # The tasks of the receiver

`main` of `sub_save_test.rs` starts a task for each subscription: chunk frames, batches,
seal signals and EXISTS queries.  They share the receiver behind a lock, so that what one
of them does with it is done before another one gets it, and the tasks interleave in any
way between.  A seal that finds a gap keeps its task busy with `refill_segment`: it asks
the sender, looks every second whether the segment has been completed, asks again, and in
the end drops the buffer.  Meanwhile the other tasks go on.

A step of a task is what it does under the lock once, with what it has received, or what
it does between two of its waits.  The message formats are libraries outside the source;
of the replies only what the code looks at is kept, and what is only logged is left out.
-/

namespace SovProbe
open Process

/-- A seal frame, decoded. -/
structure SealFrame where
  devId : UInt32
  segmentSeq : UInt32
  sealedSize : Nat

/-- The libraries, with the format of seal frames. -/
structure WireCodec extends Codec where
  decodeSealFrame : List UInt8 → Option SealFrame

/-- A reply to a gap query: its text, or an error. -/
abbrev Reply := Option (List UInt8)

/-- `MAX_RETRIES` -/
def maxRetries : Nat := 4

/-- `VERIFY_TICKS` -/
def verifyTicks : Nat := 4

/-! ## `refill_segment` -/

/-- Where the task for the seal signals is. -/
inductive SealTask where
  | waiting
  /-- The gap query of a round is out. -/
  | asking (gq : GapQuery) (sealedSize attempt : Nat)
  /-- So many checks of the round have been made. -/
  | verifying (gq : GapQuery) (sealedSize attempt ticks : Nat)
  /-- The loop is over. -/
  | removing (gq : GapQuery)
  deriving DecidableEq

/-- The segment of the request. -/
def GapQuery.key (gq : GapQuery) : SegmentKey := (gq.devId, gq.segmentSeq)

/-- Whether the replies set `gone`. -/
def saysGone (replies : Option (List Reply)) : Bool :=
  match replies with
  | some replies => replies.any fun
    | some text =>
      if (ascii "resent=").isPrefixOf text then false
      else text == ascii "gone" || text == ascii "unknown"
    | none => false
  | none => false

namespace SealTask

/-- The segment that is being refilled. -/
def segment? : SealTask → Option SegmentKey
  | waiting => none
  | asking gq _ _ => some gq.key
  | verifying gq _ _ _ => some gq.key
  | removing gq => some gq.key

/-- What the seal frame leads to. -/
def sealed (request : Option GapQuery) (sealedSize : Nat) : SealTask :=
  match request with
  | some gq => asking gq sealedSize 1
  | none => waiting

/-- The replies are in, or there is an error. -/
def replied (replies : Option (List Reply)) : SealTask → SealTask
  | asking gq sealedSize attempt =>
    if saysGone replies then removing gq else verifying gq sealedSize attempt 0
  | task => task

/-- A check of how far the segment has come. -/
def verify (self : Reassembler) : SealTask → SealTask
  | verifying gq sealedSize attempt ticks =>
    let next := ((self.segments.lookup gq.key).map SegmentBuf.nextExpected).getD sealedSize
    if next ≥ sealedSize then removing gq
    else if ticks + 1 < verifyTicks then verifying gq sealedSize attempt (ticks + 1)
    else if attempt < maxRetries then asking gq sealedSize (attempt + 1)
    else removing gq
  | task => task

end SealTask

/-! ## The tasks -/

/-- The receiver, and the task that can be in the middle of something. -/
structure Subscriber where
  receiver : Receiver
  sealTask : SealTask

/-- The receiver when its tasks begin. -/
def Subscriber.new : Subscriber := { receiver := .new, sealTask := .waiting }

/-- A step of one of the tasks. -/
inductive TaskStep where
  | data (env : Environment) (key payload : List UInt8)
  | batch (env : Nat → Environment) (payload : List UInt8)
  | sealSignal (payload : List UInt8)
  | replies (replies : Option (List Reply))
  | tick
  | finish
  | query (key : List UInt8)

namespace Subscriber

/-- Under the lock. -/
def onReceiver {α : Type} (x : Process FileSystem Receiver α) : Process FileSystem Subscriber α :=
  zoom (fun self => self.receiver) (fun receiver self => { self with receiver }) x

/-- Under the lock, for the segments only. -/
def onReassembler {α : Type} (x : Process FileSystem Reassembler α) :
    Process FileSystem Subscriber α :=
  zoom (fun self => self.receiver.reassembler) (fun r self =>
    { self with receiver := { self.receiver with reassembler := r } }) x

end Subscriber

namespace TaskStep

/-- The task is where this is its next step. -/
def enabled (task : SealTask) : TaskStep → Bool
  | sealSignal _ =>
    match task with
    | .waiting => true
    | _ => false
  | replies _ =>
    match task with
    | .asking .. => true
    | _ => false
  | tick =>
    match task with
    | .verifying .. => true
    | _ => false
  | finish =>
    match task with
    | .removing _ => true
    | _ => false
  | _ => true

/-- A step of a refill that is under way. -/
def ofRefill : TaskStep → Bool
  | replies _ => true
  | tick => true
  | finish => true
  | _ => false

/-- What the task does. -/
def perform (codec : WireCodec) (crc32 : List UInt8 → UInt32) :
    TaskStep → Process FileSystem Subscriber Unit
  | data env key payload => Subscriber.onReceiver (onChunkFrame codec.toCodec env key payload)
  | batch env payload => Subscriber.onReceiver (onBatchFrame codec.toCodec env payload)
  | sealSignal payload => do
    match codec.decodeSealFrame payload with
    | some frame =>
      let request ← Subscriber.onReassembler
        (Reassembler.onSealFrame crc32 frame.devId frame.segmentSeq frame.sealedSize)
      modify fun self => { self with sealTask := .sealed request frame.sealedSize }
    | none => return ()
  | replies rs => modify fun self => { self with sealTask := self.sealTask.replied rs }
  | tick =>
    modify fun self => { self with sealTask := self.sealTask.verify self.receiver.reassembler }
  | finish => do
    match (← get).sealTask with
    | .removing gq =>
      Subscriber.onReassembler (Reassembler.removeSegment gq.devId gq.segmentSeq)
      modify fun self =>
        { self with
          receiver := { self.receiver with
            blind := { self.receiver.blind with
              framesBySegment := self.receiver.blind.framesBySegment.erase gq.key } }
          sealTask := .waiting }
    | _ => return ()
  | query _ => return () -- `has_blind` only reads the cache

/-- A step that is enabled, to its end. -/
def step (codec : WireCodec) (crc32 : List UInt8 → UInt32) (s : FileSystem × Subscriber)
    (e : TaskStep) : Option (FileSystem × Subscriber) :=
  if e.enabled s.2.sealTask then (e.perform codec crc32 s.1 s.2).outcome.state? else none

end TaskStep

end SovProbe
