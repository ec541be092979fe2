import SovProbe.Rotate
import SovProbe.WalHeader

/-! # The WAL writer

The loop of `wal/writer.rs` on records that have been received.  The writer reaches
its file through a buffer; what is still in the buffer is lost in a crash.

An iteration receives a record or times out.  What it depends on besides is given
with the event: the flag the breaker shows to `handle_record`, and the readings of
the clock, one for each place of the iteration that can read it.  Instants are
natural numbers.  `written` counts the bytes of a file, so it fits its `u64`.
-/

namespace SovProbe
open Process

/-- The capacity of a `std::io::BufWriter`. -/
def bufCapacity : Nat := 8192

/-- A `BufWriter<File>`: the inode of the file and the bytes not yet written to it. -/
structure BufWriter where
  inode : Nat
  buffer : List UInt8
  deriving DecidableEq, Repr

/-- `WalWriter`, with the time of the next rotation and the counters. -/
structure WalWriter where
  rotator : Rotator
  segmentSize : UInt64
  rotateInterval : Nat
  file : Option BufWriter
  written : Nat
  nextRotate : Nat
  scratch : List UInt8
  writtenRecords : Nat
  droppedRecords : Nat
  deriving DecidableEq, Repr

/-- The readings of the clock in one iteration: in `open_segment` when called from
`handle_record`, in `maybe_rotate`, and in `open_segment` when called from there. -/
structure Clock where
  handle : Nat
  check : Nat
  rotate : Nat
  deriving DecidableEq, Repr

/-- What an iteration of the loop gets from `recv_timeout`. -/
inductive Received where
  | record (record : WalRecord) (degraded : Bool) (clock : Clock)
  | timeout
  deriving DecidableEq, Repr

namespace WalWriter

/-- `WalWriter::new` on a directory. -/
def new (fs : FileSystem) (maxSegments : Nat) (segmentSize : UInt64) (rotateInterval now : Nat)
    (writtenRecords droppedRecords : Nat) : Option WalWriter :=
  (Rotator.new maxSegments fs).map fun rotator =>
    { rotator, segmentSize, rotateInterval, file := none, written := 0,
      nextRotate := now + rotateInterval, scratch := [], writtenRecords, droppedRecords }

/-- `BufWriter::flush`, which empties the buffer into the file; also what dropping a
`BufWriter` does. -/
def flush : Process FileSystem WalWriter Unit := do
  match (← get).file with
  | none => return ()
  | some f =>
    writeAll f.inode f.buffer
    modify fun self => { self with file := some { f with buffer := [] } }

/-- `BufWriter::write_all`: into the buffer if there is room, else after emptying it;
bytes that fill the buffer or more go past it. -/
def bufWriteAll (bytes : List UInt8) : Process FileSystem WalWriter Unit := do
  match (← get).file with
  | none => return ()
  | some f =>
    if bytes.length < bufCapacity - f.buffer.length then
      modify fun self => { self with file := some { f with buffer := f.buffer ++ bytes } }
    else
      if bytes.length > bufCapacity - f.buffer.length then
        flush
      if bytes.length ≥ bufCapacity then
        writeAll f.inode bytes
      else
        modify fun self =>
          { self with file := self.file.map fun f => { f with buffer := f.buffer ++ bytes } }

/-- `open_segment`: the next segment, for appending. -/
def openSegment (fuel now : Nat) : Process FileSystem WalWriter Unit := do
  let path ← zoom rotator (fun r self => { self with rotator := r }) (Rotator.nextSegment fuel)
  let f ← openAppend path
  flush -- the old `BufWriter` is dropped
  modify fun self =>
    { self with
      file := some { inode := f, buffer := [] }
      written := 0
      nextRotate := now + self.rotateInterval }

/-- The end of `handle_record`: the encoded record goes to the file. -/
def writeScratch (scratch : List UInt8) : Process FileSystem WalWriter Unit := do
  if (← get).file.isSome then
    bufWriteAll scratch
    modify fun self =>
      { self with
        written := self.written + scratch.length
        writtenRecords := self.writtenRecords + 1 }

/-- `handle_record`: drops the record, or writes it, in a new segment if it does not fit. -/
def handleRecord (crc32 : List UInt8 → UInt32) (fuel : Nat) (record : WalRecord) (degraded : Bool)
    (now : Nat) : Process FileSystem WalWriter Unit := do
  if degraded then
    modify fun self => { self with droppedRecords := self.droppedRecords + 1 }
  else
    modify fun self => { self with scratch := [] }
    match record.encode crc32 (← get).scratch with
    | .error _ => fail
    | .ok scratch =>
      modify fun self => { self with scratch }
      let self ← get
      if self.written + scratch.length > self.segmentSize.toNat then
        flush
        openSegment fuel now
      writeScratch scratch

/-- `maybe_rotate`: a new segment when it is time, unless nothing has been written. -/
def maybeRotate (fuel check now : Nat) : Process FileSystem WalWriter Unit := do
  let self ← get
  if check ≥ self.nextRotate ∧ self.written > 0 then
    flush
    openSegment fuel now

/-- One iteration of the loop of `run`.  A timeout goes straight to the next one. -/
def iteration (crc32 : List UInt8 → UInt32) (fuel : Nat) :
    Received → Process FileSystem WalWriter Unit
  | .record record degraded clock => do
    handleRecord crc32 fuel record degraded clock.handle
    maybeRotate fuel clock.check clock.rotate
  | .timeout => return ()

/-- `run` up to the end of the loop, on what is received until then. -/
def loop (crc32 : List UInt8 → UInt32) (fuel now : Nat) (received : List Received) :
    Process FileSystem WalWriter Unit := do
  if (← get).file.isNone then
    openSegment fuel now
  received.forM (iteration crc32 fuel)

/-- `run`, which ends when all senders are gone. -/
def run (crc32 : List UInt8 → UInt32) (fuel now : Nat) (received : List Received) :
    Process FileSystem WalWriter Unit := do
  loop crc32 fuel now received
  flush

end WalWriter
end SovProbe
