import SovProbe.KeyedMap
import SovProbe.Rotate
import SovProbe.WalHeader

/-! # The reassembling receiver

`SegmentBuf` and `Reassembler` of `sub_save_test.rs`.  The chunks of a segment are
placed by their offset: a chunk at the end of the file is written, one behind a gap
waits in memory, and one that starts before the end is dropped.  Memory is bounded
by evicting waiting chunks of all segments.

What a call depends on besides its arguments is its environment: which of its file
operations fail, and in which order the hash map of segments is iterated.  Offsets
and counters are natural numbers; a subtraction that would underflow fails.
-/

namespace SovProbe
open Process

/-- A device and the number of a segment. -/
abbrev SegmentKey := UInt32 × UInt32

/-- The environment of one call. -/
structure Environment where
  /-- The file can be opened. -/
  opens : Bool
  /-- For each `write_all` of the call, after how many bytes it fails, if it does. -/
  writes : Nat → Option Nat
  /-- For each iteration over the segments, where in it a segment comes. -/
  position : Nat → SegmentKey → Nat

/-- `SegmentBuf`, the buffer of a segment. -/
structure SegmentBuf where
  /-- The inode of the file, if it could be opened. -/
  file : Option Nat
  path : FileName
  nextExpected : Nat
  pending : AList fun _ : Nat => List UInt8
  pendingBytes : Nat
  sealed : Bool
  missingOnSeal : Nat
  records : Nat
  residual : Nat
  placedChunks : Nat
  dupDropped : Nat

namespace SegmentBuf

/-- `segment_{:04}.wal` for device 1, and `dev{}_segment_{:04}.wal` for the others. -/
def segPath (devId seq : UInt32) : FileName :=
  if devId = 1 then ascii "segment_" ++ (Decimal.pad 4 seq.toNat ++ ascii ".wal")
  else
    ascii "dev" ++ (Decimal.pad 1 devId.toNat ++
      (ascii "_segment_" ++ (Decimal.pad 4 seq.toNat ++ ascii ".wal")))

/-- A buffer that starts at the end of its file. -/
def fresh (file : Option Nat) (path : FileName) (nextExpected : Nat) : SegmentBuf :=
  { file, path, nextExpected, pending := ∅, pendingBytes := 0, sealed := false,
    missingOnSeal := 0, records := 0, residual := 0, placedChunks := 0, dupDropped := 0 }

/-- `SegmentBuf::open`, which goes on from the size of the file. -/
def openBuf {ρ : Type} (env : Environment) (devId seq : UInt32) :
    Process FileSystem ρ SegmentBuf := do
  let path := segPath devId seq
  if env.opens then
    let i ← openAppend path
    let len ← read fun fs => ((fs.file? path).map List.length).getD 0
    return fresh (some i) path len
  else
    return fresh none path 0

/-- `write_bytes`, which ignores how the write ended. -/
def writeBytes (fault : Option Nat) (bytes : List UInt8) : Process FileSystem SegmentBuf Unit := do
  match (← get).file with
  | some f =>
    match fault with
    | none => writeAll f bytes
    | some n => writeAll f (bytes.take n)
  | none => pure ()
  modify fun self => { self with nextExpected := self.nextExpected + bytes.length }

/-- `self.pending_bytes -= n` -/
def releaseBytes (n : Nat) : Process FileSystem SegmentBuf Unit := do
  if n ≤ (← get).pendingBytes then
    modify fun self => { self with pendingBytes := self.pendingBytes - n }
  else
    fail

/-- The loop at the end of `place`; `n` counts the writes of the call. -/
def refill (env : Environment) : Nat → Nat → Process FileSystem SegmentBuf Unit
  | 0, _ => stuck
  | fuel + 1, n => do
    let self ← get
    match self.pending.first? with
    | some (o, b) =>
      if o = self.nextExpected then
        modify fun self => { self with pending := self.pending.erase o }
        releaseBytes b.length
        writeBytes (env.writes n) b
        modify fun self => { self with placedChunks := self.placedChunks + 1 }
        refill env fuel (n + 1)
    | none => return ()

/-- The number of waiting chunks. -/
def pendingCount (self : SegmentBuf) : Nat := self.pending.total fun _ => 1

/-- `SegmentBuf::place`: a chunk at an offset is written, kept waiting or left out. -/
def place (env : Environment) (offset : Nat) (bytes : List UInt8) :
    Process FileSystem SegmentBuf Bool := do
  let self ← get
  if bytes = [] then
    return false
  else if offset < self.nextExpected then
    modify fun self => { self with dupDropped := self.dupDropped + 1 }
    return false
  else if offset > self.nextExpected then
    modify fun self =>
      { self with
        pending := self.pending.insert offset bytes
        pendingBytes := self.pendingBytes + bytes.length }
    return true
  else
    writeBytes (env.writes 0) bytes
    modify fun self => { self with placedChunks := self.placedChunks + 1 }
    refill env (self.pendingCount + 1) 1
    return true

/-- The end of `on_seal`: what the file decodes to is counted. -/
def countRecords (crc32 : List UInt8 → UInt32) : Process FileSystem SegmentBuf Unit := do
  let self ← get
  match ← read (·.file? self.path) with
  | some bytes =>
    match WalRecord.decodeStream crc32 bytes with
    | .ok (records, residual) =>
      modify fun self => { self with records := records.length, residual := residual }
    | .error _ => fail
  | none => return ()

/-- `on_seal`.  The file is written without a buffer, so there is nothing to flush. -/
def onSeal (crc32 : List UInt8 → UInt32) (sealedSize : Nat) :
    Process FileSystem SegmentBuf Nat := do
  let self ← get
  let missing := sealedSize - self.nextExpected
  modify fun self => { self with sealed := true, missingOnSeal := missing }
  countRecords crc32
  return missing

end SegmentBuf

/-- The buffers of the segments, and the counters. -/
structure Reassembler where
  segments : AList fun _ : SegmentKey => SegmentBuf
  totalBytes : Nat
  gaps : Nat
  sealedSegments : Nat
  pendDropped : Nat

/-- `PENDING_BUDGET` -/
def pendingBudget : Nat := 256 * 1024 * 1024

/-- A request for the rest of a segment. -/
structure GapQuery where
  devId : UInt32
  segmentSeq : UInt32
  startOffset : Nat
  deriving DecidableEq, Repr

namespace Reassembler

/-- `Reassembler::new` -/
def new : Reassembler :=
  { segments := ∅, totalBytes := 0, gaps := 0, sealedSegments := 0, pendDropped := 0 }

/-- `pending_total` -/
def pendingTotal (self : Reassembler) : Nat := self.segments.total SegmentBuf.pendingBytes

/-- The number of waiting chunks of all segments. -/
def pendingCount (self : Reassembler) : Nat := self.segments.total SegmentBuf.pendingCount

/-- The segments in the order of an iteration, those with waiting chunks, each with the
offset of its first one. -/
def waiting (self : Reassembler) (position : SegmentKey → Nat) : List (SegmentKey × Nat) :=
  (self.segments.entries.mergeSort fun a b => decide (position a.1 ≤ position b.1)).filterMap
    fun e => e.2.pending.first?.map fun chunk => (e.1, chunk.1)

/-- The segment whose first waiting chunk has the smallest offset; the first such in the
order of the iteration. -/
def victim (self : Reassembler) (position : SegmentKey → Nat) : Option SegmentKey :=
  ((self.waiting position).argmin Prod.snd).map Prod.fst

/-- Works on the buffer of a segment that has one. -/
def onSegment {α : Type} (key : SegmentKey) (buf : SegmentBuf)
    (x : Process FileSystem SegmentBuf α) : Process FileSystem Reassembler α :=
  zoom (fun self => (self.segments.lookup key).getD buf)
    (fun buf self => { self with segments := self.segments.insert key buf }) x

/-- The loop of `enforce_pending_budget`; `n` counts its iterations. -/
def enforcePendingBudget (env : Environment) : Nat → Nat → Process FileSystem Reassembler Unit
  | 0, _ => stuck
  | fuel + 1, n => do
    let self ← get
    if self.pendingTotal > pendingBudget then
      match self.victim (env.position n) with
      | some key =>
        match self.segments.lookup key with
        | some buf =>
          match buf.pending.first? with
          | some (o, bytes) =>
            onSegment key buf do
              modify fun buf => { buf with pending := buf.pending.erase o }
              SegmentBuf.releaseBytes bytes.length
            modify fun self => { self with pendDropped := self.pendDropped + 1 }
          | none => pure ()
        | none => pure ()
        enforcePendingBudget env fuel (n + 1)
      | none => return ()

/-- `segments.entry(key).or_insert_with(..)`: the buffer of a segment, opened if need be. -/
def entry (env : Environment) (devId segmentSeq : UInt32) :
    Process FileSystem Reassembler SegmentBuf := do
  match (← get).segments.lookup (devId, segmentSeq) with
  | some buf => return buf
  | none =>
    let buf ← SegmentBuf.openBuf env devId segmentSeq
    modify fun self => { self with segments := self.segments.insert (devId, segmentSeq) buf }
    return buf

/-- `place_raw`: a chunk for a segment, whose buffer is opened if need be. -/
def placeRaw (env : Environment) (devId segmentSeq : UInt32) (offset : Nat)
    (plaintext : List UInt8) : Process FileSystem Reassembler Unit := do
  modify fun self => { self with totalBytes := self.totalBytes + plaintext.length }
  let buf ← entry env devId segmentSeq
  let _ ← onSegment (devId, segmentSeq) buf (SegmentBuf.place env offset plaintext)
  enforcePendingBudget env ((← get).pendingCount + 1) 0

/-- `on_seal_frame`: counts a seal, and asks for what is missing behind a beginning. -/
def onSealFrame (crc32 : List UInt8 → UInt32) (devId segmentSeq : UInt32) (sealedSize : Nat) :
    Process FileSystem Reassembler (Option GapQuery) := do
  modify fun self => { self with sealedSegments := self.sealedSegments + 1 }
  let key := (devId, segmentSeq)
  match (← get).segments.lookup key with
  | some buf =>
    let missing ← onSegment key buf (SegmentBuf.onSeal crc32 sealedSize)
    if missing > 0 then
      modify fun self => { self with gaps := self.gaps + 1 }
      if buf.nextExpected > 0 then
        return some { devId, segmentSeq, startOffset := buf.nextExpected }
      else
        return none
    else
      return none
  | none => return none

/-- What `refill_segment` does in the end: the buffer is dropped, the file stays. -/
def removeSegment (devId segmentSeq : UInt32) : Process FileSystem Reassembler Unit :=
  modify fun self => { self with segments := self.segments.erase (devId, segmentSeq) }

end Reassembler
end SovProbe
