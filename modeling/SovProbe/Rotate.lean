import SovProbe.Decimal
import SovProbe.FileSystem

/-! # Segment files and their rotation

`wal/rotate.rs`.  Segments are numbered upwards and never reused; a call of
`next_segment` makes the next one and then removes old ones until the directory
holds no more than `max_segments` of them.

Three functions look at the names of the directory, each in its own way:
`existing_count` counts the names that start with `segment_`, `scan_existing` reads
the numbers of those that also end in `.wal`, and `enforce_budget` removes the
names that `seg_path` formats.  Segment numbers are those of the release build and
wrap at `2 ^ 64`.
-/

namespace SovProbe
open Process

/-- The bytes of an ASCII string. -/
def ascii (s : String) : List UInt8 := s.toList.map fun c => UInt8.ofNat c.toNat

/-- What the names of segments start with. -/
def segmentPrefix : FileName := ascii "segment_"

/-- What they end with. -/
def segmentSuffix : FileName := ascii ".wal"

/-- `seg_path`: `segment_{:04}.wal`. -/
def segPath (no : Nat) : FileName := segmentPrefix ++ Decimal.pad 4 no ++ segmentSuffix

/-- The name of the ledger. -/
def ledgerPath : FileName := ascii "ledger"

/-- The name starts with `segment_`. -/
def isSegment (name : FileName) : Bool := segmentPrefix.isPrefixOf name

/-- The number `scan_existing` reads off a name. -/
def segmentNo (name : FileName) : Option UInt64 := do
  let stripped ← name.dropPrefix? segmentPrefix
  let stripped ← stripped.dropSuffix? segmentSuffix
  Decimal.parseU64 stripped

/-- `scan_existing`: the next segment number to use and the smallest one there is. -/
def scanExisting (fs : FileSystem) : UInt64 × UInt64 :=
  let (max, min) : Option UInt64 × Option UInt64 :=
    fs.names.foldl (fun (max, min) name =>
      match segmentNo name with
      | some no => (some (max.elim no (Max.max · no)), some (min.elim no (Min.min · no)))
      | none => (max, min)) (none, none)
  (max.elim 0 (· + 1), min.getD 0)

/-- `existing_count`. -/
def existingCount (fs : FileSystem) : Nat := (fs.names.filter isSegment).length

/-! ## The ledger -/

/-- The characters `split_whitespace` splits at. -/
def isWhitespace (c : Char) : Bool :=
  (9 ≤ c.toNat && c.toNat ≤ 13) || c.toNat = 0x20 || c.toNat = 0x85 || c.toNat = 0xA0 ||
    c.toNat = 0x1680 || (0x2000 ≤ c.toNat && c.toNat ≤ 0x200A) || c.toNat = 0x2028 ||
    c.toNat = 0x2029 || c.toNat = 0x202F || c.toNat = 0x205F || c.toNat = 0x3000

/-- The read cursor of a ledger: its second field, and the write cursor where there is
none that can be read. -/
def readCursor (content : List UInt8) (writeCursor : UInt64) : UInt64 :=
  match (ByteArray.mk content.toArray).utf8Decode? with
  | none => writeCursor
  | some chars =>
    match (chars.toList.splitOnP isWhitespace).filter (· ≠ []) with
    | _ :: second :: _ => (Decimal.parseU64 (String.ofList second).toUTF8.toList).getD writeCursor
    | _ => writeCursor

/-- `"{} {}\n"` -/
def ledgerLine (writeCursor read : UInt64) : List UInt8 :=
  Decimal.pad 1 writeCursor.toNat ++ ascii " " ++ Decimal.pad 1 read.toNat ++ ascii "\n"

/-! ## The rotator -/

/-- `Rotator`: the number of the open segment, and the oldest one that is kept. -/
structure Rotator where
  maxSegments : Nat
  segNo : UInt64
  minNo : UInt64
  deriving DecidableEq, Repr

namespace Rotator

/-- `Rotator::new` on a directory, which fails unless `max_segments >= 1`. -/
def new (maxSegments : Nat) (fs : FileSystem) : Option Rotator :=
  if maxSegments ≥ 1 then
    let (segNo, minNo) := scanExisting fs
    some { maxSegments, segNo, minNo }
  else
    none

/-- `persist_ledger`: the write cursor, and the read cursor if it is given. -/
def persistLedger (writeCursor : UInt64) (cursor : Option UInt64) :
    Process FileSystem Rotator Unit := do
  let cursor ← match cursor with
    | some cursor => pure cursor
    | none => Process.read fun fs =>
        match fs.file? ledgerPath with
        | some content => readCursor content writeCursor
        | none => writeCursor
  let f ← openTruncate ledgerPath
  writeAll f (ledgerLine writeCursor cursor)

/-- The loop of `enforce_budget`, with a bound on its number of iterations. -/
def enforceBudget : Nat → Process FileSystem Rotator Unit
  | 0 => stuck
  | fuel + 1 => do
    let count ← Process.read existingCount
    let self ← get
    if count ≤ self.maxSegments then
      return ()
    let oldest := segPath self.minNo.toNat
    if ← Process.read (·.contains oldest) then
      removeFile oldest
    modify fun self => { self with minNo := self.minNo + 1 }
    let self ← get
    persistLedger self.segNo (some self.minNo)
    enforceBudget fuel

/-- `next_segment`: the name of the new segment. -/
def nextSegment (fuel : Nat) : Process FileSystem Rotator FileName := do
  let self ← get
  let no := self.segNo
  modify fun self => { self with segNo := self.segNo + 1 }
  let path := segPath no.toNat
  let _ ← createNew path
  enforceBudget fuel
  persistLedger no none
  return path

/-- `mark_read`. -/
def markRead (cursor : UInt64) : Process FileSystem Rotator Unit := do
  let self ← get
  persistLedger self.segNo (some cursor)

end Rotator
end SovProbe
