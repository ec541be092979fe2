import SovProbe.PathNames
import SovProbe.Rotate
import SovProbe.Snaplen
import SovProbe.Transition

/-! # The converter

`main` of `sov2pcap.rs`: the files to convert, where each of them goes, and the loop that
reads one after the other and writes its packets.  Each conversion creates its output anew,
so that a file that is written twice has the packets of the second conversion only.

An operation that fails ends `main` with an error, which is `none` here; so does a packet
that `pcap-file` does not take, and which ones it takes is up to the format.
-/

namespace SovProbe
open PathName BigEndian

/-- The options. -/
structure Cli where
  input : Option Path
  dir : Option Path
  output : Option Path
  outDir : Option Path
  filterPort : Option UInt16

/-- A packet as `pcap-file` takes it. -/
structure PcapPacket where
  timestampNs : UInt64
  origLen : UInt32
  data : List UInt8
  deriving DecidableEq, Repr

/-- What goes into the fields of the file: 32 bits of seconds, no more bytes than the snaplen of
the header, and no more than the packet had on the wire. -/
def PcapPacket.Fits (p : PcapPacket) : Prop :=
  p.timestampNs.toNat / 1000000000 < 2 ^ 32 ∧ p.data.length ≤ 65535 ∧
    p.data.length ≤ p.origLen.toNat

instance (p : PcapPacket) : Decidable p.Fits :=
  inferInstanceAs (Decidable (_ ∧ _ ∧ _))

/-- The file format of `pcap-file`. -/
structure PcapFormat where
  /-- The bytes of a file with these packets. -/
  bytes : List PcapPacket → List UInt8
  /-- They start with the magic number of the format, in one of the byte orders. -/
  magic : ∀ packets, (bytes packets).take 4 = [0xD4, 0xC3, 0xB2, 0xA1] ∨
    (bytes packets).take 4 = [0xA1, 0xB2, 0xC3, 0xD4]
  /-- `write_packet` writes the packet, and does not return an error. -/
  accepts : PcapPacket → Bool
  /-- It does so if the packet fits. -/
  accepts_of_fits : ∀ p : PcapPacket, p.Fits → accepts p = true

/-! ## The files of `pcap-file`, on a little-endian machine -/

/-- Four bytes, the lowest one first. -/
def littleU32 (n : Nat) : List UInt8 := (bytes 4 n).reverse

/-- Version 2.4, microseconds, a snaplen of 65535, and Ethernet. -/
def pcapHeader : List UInt8 :=
  [0xD4, 0xC3, 0xB2, 0xA1, 2, 0, 4, 0] ++ littleU32 0 ++ littleU32 0 ++ littleU32 65535 ++
    littleU32 1

/-- A packet in the file: the time, the two lengths, and the data. -/
def PcapPacket.bytes (p : PcapPacket) : List UInt8 :=
  littleU32 (p.timestampNs.toNat / 1000000000) ++
    littleU32 (p.timestampNs.toNat % 1000000000 / 1000) ++
    littleU32 p.data.length ++ littleU32 p.origLen.toNat ++ p.data

/-- The format as `pcap-file` writes it. -/
def PcapFormat.standard : PcapFormat where
  bytes packets := pcapHeader ++ packets.flatMap PcapPacket.bytes
  magic _ := Or.inl rfl
  accepts p := decide p.Fits
  accepts_of_fits _ h := decide_eq_true h

/-! ## The batch -/

/-- What is in a file: any bytes, or packets that were written to it. -/
inductive Content where
  | raw (bytes : List UInt8)
  | pcap (packets : List PcapPacket)
  deriving DecidableEq

/-- The bytes of a file. -/
def Content.bytes (format : PcapFormat) : Content → List UInt8
  | raw bytes => bytes
  | pcap packets => format.bytes packets

/-- The directories, and which file each path stands for.  They are what they are while
`main` runs; `ν` are the files. -/
structure Volume (ν : Type) where
  /-- The names `read_dir` lists, if it can. -/
  readDir : Path → Option (List Path)
  createDirAll : Path → Bool
  /-- A file can be created there. -/
  creates : Path → Bool
  locate : Path → ν

/-- The contents of the files that exist. -/
abbrev Contents (ν : Type) := ν → Option Content

variable {ν : Type}

/-- The order of paths: by their components, byte by byte. -/
def pathLe (a b : Path) : Bool := decide (components a ≤ components b)

/-- The files to convert: those of the directory with the extension `wal`, in order, or the
one given. -/
def Cli.files (cli : Cli) (volume : Volume ν) : Option (List Path) :=
  match cli.dir with
  | some dir => do
    let names ← volume.readDir dir
    let paths := (names.map (join dir)).filter fun p => extension p = some (ascii "wal")
    return paths.mergeSort pathLe
  | none =>
    match cli.input with
    | some f => some [f]
    | none => none

/-- `output_path`: where the packets of a file go. -/
def outputPath (volume : Volume ν) (cli : Cli) (f : Path) : Option Path :=
  match cli.outDir with
  | some dir =>
    if volume.createDirAll dir then do
      let name := lossy (← fileStem f)
      return join dir (name ++ ascii ".pcap")
    else none
  | none =>
    match cli.output with
    | some out => some out
    | none => some (lossy f ++ ascii ".pcap")

/-- The packet `main` makes of a record. -/
def WalRecord.toPacket (rec : WalRecord) : PcapPacket where
  timestampNs := rec.timestampNs
  origLen := origLen rec
  data := synthesize rec

/-- The record is not one the filter leaves out. -/
def passes (filterPort : Option UInt16) (rec : WalRecord) : Bool :=
  match filterPort with
  | some port => !(rec.dstPort != port && rec.srcPort != port)
  | none => true

/-- The loop over the records of a file. -/
def writePackets (filterPort : Option UInt16) : List WalRecord → List PcapPacket
  | [] => []
  | rec :: records =>
    if passes filterPort rec then rec.toPacket :: writePackets filterPort records
    else writePackets filterPort records

/-- The records of a file, if it is there. -/
def decoded (crc32 : List UInt8 → UInt32) (format : PcapFormat) (content : Option Content) :
    Option (List WalRecord) := do
  match WalRecord.decodeStream crc32 ((← content).bytes format) with
  | .ok (records, _) => some records
  | .error _ => none

/-- One turn of the loop over the files. -/
def convert [DecidableEq ν] (crc32 : List UInt8 → UInt32) (format : PcapFormat)
    (volume : Volume ν) (cli : Cli) (contents : Contents ν) (f : Path) : Option (Contents ν) := do
  let out ← outputPath volume cli f
  let records ← decoded crc32 format (contents (volume.locate f))
  if volume.creates out then
    if (writePackets cli.filterPort records).all format.accepts then
      return Function.update contents (volume.locate out)
        (some (.pcap (writePackets cli.filterPort records)))
    else none
  else none

/-- `main`, from the contents of the files to those afterwards. -/
def sov2pcap [DecidableEq ν] (crc32 : List UInt8 → UInt32) (format : PcapFormat)
    (volume : Volume ν) (cli : Cli) (contents : Contents ν) : Option (Contents ν) := do
  Transition.run (convert crc32 format volume cli) contents (← cli.files volume)

/-! ## What a conversion writes -/

theorem mem_writePackets {filterPort : Option UInt16} {records : List WalRecord} {p : PcapPacket} :
    p ∈ writePackets filterPort records ↔
      ∃ rec ∈ records, passes filterPort rec = true ∧ rec.toPacket = p := by
  induction records with
  | nil => exact iff_of_false List.not_mem_nil fun ⟨_, hrec, _⟩ => List.not_mem_nil hrec
  | cons rec records ih =>
    rw [writePackets]
    by_cases hpasses : passes filterPort rec = true
    · rw [if_pos hpasses, List.mem_cons, ih]
      constructor
      · rintro (rfl | ⟨rec', hrec', hkept⟩)
        · exact ⟨rec, List.mem_cons_self, hpasses, rfl⟩
        · exact ⟨rec', List.mem_cons_of_mem rec hrec', hkept⟩
      · rintro ⟨rec', hrec', hkept⟩
        rcases List.mem_cons.mp hrec' with rfl | hmem
        · exact Or.inl hkept.2.symm
        · exact Or.inr ⟨rec', hmem, hkept⟩
    · rw [if_neg hpasses, ih]
      constructor
      · rintro ⟨rec', hrec', hkept⟩
        exact ⟨rec', List.mem_cons_of_mem rec hrec', hkept⟩
      · rintro ⟨rec', hrec', hkept⟩
        rcases List.mem_cons.mp hrec' with rfl | hmem
        · exact absurd hkept.1 hpasses
        · exact ⟨rec', hmem, hkept⟩

/-- Each packet of the records is taken by `pcap-file`. -/
def Accepted (format : PcapFormat) (filterPort : Option UInt16) (records : List WalRecord) :
    Prop :=
  ∀ p ∈ writePackets filterPort records, format.accepts p = true

/-- **A turn** reads the file, and puts its packets into the output. -/
theorem convert_eq_some [DecidableEq ν] {crc32 : List UInt8 → UInt32} {format : PcapFormat}
    {volume : Volume ν} {cli : Cli} {contents contents' : Contents ν} {f : Path} :
    convert crc32 format volume cli contents f = some contents' ↔ ∃ out records,
      outputPath volume cli f = some out ∧
      decoded crc32 format (contents (volume.locate f)) = some records ∧
      volume.creates out = true ∧ Accepted format cli.filterPort records ∧
      contents' = Function.update contents (volume.locate out)
        (some (.pcap (writePackets cli.filterPort records))) := by
  have haccepts : ∀ records, (writePackets cli.filterPort records).all format.accepts = true ↔
      Accepted format cli.filterPort records := fun _ => List.all_eq_true
  constructor
  · intro h
    obtain ⟨out, hout, h⟩ := Option.bind_eq_some_iff.mp h
    obtain ⟨records, hrecords, h⟩ := Option.bind_eq_some_iff.mp h
    by_cases hcreates : volume.creates out = true
    · rw [if_pos hcreates] at h
      by_cases hall : (writePackets cli.filterPort records).all format.accepts = true
      · rw [if_pos hall] at h
        exact ⟨out, records, hout, hrecords, hcreates, (haccepts records).mp hall,
          (Option.some.inj h).symm⟩
      · rw [if_neg hall] at h
        cases h
    · rw [if_neg hcreates] at h
      cases h
  · rintro ⟨out, records, hout, hrecords, hcreates, haccepted, rfl⟩
    refine Option.bind_eq_some_iff.mpr ⟨out, hout, ?_⟩
    refine Option.bind_eq_some_iff.mpr ⟨records, hrecords, ?_⟩
    rw [if_pos hcreates]
    exact if_pos ((haccepts records).mpr haccepted)

/-- A file of a writer has the records it was made of. -/
theorem decoded_encoding (crc32 : List UInt8 → UInt32) (format : PcapFormat)
    {records : List WalRecord} (h : ∀ rec ∈ records, rec.Encodable) :
    decoded crc32 format (some (.raw (WalRecord.encoding crc32 records))) =
      some (records.map WalRecord.normalised) := by
  rw [decoded, Option.bind_eq_bind, Option.bind_some]
  show (match WalRecord.decodeStream crc32 (WalRecord.encoding crc32 records) with
    | .ok (records, _) => some records
    | .error _ => none) = _
  rw [WalRecord.decodeStream_encoding h]

theorem decoded_frame (crc32 : List UInt8 → UInt32) (format : PcapFormat) {rec : WalRecord}
    (h : rec.Encodable) : decoded crc32 format (some (.raw (WalRecord.encoding crc32 [rec]))) =
      some [rec.normalised] :=
  decoded_encoding crc32 format fun _ hr => List.mem_singleton.mp hr ▸ h

/-- A file with packets does not start like one with records. -/
theorem decoded_pcap (crc32 : List UInt8 → UInt32) (format : PcapFormat)
    (packets : List PcapPacket) : decoded crc32 format (some (.pcap packets)) = some [] := by
  have hrefused : (WalRecord.framer crc32).read (format.bytes packets) = none := by
    refine if_neg fun haccepts => ?_
    have hmagic : readU16 (WalRecord.field (format.bytes packets) 0 2) = walMagic := haccepts.2.1
    have htake : WalRecord.field (format.bytes packets) 0 2 =
        ((format.bytes packets).take 4).take 2 := by
      rw [List.take_take]
      rfl
    rw [htake] at hmagic
    rcases format.magic packets with hlittle | hbig
    · rw [hlittle] at hmagic
      exact absurd hmagic (by decide)
    · rw [hbig] at hmagic
      exact absurd hmagic (by decide)
  rw [decoded, Option.bind_eq_bind, Option.bind_some]
  show (match WalRecord.decodeStream crc32 (format.bytes packets) with
    | .ok (records, _) => some records
    | .error _ => none) = some []
  rw [WalRecord.decodeStream_eq, Framer.decode_of_refused _ hrefused]

end SovProbe
