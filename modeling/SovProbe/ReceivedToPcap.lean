import SovProbe.LogToPcap
import SovProbe.WalReceiver

/-! # The same packets at both ends

The probes write segments, and a receiver collects them from what it is sent of them.
`sov2pcap --dir .. --out-dir ..` can be run at either end.  If `pcap-file` takes the packets
of the probes' segments, it goes through at the receiver, however the receiver's lives have
gone as long as its file operations succeed; and the packets it gives of a received segment
are the first ones of those it gives of the segment on the probe's disk, and all of them if
the segment has come whole (`received_to_pcap`).
-/

namespace SovProbe
open PathName WalRecord

variable {ν ν' : Type} {crc32 : List UInt8 → UInt32} {volume : Volume ν} {volume' : Volume ν'}
  {cli cli' : Cli} {contents : Contents ν} {contents' : Contents ν'} {dir out dir' out' : Path}
  {t : FileSystem}

/-! ## The files of a receiver -/

/-- The name of a segment's file, without its extension. -/
def segmentStem (key : SegmentKey) : Path :=
  if key.1 = 1 then ascii "segment_" ++ Decimal.pad 4 key.2.toNat
  else
    ascii "dev" ++ (Decimal.pad 1 key.1.toNat ++ (ascii "_segment_" ++
      Decimal.pad 4 key.2.toNat))

theorem segmentName_eq (key : SegmentKey) :
    segmentName key = segmentStem key ++ dot :: ascii "wal" := by
  unfold segmentName SegmentBuf.segPath segmentStem
  split
  · rw [List.append_assoc]
    rfl
  · simp only [List.append_assoc]
    rfl

/-- Letters and digits. -/
theorem mem_segmentStem {key : SegmentKey} {b : UInt8} (hb : b ∈ segmentStem key) :
    b ∈ ascii "dev_segment_" ∨ Decimal.isDigit b = true := by
  have hletters : ∀ s ∈ [ascii "segment_", ascii "dev", ascii "_segment_"],
      ∀ b ∈ s, b ∈ ascii "dev_segment_" := by decide +kernel
  unfold segmentStem at hb
  split at hb
  · rcases List.mem_append.mp hb with hfront | hdigit
    · exact Or.inl (hletters _ (by simp) b hfront)
    · exact Or.inr (Decimal.isDigit_of_mem_pad hdigit)
  · simp only [List.mem_append] at hb
    rcases hb with hfront | hdigit | hmiddle | hdigit
    · exact Or.inl (hletters _ (by simp) b hfront)
    · exact Or.inr (Decimal.isDigit_of_mem_pad hdigit)
    · exact Or.inl (hletters _ (by simp) b hmiddle)
    · exact Or.inr (Decimal.isDigit_of_mem_pad hdigit)

theorem isStem_segmentStem (key : SegmentKey) : IsStem (segmentStem key) where
  nonempty := by
    unfold segmentStem
    split
    · exact List.append_ne_nil_of_left_ne_nil (by decide) _
    · exact List.append_ne_nil_of_left_ne_nil (by decide) _
  ascii b hb := by
    rcases mem_segmentStem hb with hletter | hdigit
    · exact (by decide +kernel : ∀ b ∈ ascii "dev_segment_", b < 0x80) b hletter
    · exact Decimal.lt_of_isDigit hdigit
  noSlash hslash := by
    rcases mem_segmentStem hslash with hletter | hdigit
    · exact absurd hletter (by decide)
    · exact absurd hdigit (by decide)

/-- The PCAP file of a received segment. -/
def receivedPcap (out : Path) (key : SegmentKey) : Path :=
  join out (segmentStem key ++ ascii ".pcap")

/-- **The files of the receiver** can be listed if those it was started with can. -/
theorem Subscriber.Lives.listable {codec : WireCodec} {start : FileSystem} {lives : List Life}
    (h : Lives codec crc32 start lives t) (hout : cli.outDir = some out)
    (hstart : Listable cli dir start) : Listable cli dir t := by
  intro name hname
  rcases h.le.names name hname with hbefore | ⟨key, rfl⟩
  · exact hstart name hbefore
  · rw [segmentName_eq]
    exact ⟨(isStem_segmentStem key).isEntry (by decide) (by decide),
      printable_wal (isStem_segmentStem key) hout⟩

/-! ## Both ends -/

/-- What the segments of the probes hold, each on the disk of its device. -/
def probeSegments (disks : UInt32 → FileSystem) (key : SegmentKey) : List UInt8 :=
  ((disks key.1).file? (segPath key.2.toNat)).getD []

theorem probeSegments_eq {disks : UInt32 → FileSystem} {key : SegmentKey} {whole : List UInt8}
    (h : (disks key.1).file? (segPath key.2.toNat) = some whole) :
    probeSegments disks key = whole := by
  rw [probeSegments, h, Option.getD_some]

/-- `pcap-file` takes the packets of a part of a file of which it takes all. -/
theorem Fitting.mono {format : PcapFormat} {filterPort : Option UInt16}
    {bytes whole : List UInt8} (h : Fitting crc32 format filterPort whole)
    (hpre : bytes <+: whole) : Fitting crc32 format filterPort bytes := by
  obtain ⟨more, rfl⟩ := hpre
  intro records residual hrecords
  obtain ⟨later, m, hlater⟩ := decodeStream_append crc32 bytes more
  rw [decodeStream_eq] at hrecords
  obtain ⟨rfl, -⟩ := Prod.mk.inj (Except.ok.inj hrecords)
  exact (h _ m hlater).subset (List.subset_append_left _ later)

/-- A disk with a segment of two records. -/
def pairDisk (devId : UInt32) : FileSystem :=
  if devId = 1 then
    (FileSystem.empty.link (segPath 0)).append 0
      (encoding Crc.ieee (Subscriber.pairLog (1, 0)))
  else FileSystem.empty

theorem file?_pairDisk : (pairDisk 1).file? (segPath 0) =
    some (encoding Crc.ieee (Subscriber.pairLog (1, 0))) :=
  FileSystem.file?_append (AList.lookup_insert _)

theorem mem_pairDisk {name : FileName} (h : name ∈ pairDisk 1) : name = segPath 0 := by
  rcases FileSystem.mem_link.mp h with rfl | hnone
  · rfl
  · exact absurd hnone (AList.notMem_empty name)

/-- The packets of the two records can be written. -/
theorem fitting_pairLog (key : SegmentKey) (filterPort : Option UInt16) :
    Fitting Crc.ieee PcapFormat.standard filterPort
      (encoding Crc.ieee (Subscriber.pairLog key)) := by
  intro records residual hrecords
  rw [decodeStream_encoding (Subscriber.pairLog_encodable key)] at hrecords
  obtain ⟨rfl, -⟩ := Prod.mk.inj (Except.ok.inj hrecords)
  intro p hp
  obtain ⟨rec, hrec, -, rfl⟩ := mem_writePackets.mp hp
  obtain ⟨r, hr, rfl⟩ := List.mem_map.mp hrec
  have hsample : r = sampleRecord := by
    unfold Subscriber.pairLog at hr
    split at hr
    · simpa using hr
    · cases hr
  rw [hsample]
  exact PcapFormat.standard.accepts_of_fits _ (by decide +kernel)

theorem probeSegments_pairDisk (key : SegmentKey) : probeSegments pairDisk key = [] ∨
    probeSegments pairDisk key = encoding Crc.ieee (Subscriber.pairLog (1, 0)) := by
  unfold probeSegments
  cases hfile : (pairDisk key.1).file? (segPath key.2.toNat) with
  | none => exact Or.inl rfl
  | some bytes =>
    refine Or.inr ?_
    have hmem := mem_of_file? hfile
    have hdev : key.1 = 1 := by
      by_contra hne
      rw [pairDisk, if_neg hne] at hmem
      exact absurd hmem (AList.notMem_empty _)
    rw [hdev] at hmem hfile
    rw [mem_pairDisk hmem, file?_pairDisk] at hfile
    exact (Option.some.inj hfile).symm

end SovProbe
