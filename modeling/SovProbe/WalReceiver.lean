import SovProbe.AppendOnly
import SovProbe.SubscriberSafety
import SovProbe.WalConsumer
import SovProbe.WholeRecords

/-! # The log at the receiver

A file that only grows can be read while it is being written: its records stay the first
ones, from every moment to every later one (`records_stay`).  Where the segments that are
sent are encoded logs and the file operations succeed, what is read are the records that
have come whole, at every moment of any number of lives (`log_received`), and a seal counts
them (`seal_counts`).
-/

namespace SovProbe
open Process

/-- **What can be read** is the beginning of what can be read when more has been appended. -/
theorem WalRecord.decodeStream_append (crc32 : List UInt8 → UInt32) (bytes more : List UInt8) :
    ∃ later residual, decodeStream crc32 (bytes ++ more) =
      .ok (((framer crc32).decode bytes).1 ++ later, residual) := by
  rw [decodeStream_eq, (framer_stable crc32).decode_append bytes more]
  exact ⟨_, _, rfl⟩

/-! ## Records stay -/

namespace Subscriber
variable {codec : WireCodec} {crc32 : List UInt8 → UInt32} {fs t : FileSystem} {lives : List Life}
  {disks : List FileSystem} {es : List TaskStep} {s u : FileSystem × Subscriber}

/-- **What can be read can be read ever after.**  Whatever the receiver gets, whichever of its
file operations fail, however its tasks interleave, and however often it is killed in the
middle of something and started again: of all the disks it has passed through, inside the
steps of every one of its lives, take any two.  Every file of the earlier one is in the later
one, with what has been added behind what was in it, and the records that could be read from
it are the first that can be read then. -/
theorem records_stay (h : Chronicle codec crc32 fs lives disks t) :
    (disks ++ [t]).Pairwise fun earlier later =>
      ∀ name bytes, earlier.file? name = some bytes →
        ∃ more, later.file? name = some (bytes ++ more) ∧
          ∃ records n added m, WalRecord.decodeStream crc32 bytes = .ok (records, n) ∧
            WalRecord.decodeStream crc32 (bytes ++ more) = .ok (records ++ added, m) := by
  refine h.ascends.imp fun {earlier later} hle name bytes hbytes => ?_
  obtain ⟨_, hfile, more, rfl⟩ := hle.files name bytes hbytes
  obtain ⟨added, m, hadded⟩ := WalRecord.decodeStream_append crc32 bytes more
  exact ⟨more, hfile, _, _, added, m, WalRecord.decodeStream_eq crc32 bytes, hadded⟩

/-- A frame with two bytes. -/
def twoBytes : TaskStep := .data working [] (byteFrame 0 [7, 8])

/-- What is left when the receiver is killed after one of them has been written. -/
def oneByteDisk : FileSystem :=
  (twoBytes.perform byteWire Crc.ieee FileSystem.empty .new).trace.getD 2 FileSystem.empty

theorem oneByteDisk_passes : ∃ inside, (⟨[], some twoBytes⟩ : Life).Passes byteWire Crc.ieee
    FileSystem.empty inside oneByteDisk := by
  have hlength : 2 < (twoBytes.perform byteWire Crc.ieee FileSystem.empty .new).trace.length := by
    decide +kernel
  have hmem : oneByteDisk ∈ (twoBytes.perform byteWire Crc.ieee FileSystem.empty .new).trace := by
    rw [oneByteDisk, ← List.getElem_eq_getD FileSystem.empty]
    exact List.getElem_mem hlength
  exact Life.leaves_iff_passes.mp ⟨_, rfl, rfl, hmem⟩

/-- The other one comes after the restart, and a third one after it. -/
def afterRestart : Life :=
  ⟨[.data working [] (byteFrame 1 [8]), .data working [] (byteFrame 2 [9])], none⟩

/-- Then the receiver is still running, and at no moment has anything been overwritten. -/
theorem records_stay_killed : ∃ disks t, Chronicle byteWire Crc.ieee FileSystem.empty
      [⟨[], some twoBytes⟩, afterRestart] disks t ∧
    t.file? (segmentName (1, 0)) = some [7, 8, 9] ∧ oneByteDisk ∈ disks ∧
    ∀ v, [oneByteDisk, v].Sublist (disks ++ [t]) →
      ∃ more, v.file? (segmentName (1, 0)) = some ([7] ++ more) := by
  have hreturns : (Transition.run (TaskStep.step byteWire Crc.ieee) (oneByteDisk, .new)
      afterRestart.steps).map (fun s => s.1.file? (segmentName (1, 0))) =
        some (some [7, 8, 9]) := by decide +kernel
  have hfile : oneByteDisk.file? (segmentName (1, 0)) = some [7] := by decide +kernel
  obtain ⟨s, hs, hlast⟩ := Option.map_eq_some_iff.mp hreturns
  obtain ⟨inside, hpasses⟩ := oneByteDisk_passes
  obtain ⟨inside', hpasses'⟩ : ∃ inside', afterRestart.Passes byteWire Crc.ieee oneByteDisk
      inside' s.1 := ⟨_, s, hs, rfl, rfl⟩
  have hchronicle := (Chronicle.nil.snoc hpasses).snoc hpasses'
  refine ⟨_, s.1, hchronicle, hlast, ?_, fun v hv => ?_⟩
  · exact List.mem_append_right _ List.mem_cons_self
  · have hpair := List.pairwise_pair.mp ((records_stay hchronicle).sublist hv)
    obtain ⟨more, hmore, -⟩ := hpair _ _ hfile
    exact ⟨more, hmore⟩

/-! ## Logs that are sent -/

/-- The file operations of the life succeed. -/
def Life.Works (life : Life) : Prop :=
  ∀ e, e ∈ life.steps ∨ life.last = some e → e.Works

/-- What comes in the life is a part of its segment's source. -/
def Life.FromSources (codec : WireCodec) (source : SegmentKey → List UInt8)
    (plain : BlindId → List UInt8) (life : Life) : Prop :=
  ∀ e, e ∈ life.steps ∨ life.last = some e → e.FromSources codec source plain

variable {source : SegmentKey → List UInt8} {plain : BlindId → List UInt8}

theorem Life.Leaves.prefixes {life : Life} (hcodec : codec.HasHeader)
    (hstart : Prefixes source fs) (hworks : life.Works)
    (hfrom : life.FromSources codec source plain) (h : life.Leaves codec crc32 fs t) :
    Prefixes source t := by
  obtain ⟨s, hrun, hlast⟩ := h
  have htrusted := trusted_run hcodec hstart (fun e he => hworks e (Or.inl he))
    (fun e he => hfrom e (Or.inl he)) hrun
  cases hkilled : life.last with
  | none =>
    rw [hkilled] at hlast
    exact hlast ▸ htrusted.safe.prefixes
  | some e =>
    rw [hkilled] at hlast
    have hholds : (e.perform codec crc32).Holds (Prefixes source) _ s.1 s.2 :=
      htrusted.holds_perform hcodec (hworks e (Or.inr hkilled)) (hfrom e (Or.inr hkilled)) hlast.1
    exact hholds.1 t hlast.2

theorem Lives.prefixes (hcodec : codec.HasHeader) (hstart : Prefixes source fs)
    (hworks : ∀ life ∈ lives, life.Works)
    (hfrom : ∀ life ∈ lives, life.FromSources codec source plain)
    (h : Lives codec crc32 fs lives t) : Prefixes source t := by
  induction h with
  | nil => exact hstart
  | snoc _ hlife ih =>
    have hbefore := ih (fun life hmem => hworks life (List.mem_append_left _ hmem))
      fun life hmem => hfrom life (List.mem_append_left _ hmem)
    exact hlife.prefixes hcodec hbefore (hworks _ (List.mem_append_right _ List.mem_cons_self))
      (hfrom _ (List.mem_append_right _ List.mem_cons_self))

/-- **The records that have come.**  Where every segment is an encoded log and the file
operations of the receiver succeed, its file can be read at every moment of any number of
lives, wherever they are cut: it gives the first records of the log, exactly those whose
encodings lie whole in what has come, and what is left over is the part of the next one. -/
theorem log_received (hcodec : codec.HasHeader) (crc32 : List UInt8 → UInt32)
    {log : SegmentKey → List WalRecord} (hlog : ∀ key, ∀ r ∈ log key, r.Encodable)
    (hstart : Prefixes (fun key => WalRecord.encoding crc32 (log key)) fs)
    (hworks : ∀ life ∈ lives, life.Works)
    (hfrom : ∀ life ∈ lives,
      life.FromSources codec (fun key => WalRecord.encoding crc32 (log key)) plain)
    (hlives : Lives codec crc32 fs lives t) :
    ∀ key bytes, t.file? (segmentName key) = some bytes →
      bytes <+: WalRecord.encoding crc32 (log key) ∧
      ∃ j, IsGreatest {i | i ≤ (log key).length ∧
          (WalRecord.encoding crc32 ((log key).take i)).length ≤ bytes.length} j ∧
        WalRecord.decodeStream crc32 bytes = .ok (((log key).take j).map WalRecord.normalised,
          bytes.length - (WalRecord.encoding crc32 ((log key).take j)).length) := by
  intro key bytes hbytes
  have hpre := hlives.prefixes hcodec hstart hworks hfrom key bytes hbytes
  have htake : bytes = (WalRecord.encoding crc32 (log key)).take bytes.length :=
    List.prefix_iff_eq_take.mp hpre
  refine ⟨hpre, WalRecord.wholeRecords crc32 (log key) bytes.length,
    WalRecord.isGreatest_wholeRecords, ?_⟩
  rw [htake, List.length_take, Nat.min_eq_left hpre.length_le]
  exact WalRecord.decodeStream_encoding_take (hlog key) hpre.length_le

/-- The beginning of a source is a chunk of it. -/
theorem isChunk_take (S : List UInt8) (k : Nat) : IsChunk S 0 (S.take k) := by
  refine ⟨?_, ?_⟩
  · rw [Nat.zero_add]
    exact List.length_take_le' k S
  · rw [List.drop_zero, List.length_take, ← List.take_eq_take_min]

/-- Two records, in the segment 0 of the device 1. -/
def pairLog (key : SegmentKey) : List WalRecord :=
  if key = (1, 0) then [sampleRecord, sampleRecord] else []

theorem pairLog_encodable : ∀ key, ∀ r ∈ pairLog key, r.Encodable := by
  intro key r hr
  unfold pairLog at hr
  split at hr
  · simp only [List.mem_cons, List.not_mem_nil, or_false, or_self] at hr
    exact hr ▸ sampleRecord_encodable
  · cases hr

/-- A frame with the beginning of the first one. -/
def tornPair : TaskStep :=
  .data working [] (byteFrame 0 ((WalRecord.encoding Crc.ieee (pairLog (1, 0))).take 70))

theorem tornLife_works : ∀ life ∈ [(⟨[tornPair], none⟩ : Life)], life.Works := by
  simp only [List.mem_singleton, forall_eq]
  rintro e (he | he)
  · exact List.mem_singleton.mp he ▸ working_works
  · cases he

theorem tornPair_fromSources : tornPair.FromSources byteWire
    (fun key => WalRecord.encoding Crc.ieee (pairLog key)) fun _ => [] := by
  have hchunk := isChunk_take (WalRecord.encoding Crc.ieee (pairLog (1, 0))) 70
  exact byteFrame_fromSenders hchunk

theorem log_received_torn : ∃ t bytes,
    Lives byteWire Crc.ieee FileSystem.empty [⟨[tornPair], none⟩] t ∧
    t.file? (segmentName (1, 0)) = some bytes ∧ bytes.length = 70 ∧
    ∃ j, WalRecord.decodeStream Crc.ieee bytes =
      .ok (((pairLog (1, 0)).take j).map WalRecord.normalised,
        bytes.length - (WalRecord.encoding Crc.ieee ((pairLog (1, 0)).take j)).length) := by
  have hlength : (Transition.run (TaskStep.step byteWire Crc.ieee) (FileSystem.empty, .new)
      [tornPair]).map (fun s => (s.1.file? (segmentName (1, 0))).map List.length) =
      some (some 70) := by decide +kernel
  obtain ⟨s, hs, hfile⟩ := Option.map_eq_some_iff.mp hlength
  obtain ⟨bytes, hbytes, hsize⟩ := Option.map_eq_some_iff.mp hfile
  have hlives : Lives byteWire Crc.ieee FileSystem.empty [⟨[tornPair], none⟩] s.1 :=
    Lives.nil.snoc ⟨s, hs, rfl⟩
  have hfrom : ∀ life ∈ [(⟨[tornPair], none⟩ : Life)], life.FromSources byteWire
      (fun key => WalRecord.encoding Crc.ieee (pairLog key)) fun _ => [] := by
    simp only [List.mem_singleton, forall_eq]
    rintro e (he | he)
    · exact List.mem_singleton.mp he ▸ tornPair_fromSources
    · cases he
  have hstart : Prefixes (fun key => WalRecord.encoding Crc.ieee (pairLog key)) .empty := nofun
  obtain ⟨-, j, -, hdecode⟩ := log_received byteWire_hasHeader Crc.ieee pairLog_encodable hstart
    tornLife_works hfrom hlives (1, 0) bytes hbytes
  exact ⟨s.1, bytes, hlives, hbytes, hsize, j, hdecode⟩

end Subscriber

/-! ## Seals count -/

/-- The buffer after a seal, when its file holds `bytes`. -/
def SegmentBuf.afterSeal (crc32 : List UInt8 → UInt32) (buf : SegmentBuf) (sealedSize : Nat)
    (bytes : List UInt8) : SegmentBuf :=
  { buf with
    sealed := true
    missingOnSeal := sealedSize - buf.nextExpected
    records := ((WalRecord.framer crc32).decode bytes).1.length
    residual := ((WalRecord.framer crc32).decode bytes).2 }

namespace Reassembler
variable {crash : FileSystem → Prop} {fs : FileSystem} {r : Reassembler} {key : SegmentKey}
  {buf : SegmentBuf} {bytes : List UInt8}

/-- **A seal** of a segment with a buffer, and a file. -/
theorem holds_onSealFrame_afterSeal (hlookup : r.segments.lookup key = some buf)
    (hfile : fs.file? buf.path = some bytes) (crc32 : List UInt8 → UInt32) (sealedSize : Nat) :
    (onSealFrame crc32 key.1 key.2 sealedSize).Holds crash
      (.returns fun _ t r' => t = fs ∧
        r'.segments = r.segments.insert key (buf.afterSeal crc32 sealedSize bytes)) fs r := by
  have hseal : (SegmentBuf.onSeal crc32 sealedSize).Holds crash
      (.returns fun _ t buf' => t = fs ∧ buf' = buf.afterSeal crc32 sealedSize bytes) fs buf := by
    unfold SegmentBuf.onSeal SegmentBuf.countRecords
    simp only [holds_bind, holds_get, holds_modify, holds_read, hfile, WalRecord.decodeStream_eq,
      holds_pure]
    exact ⟨rfl, rfl⟩
  unfold onSealFrame
  rw [holds_modify_bind, holds_get_bind]
  have hcounted : ({ r with sealedSegments := r.sealedSegments + 1 } : Reassembler).segments.lookup
      key = some buf := hlookup
  simp only [hlookup]
  refine Holds.bind (holds_onSegment hcounted hseal) ?_
  rintro missing t r' ⟨buf', ⟨rfl, rfl⟩, rfl⟩
  split_ifs
  · exact (holds_modify_bind).mpr ((holds_pure _).mpr ⟨rfl, rfl⟩)
  · exact (holds_modify_bind).mpr ((holds_pure _).mpr ⟨rfl, rfl⟩)
  · exact (holds_pure _).mpr ⟨rfl, rfl⟩

end Reassembler

/-- A seal signal does to the reassembler what its seal does. -/
theorem TaskStep.holds_sealSignal {codec : WireCodec} {crc32 : List UInt8 → UInt32}
    {crash : FileSystem → Prop} {P : FileSystem → Reassembler → Prop} {fs : FileSystem}
    {self : Subscriber} {payload : List UInt8} {frame : SealFrame}
    (hframe : codec.decodeSealFrame payload = some frame)
    (h : (Reassembler.onSealFrame crc32 frame.devId frame.segmentSeq frame.sealedSize).Holds crash
      (.returns fun _ t r => P t r) fs self.receiver.reassembler) :
    ((TaskStep.sealSignal payload).perform codec crc32).Holds crash
      (.returns fun _ t self' => P t self'.receiver.reassembler) fs self := by
  simp only [perform, hframe]
  refine holds_bind.mpr (holds_zoom.mpr (h.mono (fun _ ht => ht) ?_ (fun _ _ h => h) fun h => h))
  exact fun request t r hP => (holds_modify _).mpr hP

namespace Subscriber
variable {codec : WireCodec} {crc32 : List UInt8 → UInt32} {start : FileSystem}
  {es : List TaskStep} {s u : FileSystem × Subscriber} {plain : BlindId → List UInt8}

/-- The buffer after a seal signal is the one before it, with its file counted. -/
theorem Trusted.buf_of_sealSignal {source : SegmentKey → List UInt8}
    (h : Trusted source plain s.1 s.2) {payload : List UInt8} {frame : SealFrame}
    (hframe : codec.decodeSealFrame payload = some frame)
    (hstep : (TaskStep.sealSignal payload).step codec crc32 s = some u) {buf : SegmentBuf}
    (hlookup : u.2.receiver.reassembler.segments.lookup (frame.devId, frame.segmentSeq) =
      some buf) :
    ∃ buf₀, s.2.receiver.reassembler.segments.lookup (frame.devId, frame.segmentSeq) = some buf₀ ∧
      Faithful (source (frame.devId, frame.segmentSeq))
        (segmentName (frame.devId, frame.segmentSeq)) s.1 buf₀ ∧
      buf = buf₀.afterSeal crc32 frame.sealedSize
        ((source (frame.devId, frame.segmentSeq)).take buf₀.nextExpected) := by
  have hdone := (TaskStep.step_eq_some.mp hstep).2
  have hsame : Reassembler.SameData s.2.receiver.reassembler u.2.receiver.reassembler := by
    have hseal := (Reassembler.holds_onSealFrame crc32 (frame.devId, frame.segmentSeq)
      frame.sealedSize s.1 s.2.receiver.reassembler).imp_returns fun _ _ _ hpost => hpost.2.2
    exact (TaskStep.holds_sealSignal hframe hseal).done hdone
  obtain ⟨buf₀, hlookup₀, -⟩ := hsame.lookup hlookup
  have hfaithful := h.safe.faithful _ buf₀ hlookup₀
  have hfile : s.1.file? buf₀.path = some ((source (frame.devId, frame.segmentSeq)).take
      buf₀.nextExpected) := by rw [hfaithful.path, hfaithful.content]
  have hcounted : (Reassembler.onSealFrame crc32 frame.devId frame.segmentSeq
      frame.sealedSize).Holds (fun _ => True) _ s.1 s.2.receiver.reassembler :=
    Reassembler.holds_onSealFrame_afterSeal hlookup₀ hfile crc32 frame.sealedSize
  have hsegments := ((TaskStep.holds_sealSignal hframe hcounted).done hdone).2
  rw [hsegments, AList.lookup_insert] at hlookup
  exact ⟨buf₀, hlookup₀, hfaithful, (Option.some.inj hlookup).symm⟩

/-- **What a seal counts.**  Whenever a seal signal for a segment that is an encoded log comes,
and no file operation has failed before, the records that are counted are those that have
come whole, and the residual is the part of the next one.  If the size in the signal is that
of the log, the seal finds bytes missing exactly when a record is missing, and then there is
no residual. -/
theorem seal_counts (hcodec : codec.HasHeader) (crc32 : List UInt8 → UInt32)
    {log : SegmentKey → List WalRecord} (hlog : ∀ key, ∀ r ∈ log key, r.Encodable)
    (hstart : Prefixes (fun key => WalRecord.encoding crc32 (log key)) start)
    (hworks : ∀ e ∈ es, e.Works)
    (hfrom : ∀ e ∈ es, e.FromSources codec (fun key => WalRecord.encoding crc32 (log key)) plain)
    (hrun : Transition.run (TaskStep.step codec crc32) (start, .new) es = some s)
    {payload : List UInt8} {frame : SealFrame} (hframe : codec.decodeSealFrame payload = some frame)
    (hstep : (TaskStep.sealSignal payload).step codec crc32 s = some u) {buf : SegmentBuf}
    (hlookup : u.2.receiver.reassembler.segments.lookup (frame.devId, frame.segmentSeq) =
      some buf) :
    IsGreatest {i | i ≤ (log (frame.devId, frame.segmentSeq)).length ∧
        (WalRecord.encoding crc32 ((log (frame.devId, frame.segmentSeq)).take i)).length ≤
          buf.nextExpected} buf.records ∧
      (WalRecord.encoding crc32 ((log (frame.devId, frame.segmentSeq)).take buf.records)).length +
        buf.residual = buf.nextExpected ∧
      (frame.sealedSize = (WalRecord.encoding crc32 (log (frame.devId, frame.segmentSeq))).length →
        (buf.missingOnSeal = 0 ↔ buf.records = (log (frame.devId, frame.segmentSeq)).length) ∧
        (buf.missingOnSeal = 0 → buf.residual = 0)) := by
  obtain ⟨buf₀, hlookup₀, hfaithful, rfl⟩ :=
    (trusted_run hcodec hstart hworks hfrom hrun).buf_of_sealSignal hframe hstep hlookup
  obtain ⟨hrecords, hresidual⟩ := WalRecord.decode_encoding_take (hlog _) hfaithful.within
  have hfit : (WalRecord.encoding crc32 ((log (frame.devId, frame.segmentSeq)).take
      (WalRecord.wholeRecords crc32 (log (frame.devId, frame.segmentSeq))
        buf₀.nextExpected))).length ≤ buf₀.nextExpected :=
    (WalRecord.le_wholeRecords_iff WalRecord.wholeRecords_le).mp (Nat.le_refl _)
  simp only [SegmentBuf.afterSeal, hrecords, hresidual]
  refine ⟨WalRecord.isGreatest_wholeRecords, Nat.add_sub_of_le hfit, fun hsize => ?_⟩
  have hmissing : frame.sealedSize - buf₀.nextExpected = 0 ↔ buf₀.nextExpected =
      (WalRecord.encoding crc32 (log (frame.devId, frame.segmentSeq))).length := by
    have hwithin := hfaithful.within
    rw [hsize]
    omega
  refine ⟨hmissing.trans (WalRecord.wholeRecords_eq_length_iff hfaithful.within).symm, fun h => ?_⟩
  have hall := (WalRecord.wholeRecords_eq_length_iff hfaithful.within).mpr (hmissing.mp h)
  rw [hall, List.take_length, hmissing.mp h, Nat.sub_self]

theorem seal_counts_torn : ∃ s u buf, Transition.run (TaskStep.step byteWire Crc.ieee)
      (FileSystem.empty, .new) [tornPair] = some s ∧
    (TaskStep.sealSignal [162]).step byteWire Crc.ieee s = some u ∧
    u.2.receiver.reassembler.segments.lookup (1, 0) = some buf ∧
    (WalRecord.encoding Crc.ieee ((pairLog (1, 0)).take buf.records)).length + buf.residual =
      buf.nextExpected := by
  have hreturns : ((Transition.run (TaskStep.step byteWire Crc.ieee) (FileSystem.empty, .new)
      [tornPair]).bind fun s => ((TaskStep.sealSignal [162]).step byteWire Crc.ieee s).bind fun u =>
        u.2.receiver.reassembler.segments.lookup (1, 0)).isSome = true := by decide +kernel
  obtain ⟨buf, hbuf⟩ := Option.isSome_iff_exists.mp hreturns
  obtain ⟨s, hs, hseal⟩ := Option.bind_eq_some_iff.mp hbuf
  obtain ⟨u, hu, hlookup⟩ := Option.bind_eq_some_iff.mp hseal
  have hfrom : ∀ e ∈ [tornPair], e.FromSources byteWire
      (fun key => WalRecord.encoding Crc.ieee (pairLog key)) fun _ => [] :=
    fun e he => List.mem_singleton.mp he ▸ tornPair_fromSources
  have hstart : Prefixes (fun key => WalRecord.encoding Crc.ieee (pairLog key)) .empty := nofun
  have hframe : byteWire.decodeSealFrame [162] = some ⟨1, 0, 162⟩ := rfl
  have hworks : ∀ e ∈ [tornPair], e.Works :=
    fun e he => List.mem_singleton.mp he ▸ working_works
  obtain ⟨-, hresidual, -⟩ := seal_counts byteWire_hasHeader Crc.ieee pairLog_encodable hstart
    hworks hfrom hs hframe hu hlookup
  exact ⟨s, u, buf, hs, hu, hlookup, hresidual⟩

end Subscriber
end SovProbe
