import SovProbe.OnWire
import SovProbe.SegmentWindow
import SovProbe.WriterRefinement

/-! # The bound on the RAM disk

Before a record is written, the writer tests whether the segment has room for it, and
if not starts a new one; it does not test whether the new one has.  As long as every
record fits an empty segment, no segment is longer than `segment_size` and the window
holds at most `max_segments` of them, also in the moment between the creation of a
segment and the removal of the oldest, when the new one is empty.  Records that do not
fit break the bound as soon as they fill the window.
-/

namespace SovProbe
open Process

theorem Window.congr {fs t : FileSystem} {r : Rotator} {n : Nat} (h : Window fs r n)
    (hsegments : segments t = segments fs) : Window t r n :=
  { h with segments_eq := hsegments.trans h.segments_eq }

namespace WalWriter
open WalRecord
variable {fs t : FileSystem} {w w' : WalWriter} {f : BufWriter} {name : FileName} {n : Nat}
  {crash : FileSystem → Prop} {post : Post FileSystem WalWriter Unit} {fuel now : Nat}
  {bytes : List UInt8}

/-! ## The open segment -/

/-- The segment `name` is open, in a window of `n`; `written` counts its bytes, those
in the buffer included. -/
structure Filling (fs : FileSystem) (w : WalWriter) (f : BufWriter) (name : FileName) (n : Nat) :
    Prop where
  file : w.file = some f
  window : Window fs w.rotator n
  mem : name ∈ segments fs
  inode : fs.dir.lookup name = some f.inode
  written : w.written = fileSize fs name + f.buffer.length

/-- The memory when some of the bytes that wait have gone to the file. -/
def drained (w : WalWriter) (f : BufWriter) (bytes : List UInt8) (k : Nat) : WalWriter :=
  { w with file := some ⟨f.inode, (f.buffer ++ bytes).drop k⟩ }

namespace Filling

theorem write (h : Filling fs w f name n) (bytes : List UInt8) (k : Nat) :
    Filling (fs.append f.inode ((f.buffer ++ bytes).take k))
      { drained w f bytes k with written := w.written + bytes.length }
      ⟨f.inode, (f.buffer ++ bytes).drop k⟩ name n where
  file := rfl
  window := h.window.congr (segments_setContent _ _ _)
  mem := h.mem
  inode := h.inode
  written := by
    rw [fileSize_append h.inode, Nat.add_assoc, ← List.length_append, List.take_append_drop,
      List.length_append, ← Nat.add_assoc]
    exact congrArg (· + bytes.length) h.written

theorem segmentBytes_write (h : Filling fs w f name n) (k : Nat) :
    segmentBytes (fs.append f.inode ((f.buffer ++ bytes).take k)) +
      ((f.buffer ++ bytes).drop k).length = segmentBytes fs + f.buffer.length + bytes.length := by
  rw [segmentBytes_append h.inode h.mem, Nat.add_assoc, ← List.length_append,
    List.take_append_drop, List.length_append, Nat.add_assoc]

theorem holds_flush (h : Filling fs w f name n)
    (hcrash : ∀ k, crash (fs.append f.inode (f.buffer.take k)))
    (hdone : Filling (fs.append f.inode f.buffer) { w with file := some ⟨f.inode, []⟩ }
        ⟨f.inode, []⟩ name n →
      post.done () (fs.append f.inode f.buffer) { w with file := some ⟨f.inode, []⟩ }) :
    flush.Holds crash post fs w := by
  rw [WalWriter.holds_flush h.file]
  refine ⟨fun k _ => hcrash k, hdone ?_⟩
  have hall := h.write [] f.buffer.length
  simp only [List.append_nil, List.take_length, List.drop_length, drained, List.length_nil,
    Nat.add_zero] at hall
  exact hall

/-- The end of `handle_record`. -/
theorem holds_writeScratch (h : Filling fs w f name n)
    (hcrash : ∀ k, crash (fs.append f.inode ((f.buffer ++ bytes).take k)))
    (hdone : ∀ k w', Filling (fs.append f.inode ((f.buffer ++ bytes).take k)) w'
        ⟨f.inode, (f.buffer ++ bytes).drop k⟩ name n →
      w'.rotator = w.rotator → w'.segmentSize = w.segmentSize → w'.nextRotate = w.nextRotate →
      w'.written = w.written + bytes.length →
      post.done () (fs.append f.inode ((f.buffer ++ bytes).take k)) w') :
    (writeScratch bytes).Holds crash post fs w := by
  unfold writeScratch
  simp only [holds_bind, holds_get, h.file, Option.isSome_some, if_true]
  refine holds_bufWriteAll h.file (fs.inode_lt h.inode) (fun k _ => hcrash k) fun k _ => ?_
  exact (holds_modify _).mpr (hdone k _ { h.write bytes k with } rfl rfl rfl rfl)

end Filling

/-- **A new segment**, when nothing waits in the buffer. -/
theorem holds_openSegment_window (now : Nat) (h : Window fs w.rotator n)
    (hmax : 1 ≤ w.rotator.maxSegments) (hfuel : 1 < fuel)
    (hidle : ∀ f, w.file = some f → f.buffer = [])
    (hcrash : ∀ t, segmentBytes t ≤ segmentBytes fs → crash t)
    (hdone : ∀ k t w', Swept (w.rotator.made fs) w.rotator.advanced k t →
      Filling t w' ⟨fs.inodes.length, []⟩ w.rotator.wanted (n + 1 - k) → w'.written = 0 →
      w'.rotator = { w.rotator.advanced with minNo := w.rotator.minNo + UInt64.ofNat k } →
      w'.segmentSize = w.segmentSize → w'.nextRotate = now + w.rotateInterval →
      post.done () t w') :
    (openSegment fuel now).Holds crash post fs w := by
  unfold openSegment
  rw [holds_bind, holds_zoom]
  refine (h.holds_nextSegment hmax hfuel).mono hcrash ?_ (fun _ _ h => h.elim) (fun h => h.elim)
  rintro path t r' ⟨rfl, hmem, k, ht, hwindow, rfl⟩
  have hlookup := ht.lookup_wanted hmem
  have hwanted : w.rotator.wanted ∈ segments t := mem_segments.mpr ⟨hmem, isSegment_segPath _⟩
  have hempty : fileSize t w.rotator.wanted = 0 := by
    rw [ht.housekeeping.fileSize_eq hwanted, fileSize_made]
  simp only [holds_bind, holds_openAppend, hlookup]
  refine holds_flush_idle hidle (hcrash t (ht.segmentBytes_le h.wanted_notMem)) ?_
  refine (holds_modify _).mpr (hdone k t _ ht ?_ rfl rfl rfl rfl)
  exact ⟨rfl, hwindow, hwanted, hlookup, hempty.symm⟩

/-! ## Records that fit -/

/-- The bound. -/
def Bounded (maxSegments : Nat) (segmentSize : UInt64) (fs : FileSystem) : Prop :=
  segmentBytes fs ≤ maxSegments * segmentSize.toNat

variable {maxSegments : Nat} {segmentSize : UInt64} {crc32 : List UInt8 → UInt32}

/-- No segment is longer than `segment_size`, the open one with its buffer included. -/
structure WithinSize (maxSegments : Nat) (segmentSize : UInt64) (fs : FileSystem) (w : WalWriter)
    (f : BufWriter) (name : FileName) (n : Nat) : Prop where
  filling : Filling fs w f name n
  max_eq : w.rotator.maxSegments = maxSegments
  size_eq : w.segmentSize = segmentSize
  sizes : ∀ name ∈ segments fs, fileSize fs name ≤ segmentSize.toNat
  written_le : w.written ≤ segmentSize.toNat

/-- The writer between two operations. -/
def InBounds (maxSegments : Nat) (segmentSize : UInt64) (fs : FileSystem) (w : WalWriter) : Prop :=
  ∃ f name n, WithinSize maxSegments segmentSize fs w f name n

theorem bounded_of_sizes (hcard : (segments fs).card ≤ maxSegments)
    (hsizes : ∀ name ∈ segments fs, fileSize fs name ≤ segmentSize.toNat) :
    Bounded maxSegments segmentSize fs :=
  Nat.le_trans (segmentBytes_le_card_mul hsizes) (Nat.mul_le_mul_right _ hcard)

namespace WithinSize

/-- Bytes for which there is room go to the open segment. -/
theorem sizes_append (h : WithinSize maxSegments segmentSize fs w f name n)
    (hroom : w.written + bytes.length ≤ segmentSize.toNat) (k : Nat) :
    ∀ name' ∈ segments (fs.append f.inode ((f.buffer ++ bytes).take k)),
      fileSize (fs.append f.inode ((f.buffer ++ bytes).take k)) name' ≤ segmentSize.toNat := by
  intro name' hname'
  have hlength : ((f.buffer ++ bytes).take k).length ≤ f.buffer.length + bytes.length := by
    rw [List.length_take, List.length_append]
    exact Nat.min_le_right _ _
  have hwritten := h.filling.written
  by_cases hname : name' = name
  · rw [hname, fileSize_append h.filling.inode]
    omega
  · rw [fileSize_append_ne h.filling.inode hname]
    exact h.sizes name' hname'

theorem bounded_append (h : WithinSize maxSegments segmentSize fs w f name n)
    (hroom : w.written + bytes.length ≤ segmentSize.toNat) (k : Nat) :
    Bounded maxSegments segmentSize (fs.append f.inode ((f.buffer ++ bytes).take k)) := by
  refine bounded_of_sizes ?_ (h.sizes_append hroom k)
  rw [← h.max_eq, FileSystem.append, segments_setContent, h.filling.window.card_eq]
  exact h.filling.window.le

theorem holds_flush (h : WithinSize maxSegments segmentSize fs w f name n)
    (hdone : ∀ t w' f', WithinSize maxSegments segmentSize t w' f' name n → f'.buffer = [] →
      w'.file = some f' → w'.rotator = w.rotator → post.done () t w') :
    flush.Holds (Bounded maxSegments segmentSize) post fs w := by
  have hroom : w.written + ([] : List UInt8).length ≤ segmentSize.toNat := h.written_le
  refine h.filling.holds_flush (fun k => ?_) fun hflushed => ?_
  · have hcut := h.bounded_append hroom k
    rwa [List.append_nil] at hcut
  · have hsizes := h.sizes_append hroom f.buffer.length
    rw [List.append_nil, List.take_length] at hsizes
    exact hdone _ _ _ ⟨hflushed, h.max_eq, h.size_eq, hsizes, h.written_le⟩ rfl rfl rfl

/-- The sizes after a call of `next_segment`. -/
theorem sizes_next {r : Rotator} {k : Nat}
    (hsizes : ∀ name ∈ segments fs, fileSize fs name ≤ segmentSize.toNat)
    (ht : Swept (r.made fs) r.advanced k t) :
    ∀ name ∈ segments t, fileSize t name ≤ segmentSize.toNat := by
  intro name hname
  rw [ht.housekeeping.fileSize_eq hname]
  rcases eq_or_ne name r.wanted with rfl | hne
  · rw [fileSize_made]
    exact Nat.zero_le _
  · rw [fileSize_made_ne hne]
    rw [ht.segments_swept] at hname
    exact hsizes name (Finset.mem_of_mem_insert_of_ne (mem_sweep.mp hname).1 hne)

/-- A segment is opened by a writer without an open one, or with a flushed one. -/
theorem holds_openSegment (now : Nat) (hwindow : Window fs w.rotator n)
    (hmax : 1 ≤ maxSegments) (hfuel : 1 < fuel) (hmax_eq : w.rotator.maxSegments = maxSegments)
    (hsize : w.segmentSize = segmentSize)
    (hsizes : ∀ name ∈ segments fs, fileSize fs name ≤ segmentSize.toNat)
    (hidle : ∀ f, w.file = some f → f.buffer = [])
    (hdone : ∀ t w' f' name' n', WithinSize maxSegments segmentSize t w' f' name' n' →
      w'.written = 0 → post.done () t w') :
    (openSegment fuel now).Holds (Bounded maxSegments segmentSize) post fs w := by
  have hbounded : Bounded maxSegments segmentSize fs := by
    refine bounded_of_sizes ?_ hsizes
    rw [← hmax_eq, hwindow.card_eq]
    exact hwindow.le
  refine holds_openSegment_window now hwindow (hmax_eq ▸ hmax) hfuel hidle
    (fun t hle => Nat.le_trans hle hbounded) fun k t w' ht hfilling hwritten hrotator hsize' _ => ?_
  refine hdone t w' _ _ _ ⟨hfilling, ?_, hsize'.trans hsize, sizes_next hsizes ht, ?_⟩ hwritten
  · rw [hrotator]
    exact hmax_eq
  · rw [hwritten]
    exact Nat.zero_le _

/-- A flush and a new segment. -/
theorem holds_flush_open (now : Nat) (h : WithinSize maxSegments segmentSize fs w f name n)
    (hmax : 1 ≤ maxSegments) (hfuel : 1 < fuel)
    (hdone : ∀ t w' f' name' n', WithinSize maxSegments segmentSize t w' f' name' n' →
      w'.written = 0 → post.done () t w') :
    flush.Holds (Bounded maxSegments segmentSize)
      ⟨fun _ t w' => (openSegment fuel now).Holds (Bounded maxSegments segmentSize) post t w',
        post.failed, post.running⟩ fs w := by
  refine h.holds_flush fun t w' f' hflushed hbuffer hfile hrotator => ?_
  refine holds_openSegment now hflushed.filling.window hmax hfuel hflushed.max_eq hflushed.size_eq
    hflushed.sizes (fun g hg => ?_) hdone
  rw [hfile] at hg
  rw [← Option.some.inj hg, hbuffer]

theorem holds_writeScratch (h : WithinSize maxSegments segmentSize fs w f name n)
    (hroom : w.written + bytes.length ≤ segmentSize.toNat) :
    (writeScratch bytes).Holds (Bounded maxSegments segmentSize)
      (.returns fun _ => InBounds maxSegments segmentSize) fs w := by
  refine h.filling.holds_writeScratch (h.bounded_append hroom)
    fun k w' hfilling hrotator hsize _ hwritten => ?_
  refine ⟨_, name, n, hfilling, ?_, hsize.trans h.size_eq, h.sizes_append hroom k, ?_⟩
  · rw [hrotator, h.max_eq]
  · rwa [hwritten]

/-- `handle_record` on a record that fits an empty segment. -/
theorem holds_handleRecord {r : WalRecord} {degraded : Bool}
    (h : WithinSize maxSegments segmentSize fs w f name n) (hmax : 1 ≤ maxSegments)
    (hfuel : 1 < fuel) (hfits : degraded = false → 64 + r.payload.length ≤ segmentSize.toNat) :
    (handleRecord crc32 fuel r degraded now).Holds (Bounded maxSegments segmentSize)
      (.returns fun _ => InBounds maxSegments segmentSize) fs w := by
  unfold handleRecord
  cases degraded with
  | true =>
    rw [if_pos rfl, holds_modify]
    exact ⟨f, name, n, { h with filling := { h.filling with } }⟩
  | false =>
    have hlength : (r.frame crc32).length ≤ segmentSize.toNat := by
      rw [frame_length]
      exact hfits rfl
    simp only [Bool.false_eq_true, if_false, holds_bind, holds_modify, holds_get, encode_eq,
      List.nil_append]
    have hscratch : WithinSize maxSegments segmentSize fs { w with scratch := r.frame crc32 } f name
        n := { h with filling := { h.filling with } }
    by_cases hfull : w.written + (r.frame crc32).length > w.segmentSize.toNat
    · rw [if_pos hfull]
      simp only [holds_bind]
      refine hscratch.holds_flush_open now hmax hfuel fun t w' f' name' n' hnext hempty => ?_
      refine hnext.holds_writeScratch ?_
      rwa [hempty, Nat.zero_add]
    · rw [if_neg hfull]
      refine hscratch.holds_writeScratch ?_
      rw [← h.size_eq]
      exact Nat.not_lt.mp hfull

theorem holds_maybeRotate {check : Nat} (h : WithinSize maxSegments segmentSize fs w f name n)
    (hmax : 1 ≤ maxSegments) (hfuel : 1 < fuel) :
    (maybeRotate fuel check now).Holds (Bounded maxSegments segmentSize)
      (.returns fun _ => InBounds maxSegments segmentSize) fs w := by
  unfold maybeRotate
  simp only [holds_get_bind]
  by_cases hdue : check ≥ w.nextRotate ∧ w.written > 0
  · rw [if_pos hdue, holds_bind]
    exact h.holds_flush_open now hmax hfuel fun t w' f' name' n' hnext _ => ⟨f', name', n', hnext⟩
  · rw [if_neg hdue, holds_pure]
    exact ⟨f, name, n, h⟩

/-- **One iteration of the loop.** -/
theorem holds_iteration {x : Received} (h : WithinSize maxSegments segmentSize fs w f name n)
    (hmax : 1 ≤ maxSegments) (hfuel : 1 < fuel)
    (hfits : ∀ r ∈ Received.accepted [x], 64 + r.payload.length ≤ segmentSize.toNat) :
    (iteration crc32 fuel x).Holds (Bounded maxSegments segmentSize)
      (.returns fun _ => InBounds maxSegments segmentSize) fs w := by
  cases x with
  | record r degraded clock =>
    have hrecord : degraded = false → 64 + r.payload.length ≤ segmentSize.toNat := by
      rintro rfl
      exact hfits r List.mem_cons_self
    refine (h.holds_handleRecord hmax hfuel hrecord).bind fun _ t w' ⟨f', name', n', hnext⟩ => ?_
    exact hnext.holds_maybeRotate hmax hfuel
  | timeout => exact (holds_pure ()).mpr ⟨f, name, n, h⟩

end WithinSize

variable (crc32) in
/-- The loop of a writer started in an empty directory. -/
theorem holds_loop_bounded {rotateInterval now₀ writtenRecords droppedRecords : Nat}
    {received : List Received} (now : Nat)
    (hnew : WalWriter.new FileSystem.empty maxSegments segmentSize rotateInterval now₀
      writtenRecords droppedRecords = some w) (hlt : maxSegments < 2 ^ 64) (hfuel : 1 < fuel)
    (hfits : ∀ r ∈ Received.accepted received, 64 + r.payload.length ≤ segmentSize.toNat) :
    (loop crc32 fuel now received).Holds (Bounded maxSegments segmentSize)
      (.returns fun _ => InBounds maxSegments segmentSize) FileSystem.empty w := by
  obtain ⟨hrotator, hmax, hfile, hsize, -, -⟩ := new_eq hnew
  obtain ⟨hwindow, hr⟩ := window_empty hlt hrotator
  have hnone : segments FileSystem.empty = ∅ := by decide
  unfold loop
  simp only [holds_get_bind, hfile, Option.isNone_none, if_true]
  have hfirst : (openSegment fuel now).Holds (Bounded maxSegments segmentSize)
      (.returns fun _ => InBounds maxSegments segmentSize) FileSystem.empty w := by
    refine WithinSize.holds_openSegment now hwindow hmax hfuel (by rw [hr]) hsize ?_ ?_
      fun t w' f' name' n' hnext _ => ⟨f', name', n', hnext⟩
    · rw [hnone]
      exact fun name hname => absurd hname (Finset.notMem_empty name)
    · intro f hf
      rw [hfile] at hf
      cases hf
  refine hfirst.bind fun _ t w' hw => ?_
  refine holds_forM (fun _ => InBounds maxSegments segmentSize) (fun pre x hpre t w hw => ?_) hw
  obtain ⟨f, name, n, hwithin⟩ := hw
  refine hwithin.holds_iteration hmax hfuel fun r hr => hfits r ?_
  have haccepted :
      Received.accepted pre ++ Received.accepted [x] <+: Received.accepted received := by
    rw [← Received.accepted_append]
    exact hpre.filterMap _
  exact haccepted.subset (List.mem_append_right _ hr)

variable (crc32) in
/-- **The bound along every run on records that fit.** -/
theorem holds_run_bounded {rotateInterval now₀ writtenRecords droppedRecords : Nat}
    {received : List Received} (now : Nat)
    (hnew : WalWriter.new FileSystem.empty maxSegments segmentSize rotateInterval now₀
      writtenRecords droppedRecords = some w) (hlt : maxSegments < 2 ^ 64) (hfuel : 1 < fuel)
    (hfits : ∀ r ∈ Received.accepted received, 64 + r.payload.length ≤ segmentSize.toNat) :
    (run crc32 fuel now received).Holds (Bounded maxSegments segmentSize)
      (.returns fun _ => InBounds maxSegments segmentSize) FileSystem.empty w := by
  refine (holds_loop_bounded crc32 now hnew hlt hfuel hfits).bind fun _ t w' hw => ?_
  obtain ⟨f, name, n, hwithin⟩ := hw
  exact hwithin.holds_flush fun t w' f' hflushed _ _ _ => ⟨f', name, n, hflushed⟩

/-! ## Records that do not fit -/

/-- The writer after `j` records of `size` bytes each: each has a segment of its own,
behind a first one that is empty. -/
structure Heaped (maxSegments : Nat) (segmentSize : UInt64) (size j : Nat) (fs : FileSystem)
    (w : WalWriter) (f : BufWriter) (name : FileName) (n : Nat) : Prop where
  filling : Filling fs w f name n
  max_eq : w.rotator.maxSegments = maxSegments
  size_eq : w.segmentSize = segmentSize
  bytes : segmentBytes fs + f.buffer.length = j * size
  length : j < maxSegments → n = j + 1 ∧ w.rotator.minNo = 0
  first : fileSize fs (segPath 0) = 0 ∧ (name = segPath 0 → f.buffer = [])

/-- The records are received one after the other, before the segment is due. -/
def copies (r : WalRecord) (n : Nat) : List Received :=
  List.replicate n (.record r false ⟨1, 0, 0⟩)

namespace Heaped
variable {size j : Nat}

theorem holds_flush (h : Heaped maxSegments segmentSize size j fs w f name n)
    (hdone : ∀ t w' f', Heaped maxSegments segmentSize size j t w' f' name n → f'.buffer = [] →
      w'.file = some f' → w'.rotateInterval = w.rotateInterval → post.done () t w') :
    flush.Holds (fun _ => True) post fs w := by
  refine h.filling.holds_flush (fun _ => trivial) fun hflushed => ?_
  refine hdone _ _ _ ⟨hflushed, h.max_eq, h.size_eq, ?_, h.length, ?_, fun _ => rfl⟩ rfl rfl rfl
  · rw [segmentBytes_append h.filling.inode h.filling.mem, h.bytes]
    rfl
  · rcases eq_or_ne name (segPath 0) with rfl | hne
    · rw [h.first.2 rfl, FileSystem.append_nil]
      exact h.first.1
    · rw [fileSize_append_ne h.filling.inode (Ne.symm hne)]
      exact h.first.1

/-- A call of `next_segment` removes at most the empty segment. -/
theorem swept {k : Nat} (h : Heaped maxSegments segmentSize size j fs w f name n)
    (hj : j < maxSegments) (ht : Swept (w.rotator.made fs) w.rotator.advanced k t) :
    segmentBytes t = segmentBytes fs ∧ fileSize t (segPath 0) = 0 ∧
      w.rotator.wanted ≠ segPath 0 ∧ (j + 1 < maxSegments → k = 0) := by
  obtain ⟨hn, hminNo⟩ := h.length hj
  have hmax := h.max_eq
  have hle := h.filling.window.le
  have hlt := h.filling.window.max_lt
  have hzero : segPath 0 = segAt w.rotator.minNo.toNat 0 := by
    rw [hminNo]
    rfl
  have hne : w.rotator.wanted ≠ segPath 0 := by
    rw [h.filling.window.wanted_eq, hzero]
    intro heq
    have hindex := (segAt_inj (by omega) (by omega)).mp heq
    omega
  have hempty : fileSize (w.rotator.made fs) (segPath 0) = 0 := by
    rw [fileSize_made_ne (Ne.symm hne)]
    exact h.first.1
  have hk := h.filling.window.swept_cases ht
  refine ⟨?_, ?_, hne, fun hnext => by omega⟩
  · refine ht.segmentBytes_eq_of_empty h.filling.window.wanted_notMem (by omega) ?_
    rw [hminNo]
    exact hempty
  · have hle' := ht.housekeeping.fileSize_le (segPath_ne_ledgerPath 0)
    omega

/-- One more record, in a segment of its own. -/
theorem holds_handleRecord {r : WalRecord} (h : Heaped maxSegments segmentSize size j fs w f name n)
    (hj : j < maxSegments) (hsize : 64 + r.payload.length = size)
    (hover : segmentSize.toNat < size) (hfuel : 1 < fuel) :
    (handleRecord crc32 fuel r false 1).Holds (fun _ => True)
      (.returns fun _ t w' => 0 < w'.nextRotate ∧
        ∃ f' name' n', Heaped maxSegments segmentSize size (j + 1) t w' f' name' n') fs w := by
  have hframe : (r.frame crc32).length = size := (frame_length crc32 r).trans hsize
  have hscratch :
      Heaped maxSegments segmentSize size j fs { w with scratch := r.frame crc32 } f name n :=
    { h with filling := { h.filling with } }
  have hfull : w.written + (r.frame crc32).length > w.segmentSize.toNat := by
    rw [hframe, h.size_eq]
    omega
  unfold handleRecord
  simp only [Bool.false_eq_true, if_false, holds_bind, holds_modify, holds_get, encode_eq,
    List.nil_append]
  rw [if_pos hfull]
  simp only [holds_bind]
  refine hscratch.holds_flush fun t w' f' hflushed hbuffer hfile _ => ?_
  have hidle : ∀ g, w'.file = some g → g.buffer = [] := by
    intro g hg
    rw [hfile] at hg
    rw [← Option.some.inj hg, hbuffer]
  have hmax : 1 ≤ w'.rotator.maxSegments := by
    rw [hflushed.max_eq]
    omega
  refine holds_openSegment_window 1 hflushed.filling.window hmax hfuel hidle (fun _ _ => trivial)
    fun k u w₁ hu hfilling _ hrotator hsize₁ hdue => ?_
  obtain ⟨hbytes, hfirst, hne, hk⟩ := hflushed.swept hj hu
  obtain ⟨hn, hminNo⟩ := hflushed.length hj
  refine hfilling.holds_writeScratch (fun _ => trivial)
    fun l w₂ hwritten hrotator₂ hsize₂ hdue₂ _ => ⟨?_, _, _, _, hwritten, ?_, ?_, ?_, ?_, ?_, ?_⟩
  · rw [hdue₂, hdue]
    omega
  · rw [hrotator₂, hrotator]
    exact hflushed.max_eq
  · rw [hsize₂, hsize₁, hflushed.size_eq]
  · have htotal := hflushed.bytes
    rw [hbuffer, List.length_nil, Nat.add_zero] at htotal
    rw [hfilling.segmentBytes_write, hbytes, htotal, hframe, Nat.succ_mul]
    rfl
  · intro hnext
    obtain rfl := hk hnext
    rw [hrotator₂, hrotator]
    exact ⟨by omega, by rw [hminNo]; rfl⟩
  · rw [fileSize_append_ne hfilling.inode (Ne.symm hne)]
    exact hfirst
  · exact fun heq => absurd heq hne

theorem holds_iteration {r : WalRecord} (h : Heaped maxSegments segmentSize size j fs w f name n)
    (hj : j < maxSegments) (hsize : 64 + r.payload.length = size)
    (hover : segmentSize.toNat < size) (hfuel : 1 < fuel) :
    (iteration crc32 fuel (.record r false ⟨1, 0, 0⟩)).Holds (fun _ => True)
      (.returns fun _ t w' =>
        ∃ f' name' n', Heaped maxSegments segmentSize size (j + 1) t w' f' name' n') fs w := by
  refine (h.holds_handleRecord hj hsize hover hfuel).bind fun _ t w' ⟨hdue, hnext⟩ => ?_
  unfold maybeRotate
  simp only [holds_get_bind]
  rw [if_neg fun hcheck => absurd hcheck.1 (Nat.not_le.mpr hdue), holds_pure]
  exact hnext

end Heaped

/-- The first segment, in an empty directory. -/
theorem holds_openSegment_empty {rotateInterval now₀ writtenRecords droppedRecords : Nat}
    (size now : Nat)
    (hnew : WalWriter.new FileSystem.empty maxSegments segmentSize rotateInterval now₀
      writtenRecords droppedRecords = some w) (hlt : maxSegments < 2 ^ 64) (hfuel : 1 < fuel) :
    (openSegment fuel now).Holds (fun _ => True)
      (.returns fun _ t w' => ∃ f name n, Heaped maxSegments segmentSize size 0 t w' f name n)
      FileSystem.empty w := by
  obtain ⟨hrotator, hmax, hfile, hsize, -, -⟩ := new_eq hnew
  obtain ⟨hwindow, hr⟩ := window_empty hlt hrotator
  have hwanted : w.rotator.wanted = segPath 0 := by
    rw [hr]
    rfl
  have hidle : ∀ f, w.file = some f → f.buffer = [] := by
    intro f hf
    rw [hfile] at hf
    cases hf
  refine holds_openSegment_window now hwindow (by rwa [hr]) hfuel hidle (fun _ _ => trivial)
    fun k t w' ht hfilling _ hrotator' hsize' _ => ?_
  have hk := hwindow.swept_cases ht
  obtain rfl : k = 0 := by
    rw [hr] at hk
    dsimp only at hk
    omega
  refine ⟨_, _, _, hfilling, ?_, hsize'.trans hsize, ?_, fun _ => ⟨rfl, ?_⟩, ?_, fun _ => rfl⟩
  · rw [hrotator', hr]
    rfl
  · have hempty : segmentBytes FileSystem.empty = 0 := by decide
    have hle := ht.segmentBytes_le hwindow.wanted_notMem
    rw [hempty] at hle
    rw [Nat.zero_mul]
    exact Nat.le_zero.mp hle
  · rw [hrotator', hr]
    rfl
  · have hle := ht.housekeeping.fileSize_le (segPath_ne_ledgerPath 0)
    rw [← hwanted, fileSize_made] at hle
    rw [← hwanted]
    exact Nat.le_zero.mp hle

variable (crc32) in
/-- Copies of a record that does not fit, as many as there are segments. -/
theorem holds_loop_copies {rotateInterval now₀ writtenRecords droppedRecords : Nat} {r : WalRecord}
    (now : Nat)
    (hnew : WalWriter.new FileSystem.empty maxSegments segmentSize rotateInterval now₀
      writtenRecords droppedRecords = some w) (hlt : maxSegments < 2 ^ 64) (hfuel : 1 < fuel)
    (hover : segmentSize.toNat < 64 + r.payload.length) :
    (loop crc32 fuel now (copies r maxSegments)).Holds (fun _ => True)
      (.returns fun _ t w' => ∃ f name n, Heaped maxSegments segmentSize (64 + r.payload.length)
        maxSegments t w' f name n) FileSystem.empty w := by
  have hfile := (new_eq hnew).2.2.1
  have hlength : (copies r maxSegments).length = maxSegments := List.length_replicate
  unfold loop
  simp only [holds_get_bind, hfile, Option.isNone_none, if_true]
  refine (holds_openSegment_empty (64 + r.payload.length) now hnew hlt hfuel).bind
    fun _ t w' hw => ?_
  refine (holds_forM (fun pre t w' => ∃ f name n, Heaped maxSegments segmentSize
    (64 + r.payload.length) pre.length t w' f name n) (fun pre x hpre t w hw => ?_)
      hw).imp_returns fun _ t w' hw => ?_
  · have hle := hpre.length_le
    rw [hlength, List.length_append, List.length_singleton] at hle
    obtain rfl : x = .record r false ⟨1, 0, 0⟩ :=
      List.eq_of_mem_replicate (hpre.subset (List.mem_append_right _ List.mem_cons_self))
    obtain ⟨f, name, n, hheaped⟩ := hw
    rw [List.length_append, List.length_singleton]
    exact hheaped.holds_iteration (by omega) rfl hover hfuel
  · rwa [hlength] at hw

variable (crc32) in
/-- **They break the bound.** -/
theorem copies_not_bounded {rotateInterval now₀ writtenRecords droppedRecords : Nat} {r : WalRecord}
    (now : Nat)
    (hnew : WalWriter.new FileSystem.empty maxSegments segmentSize rotateInterval now₀
      writtenRecords droppedRecords = some w) (hlt : maxSegments < 2 ^ 64) (hfuel : 1 < fuel)
    (hover : segmentSize.toNat < 64 + r.payload.length) :
    ∃ t ∈ (run crc32 fuel now (copies r maxSegments) FileSystem.empty w).trace,
      ¬ Bounded maxSegments segmentSize t := by
  by_contra hnone
  simp only [not_exists, not_and, not_not] at hnone
  obtain ⟨⟨⟩, t, w', hdone, f, name, n, hheaped⟩ :=
    (holds_loop_copies crc32 now hnew hlt hfuel hover).returned
  -- the bound on all the states of the run is one on those of its last flush
  have hrun : (run crc32 fuel now (copies r maxSegments)).Holds (Bounded maxSegments segmentSize)
      ⟨fun _ _ _ => True, fun _ _ => True, True⟩ FileSystem.empty w := by
    refine ⟨hnone, ?_⟩
    cases (run crc32 fuel now (copies r maxSegments) FileSystem.empty w).outcome <;> trivial
  have hflush := (holds_bind.mp hrun).done hdone
  have hlast := ((WalWriter.holds_flush hheaped.filling.file).mp hflush).1 _ (Nat.le_refl _)
  rw [List.take_length, Bounded, segmentBytes_append hheaped.filling.inode hheaped.filling.mem,
    hheaped.bytes] at hlast
  have hmax := (new_eq hnew).2.1
  exact absurd hlast (Nat.not_le.mpr (Nat.mul_lt_mul_of_pos_left hover hmax))

/-! ## The bound -/

/-- The slicer makes this record of some frame, under the configuration. -/
def Producible (fromEthernet : FromEthernet) (cfg : Config) (r : WalRecord) : Prop :=
  ∃ frame tsNs degraded,
    (Slicer.mk cfg.sliceBytes.toNat).process fromEthernet frame tsNs degraded = some r

/-- The segments are within the budget all along a run from an empty directory. -/
def KeepsBound (crc32 : List UInt8 → UInt32) (cfg : Config) (rotateInterval fuel : Nat)
    (received : List Received) : Prop :=
  ∀ (now₀ now writtenRecords droppedRecords : Nat) (w : WalWriter),
    WalWriter.new FileSystem.empty cfg.maxSegments.toNat cfg.segmentSize rotateInterval now₀
        writtenRecords droppedRecords = some w →
      ∀ t ∈ (run crc32 fuel now received FileSystem.empty w).trace,
        segmentBytes t ≤ cfg.maxSegments.toNat * cfg.segmentSize.toNat

theorem new_empty_isSome {cfg : Config} (hvalid : cfg.validate = .ok ()) (rotateInterval : Nat) :
    ∃ w, WalWriter.new FileSystem.empty cfg.maxSegments.toNat cfg.segmentSize rotateInterval 0 0 0 =
      some w := by
  obtain ⟨-, -, -, hmax, -⟩ := Config.validate_eq_ok.mp hvalid
  have hsome : cfg.maxSegments.toNat ≥ 1 := UInt64.le_iff_toNat_le.mp hmax
  unfold WalWriter.new Rotator.new
  rw [if_pos hsome]
  exact ⟨_, rfl⟩

/-- **When the RAM disk is bounded.**  Along every run whose accepted records fit an
empty segment, header included, the segments total at most `max_segments` times
`segment_size`.  All runs on what the slicer can produce keep the bound exactly if
all that it can produce fits. -/
theorem ramBound_iff (fromEthernet : FromEthernet) (crc32 : List UInt8 → UInt32) {cfg : Config}
    (hvalid : cfg.validate = .ok ()) (rotateInterval : Nat) (hfuel : 1 < fuel) :
    (∀ received,
      (∀ r ∈ Received.accepted received, 64 + r.payload.length ≤ cfg.segmentSize.toNat) →
        KeepsBound crc32 cfg rotateInterval fuel received) ∧
    ((∀ received, (∀ r degraded clock, .record r degraded clock ∈ received →
        Producible fromEthernet cfg r) → KeepsBound crc32 cfg rotateInterval fuel received) ↔
      ∀ r, Producible fromEthernet cfg r → 64 + r.payload.length ≤ cfg.segmentSize.toNat) := by
  have hlt : cfg.maxSegments.toNat < 2 ^ 64 := cfg.maxSegments.toNat_lt
  have hfit : ∀ received,
      (∀ r ∈ Received.accepted received, 64 + r.payload.length ≤ cfg.segmentSize.toNat) →
        KeepsBound crc32 cfg rotateInterval fuel received := by
    intro received hfits now₀ now writtenRecords droppedRecords w hnew t ht
    exact (holds_run_bounded crc32 now hnew hlt hfuel hfits).1 t ht
  refine ⟨hfit, fun hbound r hr => ?_, fun hfits received hreceived => hfit received fun r hr => ?_⟩
  · by_contra hover
    obtain ⟨w, hw⟩ := new_empty_isSome hvalid rotateInterval
    obtain ⟨t, ht, hbroken⟩ := copies_not_bounded crc32 0 hw hlt hfuel (Nat.not_le.mp hover)
    refine hbroken (hbound (copies r cfg.maxSegments.toNat) ?_ 0 0 0 0 w hw t ht)
    intro r' degraded clock hmem
    have heq := List.eq_of_mem_replicate hmem
    injection heq with hrecord
    exact hrecord ▸ hr
  · obtain ⟨x, hx, haccepted⟩ := List.mem_filterMap.mp hr
    cases x with
    | timeout => cases haccepted
    | record r' degraded clock =>
      cases degraded with
      | true => cases haccepted
      | false => exact hfits r (Option.some.inj haccepted ▸ hreceived r' false clock hx)

/-- Two segments, each with room for one short record. -/
def smallSegments : Config := { defaultConfig with segmentSize := 128, maxSegments := 2 }

/-- Four records make four segments, and the first two of them are removed again. -/
theorem ramBound_iff_copies : KeepsBound Crc.ieee smallSegments 5 2 (copies sampleRecord 4) ∧
    ∃ w t w', WalWriter.new FileSystem.empty smallSegments.maxSegments.toNat
        smallSegments.segmentSize 5 0 0 0 = some w ∧
      (run Crc.ieee 2 0 (copies sampleRecord 4) FileSystem.empty w).outcome = .done () t w' ∧
      t.created.map Prod.fst = [segPath 0, segPath 1, segPath 2, segPath 3] ∧
      segPath 1 ∉ t ∧ segPath 2 ∈ t := by
  have hvalid : smallSegments.validate = .ok () := by
    rw [Config.validate_eq_ok]
    decide
  have hfits : ∀ r ∈ Received.accepted (copies sampleRecord 4),
      64 + r.payload.length ≤ smallSegments.segmentSize.toNat := by decide
  have hruns : ((WalWriter.new FileSystem.empty smallSegments.maxSegments.toNat
      smallSegments.segmentSize 5 0 0 0).bind fun w =>
        (run Crc.ieee 2 0 (copies sampleRecord 4) FileSystem.empty w).outcome.state?.map fun s =>
          (s.1.created.map Prod.fst, s.1.contains (segPath 1), s.1.contains (segPath 2))) =
      some ([segPath 0, segPath 1, segPath 2, segPath 3], false, true) := by decide +kernel
  obtain ⟨w, hw, hruns⟩ := Option.bind_eq_some_iff.mp hruns
  obtain ⟨s, hs, hends⟩ := Option.map_eq_some_iff.mp hruns
  obtain ⟨⟨⟩, hdone⟩ := Outcome.state?_eq_some.mp hs
  obtain ⟨hcreated, hrest⟩ := Prod.mk.inj hends
  obtain ⟨hremoved, hkept⟩ := Prod.mk.inj hrest
  refine ⟨(ramBound_iff headersOnly Crc.ieee hvalid 5 (by decide)).1 _ hfits, w, s.1, s.2, hw,
    hdone, hcreated, ?_, ?_⟩
  · exact of_decide_eq_false hremoved
  · exact of_decide_eq_true hkept

/-- Segments that a full slice does not fit. -/
def tightConfig : Config := { httpsConfig with segmentSize := 4096 }

/-- **The bound is broken** by eight slices of 4096 bytes, in segments of 4096 bytes. -/
theorem ramBound_broken :
    ¬ ∀ (fromEthernet : FromEthernet) (crc32 : List UInt8 → UInt32) (cfg : Config)
        (rotateInterval fuel : Nat) (received : List Received),
        cfg.validate = .ok () → 1 < fuel →
        (∀ r degraded clock, .record r degraded clock ∈ received →
          Producible fromEthernet cfg r) →
        KeepsBound crc32 cfg rotateInterval fuel received := by
  intro h
  have hvalid : tightConfig.validate = .ok () := by
    rw [Config.validate_eq_ok]
    decide
  obtain ⟨r, hdr, transport, hr, hsliced, happ⟩ := process_copy 7 false headersOnly_restIsPayload
    ⟨tightConfig.sliceBytes.toNat⟩ jumboSkb_layout jumboSkb_total rfl
  have hpayload : r.payload.length = 4096 := by
    rw [hsliced.payload, happ, List.length_take, List.length_take, List.length_drop,
      jumboSkb_length]
    rfl
  have hover : tightConfig.segmentSize.toNat < 64 + r.payload.length := by
    rw [hpayload]
    decide
  obtain ⟨w, hw⟩ := new_empty_isSome hvalid 5
  obtain ⟨t, ht, hbroken⟩ := copies_not_bounded Crc.ieee 0 hw (UInt64.toNat_lt _)
    (by decide : 1 < 2) hover
  refine hbroken (h headersOnly Crc.ieee tightConfig 5 2 _ hvalid (by decide) ?_ 0 0 0 0 w hw t ht)
  intro r' degraded clock hmem
  have heq := List.eq_of_mem_replicate hmem
  injection heq with hrecord
  exact hrecord ▸ ⟨_, _, _, hr⟩

end WalWriter
end SovProbe
