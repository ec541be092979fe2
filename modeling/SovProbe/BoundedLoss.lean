import SovProbe.WriterRefinement
import SovProbe.WholeRecords

/-! # What a kill loses

A writer that is killed loses what is in its buffer.  The buffer never holds more than its
capacity (`Buffered`), also in the middle of a write that empties it, and a record has at
least a header, so what a reader finds lacks 128 of the records at most that had been
accepted before the record in hand (`kill_loses_at_most`).
-/

namespace SovProbe
open Process WalRecord

/-- `LogPrefix`, where all of `A` is found but `lost` records. -/
def LosesAtMost (crc32 : List UInt8 → UInt32) (start : FileSystem) (lost : Nat)
    (A total : List WalRecord) (fs : FileSystem) : Prop :=
  ∃ (opened : List (FileName × Nat)) (last : FileName × Nat) (logs : List (List WalRecord))
    (log : List WalRecord) (residual : Nat),
    fs.created = start.created ++ (opened ++ [last]) ∧ Ascending (opened ++ [last]) ∧
      List.Forall₂ (fun o log => decodeStream crc32 (fs.content o.2) = .ok (log, 0)) opened logs ∧
      decodeStream crc32 (fs.content last.2) = .ok (log, residual) ∧
      logs.flatten ++ log <+: total.map normalised ∧ A.length ≤ (logs.flatten ++ log).length + lost

variable {crc32 : List UInt8 → UInt32} {start fs : FileSystem} {A total : List WalRecord}

theorem LosesAtMost.mono {lost : Nat} {A' : List WalRecord}
    (h : LosesAtMost crc32 start lost A' total fs) (hle : A.length ≤ A'.length) :
    LosesAtMost crc32 start lost A total fs := by
  obtain ⟨opened, last, logs, log, residual, hcreated, hascending, hlogs, hlog, hpre, hlost⟩ := h
  exact ⟨opened, last, logs, log, residual, hcreated, hascending, hlogs, hlog, hpre,
    hle.trans hlost⟩

/-- **A reader of the segments** finds all of `whole` but 128 records, if no more bytes of it
than the buffer's capacity are missing. -/
theorem Segments.losesAtMost {f : BufWriter} {name : FileName} {opened : List (FileName × Nat)}
    {logs : List (List WalRecord)} {whole more : List WalRecord}
    (h : Segments crc32 start fs f name opened logs (whole ++ more))
    (htotal : ∀ r ∈ total, r.Encodable) (hpre : logs.flatten ++ (whole ++ more) <+: total)
    (hmissing : (encoding crc32 whole).length ≤ (fs.content f.inode).length + bufCapacity) :
    LosesAtMost crc32 start 128 (logs.flatten ++ whole) total fs := by
  have hencodable : ∀ r ∈ logs.flatten ++ (whole ++ more), r.Encodable :=
    fun r hr => htotal r (hpre.subset hr)
  have htake : fs.content f.inode =
      (encoding crc32 (whole ++ more)).take (fs.content f.inode).length := by
    rw [← h.current, List.take_left]
  have hlen : (fs.content f.inode).length ≤ (encoding crc32 (whole ++ more)).length := by
    rw [← h.current, List.length_append]
    exact Nat.le_add_right _ _
  have hcur := decodeStream_encoding_take
    (fun r hr => hencodable r (List.mem_append_right _ hr)) hlen
  rw [← htake] at hcur
  refine ⟨opened, (name, f.inode), logs.map (List.map normalised), _, _, h.created, h.ascending,
    forall₂_normalised h.sealed fun o rs hrs ho => decodeStream_sealed ho fun r hr => ?_, hcur,
    ?_, ?_⟩
  · exact hencodable r (List.mem_append_left _ (List.mem_flatten.mpr ⟨rs, hrs, hr⟩))
  · rw [← List.map_flatten, ← List.map_append]
    refine List.IsPrefix.map _ (List.IsPrefix.trans ?_ hpre)
    exact (List.prefix_append_right_inj _).mpr (List.take_prefix _ _)
  · have hlost : whole.length ≤
        wholeRecords crc32 (whole ++ more) (fs.content f.inode).length + 128 :=
      length_le_wholeRecords hmissing
    have hle : wholeRecords crc32 (whole ++ more) (fs.content f.inode).length ≤
        (whole ++ more).length := wholeRecords_le
    rw [← List.map_flatten, ← List.map_append, List.length_map, List.length_append,
      List.length_append, List.length_take]
    unfold wholeRecords at hlost hle
    omega

namespace WalWriter
open Received
variable {maxSegments limit fuel : Nat} {segmentSize : UInt64} {w : WalWriter} {f : BufWriter}
  {g : Spread} {bytes : List UInt8}

/-- No more than the capacity is in the buffer. -/
def Buffered (w : WalWriter) : Prop := ∀ f, w.file = some f → f.buffer.length ≤ bufCapacity

theorem buffered_of_nil (h : w.file = some f) (hnil : f.buffer = []) : Buffered w := by
  intro f' hf'
  rw [← Option.some.inj (h.symm.trans hf'), hnil]
  exact Nat.zero_le _

/-- **`write_all`** keeps to the capacity. -/
theorem holds_bufWriteAll_buffered (h : Buffered w) (hfile : w.file = some f) :
    (bufWriteAll bytes).Holds (fun _ => True) (.returns fun _ _ => Buffered) fs w := by
  have hlen := h f hfile
  have happend : ∀ w' : WalWriter, w'.file = some ⟨f.inode, f.buffer ++ bytes⟩ →
      f.buffer.length + bytes.length ≤ bufCapacity → Buffered w' := by
    intro w' hw' hle f' hf'
    rw [← Option.some.inj (hw'.symm.trans hf'), List.length_append]
    exact hle
  have hshort : ∀ w' : WalWriter, w'.file = some ⟨f.inode, bytes⟩ → bytes.length ≤ bufCapacity →
      Buffered w' := by
    intro w' hw' hle f' hf'
    exact Option.some.inj (hw'.symm.trans hf') ▸ hle
  unfold bufWriteAll
  rw [holds_get_bind, hfile]
  dsimp only
  by_cases hroom : bytes.length < bufCapacity - f.buffer.length
  · rw [if_pos hroom, holds_modify]
    exact happend _ rfl (by omega)
  rw [if_neg hroom]
  by_cases hover : bytes.length > bufCapacity - f.buffer.length
  · rw [if_pos hover]
    simp only [holds_bind]
    refine (holds_flush hfile).mpr ⟨fun _ _ => trivial, ?_⟩
    by_cases hlarge : bytes.length ≥ bufCapacity
    · rw [if_pos hlarge]
      refine (holds_writeAll _ _).mpr ⟨fun _ _ => trivial, ?_⟩
      exact buffered_of_nil rfl rfl
    · rw [if_neg hlarge]
      exact (holds_modify _).mpr (hshort _ rfl (by omega))
  · rw [if_neg hover]
    by_cases hlarge : bytes.length ≥ bufCapacity
    · rw [if_pos hlarge]
      exact (holds_writeAll _ _).mpr ⟨fun _ _ => trivial, h⟩
    · rw [if_neg hlarge, holds_modify]
      refine happend _ (by rw [hfile]; rfl) ?_
      omega

/-! ## One step -/

namespace Writing
variable {more : List WalRecord}

/-- Wherever a write stops, what was accepted before it lacks a buffer at most. -/
theorem losesAtMost (h : Writing crc32 maxSegments segmentSize start limit A fs w f g)
    (hbuffered : Buffered w) (htotal : ∀ r ∈ total, r.Encodable) (hpre : A ++ more <+: total)
    (n : Nat) :
    LosesAtMost crc32 start 128 A total
      (fs.append f.inode ((f.buffer ++ encoding crc32 more).take n)) := by
  have hwrite := h.segments.write (encoding_append crc32 g.cur more) n
  have hlog : g.logs.flatten ++ (g.cur ++ more) <+: total := by
    rwa [← List.append_assoc, h.log]
  have hinode : f.inode < fs.inodes.length :=
    (h.segments.valid _ (List.mem_append_right _ List.mem_cons_self)).1
  rw [← h.log]
  refine hwrite.losesAtMost htotal hlog ?_
  have hcap := hbuffered f h.file
  rw [FileSystem.content_append hinode, ← h.segments.current, List.length_append,
    List.length_append]
  omega

/-- **A flush** on the way loses nothing more. -/
theorem holds_flush_losing (h : Writing crc32 maxSegments segmentSize start limit A fs w f g)
    (hbuffered : Buffered w) (htotal : ∀ r ∈ total, r.Encodable) (hpre : A <+: total) :
    flush.Holds (LosesAtMost crc32 start 128 A total)
      (.returns fun _ t w' => w' = { w with file := some ⟨f.inode, []⟩ } ∧
        Writing crc32 maxSegments segmentSize start limit A t w' ⟨f.inode, []⟩ g) fs w := by
  have hcrash : flush.Holds (LosesAtMost crc32 start 128 A total)
      ⟨fun _ _ _ => True, fun _ _ => True, True⟩ fs w := by
    refine (WalWriter.holds_flush h.file).mpr ⟨fun n _ => ?_, trivial⟩
    have hnothing : A ++ [] <+: total := by rwa [List.append_nil]
    have hcut := h.losesAtMost hbuffered htotal hnothing n
    rwa [encoding, List.flatMap_nil, List.append_nil] at hcut
  have hflush : flush.Holds (LogPrefix crc32 start total)
      (.returns fun _ t w' => w' = { w with file := some ⟨f.inode, []⟩ } ∧
        Writing crc32 maxSegments segmentSize start limit A t w' ⟨f.inode, []⟩ g) fs w :=
    h.holds_flush htotal hpre fun t ht => ⟨rfl, ht⟩
  exact ⟨hcrash.1, hflush.2⟩

/-- **The next segment**, after a flush, loses nothing at all. -/
theorem holds_openSegment_losing {i now : Nat}
    (h : Writing crc32 maxSegments segmentSize start limit A fs w ⟨i, []⟩ g)
    (hmax : 1 ≤ maxSegments) (hroom : limit + 1 < 2 ^ 64) (hfuel : 2 ^ 64 < fuel)
    (htotal : ∀ r ∈ total, r.Encodable) (hpre : A <+: total) :
    (openSegment fuel now).Holds (LosesAtMost crc32 start 128 A total)
      (.returns fun _ t w' => ∃ f' g', g'.cur = [] ∧
        Writing crc32 maxSegments segmentSize start (limit + 1) A t w' f' g') fs w := by
  have hlog : (g.logs ++ [g.cur]).flatten ++ [] = A := by
    rw [List.flatten_append, List.flatten_singleton, List.append_nil, h.log]
  have hidle : ∀ f, w.file = some f → f.buffer = [] :=
    fun f hf => Option.some.inj (h.file.symm.trans hf) ▸ rfl
  have hcrash : (openSegment fuel now).Holds (LosesAtMost crc32 start 128 A total)
      ⟨fun _ _ _ => True, fun _ _ => True, True⟩ fs w := by
    refine WalWriter.holds_openSegment now hmax hroom hfuel hidle h.retained ?_
      fun _ _ _ _ _ => trivial
    intro k t ht
    have hnext : LosesAtMost crc32 start 128 ((g.logs ++ [g.cur]).flatten ++ []) total t :=
      (h.segments.closed.next h.retained ht).losesAtMost htotal (hlog.symm ▸ hpre) (Nat.zero_le _)
    rwa [hlog] at hnext
  have hopen : (openSegment fuel now).Holds (LogPrefix crc32 start total)
      (.returns fun _ t w' => ∃ f' g', g'.cur = [] ∧
        Writing crc32 maxSegments segmentSize start (limit + 1) A t w' f' g') fs w :=
    h.holds_openSegment hmax hroom hfuel htotal hpre
      fun t w' f' g' hw hcur _ _ => ⟨f', g', hcur, hw⟩
  exact ⟨hcrash.1, hopen.2⟩

/-- An empty segment leaves the buffer empty. -/
theorem buffered_of_empty (h : Writing crc32 maxSegments segmentSize start limit A fs w f g)
    (hcur : g.cur = []) : Buffered w := by
  have hcurrent := h.segments.current
  rw [hcur, encoding, List.flatMap_nil, List.append_eq_nil_iff] at hcurrent
  exact buffered_of_nil h.file hcurrent.2

end Writing

/-- The writer is in the loop, and its buffer within its capacity. -/
def Lagging (crc32 : List UInt8 → UInt32) (maxSegments : Nat) (segmentSize : UInt64)
    (start : FileSystem) (limit : Nat) (A : List WalRecord) (fs : FileSystem) (w : WalWriter) :
    Prop :=
  Buffered w ∧ ∃ f g, Writing crc32 maxSegments segmentSize start limit A fs w f g

namespace Lagging

theorem mono {limit' : Nat} (h : Lagging crc32 maxSegments segmentSize start limit A fs w)
    (hle : limit ≤ limit') : Lagging crc32 maxSegments segmentSize start limit' A fs w := by
  obtain ⟨hbuffered, f, g, hw⟩ := h
  exact ⟨hbuffered, f, g, { hw with retained := hw.retained.mono hle }⟩

/-- A new segment is due. -/
theorem holds_rotate {now : Nat} (h : Lagging crc32 maxSegments segmentSize start limit A fs w)
    (hmax : 1 ≤ maxSegments) (hroom : limit + 1 < 2 ^ 64) (hfuel : 2 ^ 64 < fuel)
    (htotal : ∀ r ∈ total, r.Encodable) (hpre : A <+: total) :
    (do flush; openSegment fuel now : Process FileSystem WalWriter Unit).Holds
      (LosesAtMost crc32 start 128 A total)
      (.returns fun _ t w' => Buffered w' ∧ ∃ f' g', g'.cur = [] ∧
        Writing crc32 maxSegments segmentSize start (limit + 1) A t w' f' g') fs w := by
  obtain ⟨hbuffered, f, g, hw⟩ := h
  refine (hw.holds_flush_losing hbuffered htotal hpre).bind ?_
  rintro - t w' ⟨-, hflushed⟩
  refine (hflushed.holds_openSegment_losing hmax hroom hfuel htotal hpre).imp_returns ?_
  rintro - t w' ⟨f', g', hcur, hnext⟩
  exact ⟨hnext.buffered_of_empty hcur, f', g', hcur, hnext⟩

/-- **A record is written** where it has its place. -/
theorem holds_writeScratch {r : WalRecord} (hbuffered : Buffered w)
    (h : Writing crc32 maxSegments segmentSize start limit A fs w f g)
    (hplace : w.written + (r.frame crc32).length ≤ segmentSize.toNat ∨ g.cur = [])
    (htotal : ∀ r ∈ total, r.Encodable) (hpre : A ++ [r] <+: total) :
    (writeScratch (r.frame crc32)).Holds (LosesAtMost crc32 start 128 A total)
      (.returns fun _ => Lagging crc32 maxSegments segmentSize start limit (A ++ [r])) fs w := by
  have hinode := (h.segments.valid _ (List.mem_append_right _ List.mem_cons_self)).1
  have hcrash : (bufWriteAll (r.frame crc32)).Holds (LosesAtMost crc32 start 128 A total)
      ⟨fun _ _ _ => True, fun _ _ => True, True⟩ fs w := by
    refine WalWriter.holds_bufWriteAll h.file hinode (fun n _ => ?_) fun _ _ => trivial
    have hcut := h.losesAtMost hbuffered htotal hpre n
    rwa [encoding, List.flatMap_singleton] at hcut
  have hwrite : (bufWriteAll (r.frame crc32)).Holds (LogPrefix crc32 start total)
      (.returns fun _ t w' => ∃ f', w' = { w with file := some f' } ∧
        Writing crc32 maxSegments segmentSize start limit (A ++ [r]) t
          { w with file := some f', written := w.written + (r.frame crc32).length } f'
          { g with cur := g.cur ++ [r] }) fs w :=
    h.holds_bufWriteAll (h.fits_append hplace) htotal hpre fun t f' hw => ⟨f', rfl, hw⟩
  have hboth : (bufWriteAll (r.frame crc32)).Holds (LosesAtMost crc32 start 128 A total) _ fs w :=
    Holds.and_returns ⟨hcrash.1, hwrite.2⟩ (holds_bufWriteAll_buffered hbuffered h.file)
  unfold writeScratch
  simp only [holds_get_bind, h.file, Option.isSome_some, if_true]
  refine hboth.bind ?_
  rintro - t w' ⟨⟨f', rfl, hw⟩, hbuffered'⟩
  refine (holds_modify _).mpr ⟨fun f'' hf'' => hbuffered' f'' hf'', f', _, { hw with }⟩

theorem holds_handleRecord {r : WalRecord} {degraded : Bool} {clock : Clock} {now : Nat}
    (h : Lagging crc32 maxSegments segmentSize start limit A fs w)
    (hmax : 1 ≤ maxSegments) (hroom : limit + 1 < 2 ^ 64) (hfuel : 2 ^ 64 < fuel)
    (htotal : ∀ r ∈ total, r.Encodable)
    (hpre : A ++ accepted [.record r degraded clock] <+: total) :
    (handleRecord crc32 fuel r degraded now).Holds (LosesAtMost crc32 start 128 A total)
      (.returns fun _ => Lagging crc32 maxSegments segmentSize start (limit + 1)
        (A ++ accepted [.record r degraded clock])) fs w := by
  unfold handleRecord
  cases degraded with
  | true =>
    have hnone : accepted [.record r true clock] = [] := rfl
    obtain ⟨hbuffered, f, g, hw⟩ := h.mono (Nat.le_succ limit)
    rw [hnone, if_pos rfl, holds_modify, List.append_nil]
    exact ⟨hbuffered, f, g, { hw with }⟩
  | false =>
    have hsome : accepted [.record r false clock] = [r] := rfl
    rw [hsome] at hpre ⊢
    have hinitial : A <+: total := (List.prefix_append A [r]).trans hpre
    obtain ⟨hbuffered, f, g, hw⟩ := h
    simp only [Bool.false_eq_true, if_false, holds_modify_bind, holds_get_bind, encode_eq,
      List.nil_append]
    have hscratch : Writing crc32 maxSegments segmentSize start limit A fs
        { w with scratch := r.frame crc32 } f g := { hw with }
    have hbuffered' : Buffered { w with scratch := r.frame crc32 } := hbuffered
    by_cases hfull : w.written + (r.frame crc32).length > w.segmentSize.toNat
    · rw [if_pos hfull, ← Process.bind_assoc]
      have hlagging : Lagging crc32 maxSegments segmentSize start limit A fs
          { w with scratch := r.frame crc32 } := ⟨hbuffered', f, g, hscratch⟩
      refine (hlagging.holds_rotate hmax hroom hfuel htotal hinitial).bind ?_
      rintro - t w' ⟨hempty, f', g', hcur, hnext⟩
      exact holds_writeScratch hempty hnext (Or.inr hcur) htotal hpre
    · rw [if_neg hfull]
      have hroom' : w.written + (r.frame crc32).length ≤ segmentSize.toNat :=
        hw.size ▸ Nat.not_lt.mp hfull
      have hwrite := holds_writeScratch hbuffered' hscratch (Or.inl hroom') htotal hpre
      exact hwrite.imp_returns fun _ _ _ hlagging => hlagging.mono (Nat.le_succ _)

theorem holds_maybeRotate {check now : Nat}
    (h : Lagging crc32 maxSegments segmentSize start limit A fs w)
    (hmax : 1 ≤ maxSegments) (hroom : limit + 1 < 2 ^ 64) (hfuel : 2 ^ 64 < fuel)
    (htotal : ∀ r ∈ total, r.Encodable) (hpre : A <+: total) :
    (maybeRotate fuel check now).Holds (LosesAtMost crc32 start 128 A total)
      (.returns fun _ => Lagging crc32 maxSegments segmentSize start (limit + 1) A) fs w := by
  unfold maybeRotate
  rw [holds_get_bind]
  split
  · refine (h.holds_rotate hmax hroom hfuel htotal hpre).imp_returns ?_
    rintro - t w' ⟨hbuffered, f', g', -, hnext⟩
    exact ⟨hbuffered, f', g', hnext⟩
  · exact (holds_pure _).mpr (h.mono (Nat.le_succ _))

/-- **One iteration of the loop.** -/
theorem holds_iteration {x : Received}
    (h : Lagging crc32 maxSegments segmentSize start limit A fs w)
    (hmax : 1 ≤ maxSegments) (hroom : limit + 2 < 2 ^ 64) (hfuel : 2 ^ 64 < fuel)
    (htotal : ∀ r ∈ total, r.Encodable) (hpre : A ++ accepted [x] <+: total) :
    (iteration crc32 fuel x).Holds (LosesAtMost crc32 start 128 A total)
      (.returns fun _ => Lagging crc32 maxSegments segmentSize start (limit + 2)
        (A ++ accepted [x])) fs w := by
  cases x with
  | record r degraded clock =>
    refine (h.holds_handleRecord hmax (by omega) hfuel htotal hpre).bind fun _ t w' hnext => ?_
    have hmore : A.length ≤ (A ++ accepted [.record r degraded clock]).length :=
      (List.prefix_append A _).length_le
    exact (hnext.holds_maybeRotate hmax (by omega) hfuel htotal hpre).imp
      (fun t ht => ht.mono hmore) fun _ _ _ hlagging => hlagging
  | timeout =>
    have hnone : accepted [.timeout] = [] := rfl
    rw [hnone, List.append_nil]
    exact (holds_pure _).mpr (h.mono (Nat.le_add_right _ _))

end Lagging

/-! ## Runs -/

variable {rotateInterval now₀ writtenRecords droppedRecords : Nat} {received : List Received}

/-- **The loop** stays within its buffer. -/
theorem holds_loop_lagging (crc32 : List UInt8 → UInt32) (now : Nat)
    (hnew : WalWriter.new start maxSegments segmentSize rotateInterval now₀ writtenRecords
      droppedRecords = some w)
    (hstart : ∀ name ∈ segments start, ∃ no, no < limit ∧ name = segPath no)
    (hlimit : limit + 1 + 2 * received.length < 2 ^ 64) (hfuel : 2 ^ 64 < fuel)
    (hrecords : ∀ r ∈ accepted received, r.Encodable) :
    (loop crc32 fuel now received).Holds (fun _ => True)
      (.returns fun _ => Lagging crc32 maxSegments segmentSize start
        (limit + 1 + 2 * received.length) (accepted received)) start w := by
  obtain ⟨hrotator, hmax, hfile, hsize, hwritten, hdropped⟩ := new_eq hnew
  have hkept := retained_new hstart (by omega) hrotator
  have hidle : ∀ f, w.file = some f → f.buffer = [] := by
    intro f hf
    rw [hfile] at hf
    cases hf
  have hopen : (openSegment fuel now).Holds (fun _ => True)
      (.returns fun _ _ w' => ∀ f, w'.file = some f → f.buffer = []) start w :=
    WalWriter.holds_openSegment now hmax (by omega) hfuel hidle hkept (fun _ _ _ => trivial)
      fun _ _ _ _ _ _ hf => Option.some.inj hf ▸ rfl
  have hrunning : (openSegment fuel now).Holds (LogPrefix crc32 start [])
      (.returns fun _ => Running crc32 maxSegments segmentSize start (limit + 1) []
        writtenRecords droppedRecords) start w :=
    holds_open_first hkept hmax hfile hsize hwritten hdropped (by omega) hfuel nofun
  have hfirst := hopen.and_returns hrunning
  unfold loop
  simp only [holds_get_bind, hfile, Option.isNone_none, if_true]
  refine hfirst.bind ?_
  rintro - t w' ⟨hempty, -, -, f, g, hw⟩
  have hbuffered : Buffered w' := fun f hf => (hempty f hf) ▸ Nat.zero_le _
  refine holds_forM (fun pre => Lagging crc32 maxSegments segmentSize start
    (limit + 1 + 2 * pre.length) (accepted pre)) (fun pre x hpre t w hlagging => ?_)
    ⟨hbuffered, f, g, hw⟩
  have hlength : pre.length + 1 ≤ received.length := by
    have hle := hpre.length_le
    rwa [List.length_append] at hle
  have haccepted : accepted pre ++ accepted [x] <+: accepted received := by
    rw [← accepted_append]
    exact hpre.filterMap _
  rw [accepted_append, List.length_append, List.length_singleton, Nat.mul_add, ← Nat.add_assoc]
  exact (hlagging.holds_iteration hmax (by omega) hfuel hrecords haccepted).imp
    (fun _ _ => trivial) fun _ _ _ hnext => hnext

/-- **A kill loses at most 128 records.**  Wherever a writer is killed, while it handles what it
receives next, between two records, or in the flush at the end: what a reader finds in the
segments is the beginning of the accepted records, and of those accepted before it lacks 128 at
most, whatever their sizes, and however many segments have been begun. -/
theorem kill_loses_at_most (crc32 : List UInt8 → UInt32) (now : Nat)
    (hnew : WalWriter.new start maxSegments segmentSize rotateInterval now₀ writtenRecords
      droppedRecords = some w)
    (hstart : ∀ name ∈ segments start, ∃ no, no < limit ∧ name = segPath no)
    (x : Received) (hlimit : limit + 3 + 2 * received.length < 2 ^ 64) (hfuel : 2 ^ 64 < fuel)
    (hrecords : ∀ r ∈ accepted (received ++ [x]), r.Encodable) {t : FileSystem} {w' : WalWriter}
    (hloop : (loop crc32 fuel now received start w).outcome = .done () t w') :
    LosesAtMost crc32 start 128 (accepted received) (accepted received) t ∧
      (∀ v ∈ (flush t w').trace,
        LosesAtMost crc32 start 128 (accepted received) (accepted received) v) ∧
      ∀ v ∈ (iteration crc32 fuel x t w').trace,
        LosesAtMost crc32 start 128 (accepted received) (accepted (received ++ [x])) v := by
  rw [accepted_append] at hrecords ⊢
  have hreceived : ∀ r ∈ accepted received, r.Encodable :=
    fun r hr => hrecords r (List.mem_append_left _ hr)
  have hmax := (new_eq hnew).2.1
  have hlagging := (holds_loop_lagging crc32 now hnew hstart (by omega) hfuel hreceived).done hloop
  obtain ⟨hbuffered, f, g, hw⟩ := hlagging
  have hflush : flush.Holds (LosesAtMost crc32 start 128 (accepted received) (accepted received))
      _ t w' := hw.holds_flush_losing hbuffered hreceived List.prefix_rfl
  have hiteration : (iteration crc32 fuel x).Holds (LosesAtMost crc32 start 128 (accepted received)
      (accepted received ++ accepted [x])) _ t w' :=
    Lagging.holds_iteration ⟨hbuffered, f, g, hw⟩ hmax (by omega) hfuel hrecords List.prefix_rfl
  refine ⟨?_, hflush.1, hiteration.1⟩
  have hnothing : accepted received ++ [] <+: accepted received := by rw [List.append_nil]
  have hbetween := hw.losesAtMost hbuffered hreceived hnothing 0
  rwa [List.take_zero, FileSystem.append_nil] at hbetween

theorem kill_loses_at_most_sample : ∃ w t w',
    WalWriter.new FileSystem.empty 1 100 60 0 0 0 = some w ∧
      (loop Crc.ieee (2 ^ 64 + 1) 0 [.record sampleRecord false ⟨0, 1, 1⟩] FileSystem.empty
        w).outcome = .done () t w' ∧
      ∀ v ∈ (iteration Crc.ieee (2 ^ 64 + 1) (.record sampleRecord false ⟨4, 5, 5⟩) t w').trace,
        LosesAtMost Crc.ieee FileSystem.empty 128 [sampleRecord] [sampleRecord, sampleRecord]
          v := by
  have hnew : WalWriter.new FileSystem.empty 1 100 60 0 0 0 =
      some ⟨⟨1, 0, 0⟩, 100, 60, none, 0, 60, [], 0, 0⟩ := by decide
  have hstart : ∀ name ∈ segments FileSystem.empty, ∃ no, no < 0 ∧ name = segPath no := by
    have hnone : segments FileSystem.empty = ∅ := by decide
    rw [hnone]
    exact fun name hname => absurd hname (Finset.notMem_empty name)
  have hencodable : ∀ r ∈ [sampleRecord, sampleRecord], r.Encodable := by
    intro r hr
    simp only [List.mem_cons, List.not_mem_nil, or_false, or_self] at hr
    exact hr ▸ sampleRecord_encodable
  have hlimit : 0 + 3 + 2 * [record sampleRecord false ⟨0, 1, 1⟩].length < 2 ^ 64 := by decide
  have hfirst : ∀ r ∈ accepted [record sampleRecord false ⟨0, 1, 1⟩], r.Encodable :=
    fun r hr => hencodable r (List.mem_cons_of_mem _ hr)
  obtain ⟨⟨⟩, t, w', hdone, -⟩ := (holds_loop_lagging Crc.ieee 0 hnew hstart
    (Nat.lt_of_le_of_lt (by decide) hlimit) (Nat.lt_succ_self _) hfirst).returned
  obtain ⟨-, -, hkilled⟩ := kill_loses_at_most Crc.ieee 0 hnew hstart
    (.record sampleRecord false ⟨4, 5, 5⟩) hlimit (Nat.lt_succ_self _) hencodable hdone
  exact ⟨_, t, w', hnew, hdone, hkilled⟩

end WalWriter
end SovProbe
