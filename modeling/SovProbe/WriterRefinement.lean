import SovProbe.WriterSteps

/-! # The writer keeps the log

Along a run the segments opened and the buffer hold the encodings of exactly the
accepted records, in order (`Writing`).  One iteration of the loop adds its record to
the log and opens at most two segments; the rest is induction over what is received.
-/

namespace SovProbe
open Process

namespace Received

/-- The records received while the breaker was not degraded. -/
def accepted (received : List Received) : List WalRecord :=
  received.filterMap fun
    | .record r false _ => some r
    | _ => none

/-- The number of the other records received. -/
def refused (received : List Received) : Nat :=
  received.countP fun
    | .record _ true _ => true
    | _ => false

theorem accepted_append (received more : List Received) :
    accepted (received ++ more) = accepted received ++ accepted more := List.filterMap_append

theorem refused_append (received more : List Received) :
    refused (received ++ more) = refused received + refused more := List.countP_append

end Received

namespace WalWriter
open WalRecord Received
variable (crc32 : List UInt8 → UInt32) (maxSegments : Nat) (segmentSize : UInt64)
  (start : FileSystem)

/-- The encodings of a segment's records are within the limit, except those of a
record on its own. -/
def Fits (rs : List WalRecord) : Prop :=
  (encoding crc32 rs).length ≤ segmentSize.toNat ∨ rs.length = 1

/-- How the log is spread: `logs` over the segments `opened` before, and `cur` in the
one that is open under `name`. -/
structure Spread where
  name : FileName
  opened : List (FileName × Nat)
  logs : List (List WalRecord)
  cur : List WalRecord
  /-- The numbers of all these segments. -/
  allocated : List Nat

/-- The writer's state when `A` has been accepted. -/
structure Writing (limit : Nat) (A : List WalRecord) (fs : FileSystem) (w : WalWriter)
    (f : BufWriter) (g : Spread) : Prop where
  file : w.file = some f
  size : w.segmentSize = segmentSize
  segments : Segments crc32 start fs f g.name g.opened g.logs g.cur
  retained : Retained maxSegments start limit fs w.rotator g.allocated
  written : w.written = (encoding crc32 g.cur).length
  log : g.logs.flatten ++ g.cur = A
  fits : ∀ rs ∈ g.logs ++ [g.cur], Fits crc32 segmentSize rs

/-- The writer's state in the loop, where the records are counted as well. -/
def Running (limit : Nat) (A : List WalRecord) (writtenRecords droppedRecords : Nat)
    (fs : FileSystem) (w : WalWriter) : Prop :=
  w.writtenRecords = writtenRecords ∧ w.droppedRecords = droppedRecords ∧
    ∃ f g, Writing crc32 maxSegments segmentSize start limit A fs w f g

variable {crc32 maxSegments segmentSize start} {limit : Nat} {A total : List WalRecord}
  {fs : FileSystem} {w : WalWriter} {f : BufWriter} {g : Spread} {fuel : Nat}
  {post : Post FileSystem WalWriter Unit}

namespace Writing

/-- Every state the file can be cut at is a prefix of the log. -/
theorem logPrefix (h : Writing crc32 maxSegments segmentSize start limit A fs w f g)
    (htotal : ∀ r ∈ total, r.Encodable) (hpre : A <+: total) (n : Nat) :
    LogPrefix crc32 start total (fs.append f.inode (f.buffer.take n)) :=
  (h.segments.writeOut n).logPrefix htotal (h.log.symm ▸ hpre)

/-- A flush empties the buffer and changes nothing else. -/
theorem holds_flush (h : Writing crc32 maxSegments segmentSize start limit A fs w f g)
    (htotal : ∀ r ∈ total, r.Encodable) (hpre : A <+: total)
    (hdone : ∀ t, Writing crc32 maxSegments segmentSize start limit A t
      { w with file := some ⟨f.inode, []⟩ } ⟨f.inode, []⟩ g →
      post.done () t { w with file := some ⟨f.inode, []⟩ }) :
    flush.Holds (LogPrefix crc32 start total) post fs w := by
  rw [WalWriter.holds_flush h.file]
  refine ⟨fun n _ => h.logPrefix htotal hpre n, hdone _ ?_⟩
  have hsegments := h.segments.writeOut f.buffer.length
  rw [List.take_length, List.drop_length] at hsegments
  exact { h with
    file := rfl
    segments := hsegments
    retained := h.retained.congr (segments_setContent _ _ _) rfl }

/-- A flushed writer opens the next segment. -/
theorem holds_openSegment {i now : Nat}
    (h : Writing crc32 maxSegments segmentSize start limit A fs w ⟨i, []⟩ g)
    (hmax : 1 ≤ maxSegments) (hroom : limit + 1 < 2 ^ 64) (hfuel : 2 ^ 64 < fuel)
    (htotal : ∀ r ∈ total, r.Encodable) (hpre : A <+: total)
    (hdone : ∀ t w' f' g', Writing crc32 maxSegments segmentSize start (limit + 1) A t w' f' g' →
      g'.cur = [] → w'.writtenRecords = w.writtenRecords → w'.droppedRecords = w.droppedRecords →
      post.done () t w') :
    (openSegment fuel now).Holds (LogPrefix crc32 start total) post fs w := by
  have hlog : (g.logs ++ [g.cur]).flatten ++ [] = A := by
    rw [List.flatten_append, List.flatten_singleton, List.append_nil, h.log]
  have hidle : ∀ f, w.file = some f → f.buffer = [] := by
    intro f hf
    rw [h.file] at hf
    exact Option.some.inj hf ▸ rfl
  refine WalWriter.holds_openSegment now hmax hroom hfuel hidle h.retained ?_ ?_
  · intro k t ht
    exact (h.segments.closed.next h.retained ht).logPrefix htotal (hlog.symm ▸ hpre)
  · intro k t r' ht hkept
    refine hdone t _ ⟨fs.inodes.length, []⟩
      ⟨w.rotator.wanted, g.opened ++ [(g.name, i)], g.logs ++ [g.cur], [],
        g.allocated ++ [w.rotator.segNo.toNat]⟩ ?_ rfl rfl rfl
    exact {
      file := rfl
      size := h.size
      segments := h.segments.closed.next h.retained ht
      retained := hkept
      written := rfl
      log := hlog
      fits := by
        intro rs hrs
        rcases List.mem_append.mp hrs with hold | hnew
        · exact h.fits rs hold
        · rw [List.mem_singleton.mp hnew]
          exact Or.inl (Nat.zero_le _) }

/-- A record goes through the buffer. -/
theorem holds_bufWriteAll {r : WalRecord}
    (h : Writing crc32 maxSegments segmentSize start limit A fs w f g)
    (hfits : Fits crc32 segmentSize (g.cur ++ [r]))
    (htotal : ∀ r ∈ total, r.Encodable) (hpre : A ++ [r] <+: total)
    (hdone : ∀ t f', Writing crc32 maxSegments segmentSize start limit (A ++ [r]) t
      { w with file := some f', written := w.written + (r.frame crc32).length } f'
      { g with cur := g.cur ++ [r] } → post.done () t { w with file := some f' }) :
    (bufWriteAll (r.frame crc32)).Holds (LogPrefix crc32 start total) post fs w := by
  have hadd : encoding crc32 (g.cur ++ [r]) = encoding crc32 g.cur ++ r.frame crc32 := by
    rw [encoding_append, encoding, encoding, List.flatMap_singleton]
  have hlog : g.logs.flatten ++ (g.cur ++ [r]) = A ++ [r] := by
    rw [← List.append_assoc, h.log]
  have hinode := (h.segments.valid _ (List.mem_append_right _ List.mem_cons_self)).1
  refine WalWriter.holds_bufWriteAll h.file hinode (fun n _ => ?_) fun n _ => hdone _ _ ?_
  · exact (h.segments.write hadd n).logPrefix htotal (hlog.symm ▸ hpre)
  · exact {
      file := rfl
      size := h.size
      segments := h.segments.write hadd n
      retained := h.retained.congr (segments_setContent _ _ _) rfl
      written := by rw [hadd, List.length_append, h.written]
      log := hlog
      fits := by
        intro rs hrs
        rcases List.mem_append.mp hrs with hold | hnew
        · exact h.fits rs (List.mem_append_left _ hold)
        · exact List.mem_singleton.mp hnew ▸ hfits }

/-- The record's segment has room for it, or is empty. -/
theorem fits_append {r : WalRecord}
    (h : Writing crc32 maxSegments segmentSize start limit A fs w f g)
    (hroom : w.written + (r.frame crc32).length ≤ segmentSize.toNat ∨ g.cur = []) :
    Fits crc32 segmentSize (g.cur ++ [r]) := by
  rcases hroom with hle | hempty
  · left
    rwa [encoding_append, List.length_append, encoding, encoding, List.flatMap_singleton,
      ← encoding, ← h.written]
  · right
    rw [hempty]
    rfl

/-- **What a flushed writer leaves**: the segments decode to the log. -/
theorem decoded {i : Nat} (h : Writing crc32 maxSegments segmentSize start limit A fs w ⟨i, []⟩ g)
    (hA : ∀ r ∈ A, r.Encodable) :
    ∃ opened logs, fs.created = start.created ++ opened ∧ Ascending opened ∧
      List.Forall₂ (fun o log => decodeStream crc32 (fs.content o.2) = .ok (log, 0) ∧
        ((fs.content o.2).length ≤ segmentSize.toNat ∨ log.length = 1)) opened logs ∧
      logs.flatten = A.map normalised := by
  have hclosed := h.segments.closed
  have hlog : (g.logs ++ [g.cur]).flatten = A := by
    rw [List.flatten_append, List.flatten_singleton, h.log]
  refine ⟨g.opened ++ [(g.name, i)], (g.logs ++ [g.cur]).map (List.map normalised),
    hclosed.created, hclosed.ascending, forall₂_normalised hclosed.sealed fun o rs hrs ho => ?_, ?_⟩
  · refine ⟨decodeStream_sealed ho fun r hr => hA r ?_, ?_⟩
    · exact hlog ▸ List.mem_flatten.mpr ⟨rs, hrs, hr⟩
    · rw [ho, List.length_map]
      exact h.fits rs hrs
  · rw [← List.map_flatten, hlog]

end Writing

namespace Running
variable {writtenRecords droppedRecords : Nat}

theorem mono {limit' : Nat}
    (h : Running crc32 maxSegments segmentSize start limit A writtenRecords droppedRecords fs w)
    (hle : limit ≤ limit') :
    Running crc32 maxSegments segmentSize start limit' A writtenRecords droppedRecords fs w := by
  obtain ⟨hwritten, hdropped, f, g, hw⟩ := h
  exact ⟨hwritten, hdropped, f, g, { hw with retained := hw.retained.mono hle }⟩

/-- Writing a record that has its place, and counting it. -/
theorem holds_writeScratch {r : WalRecord}
    (h : Writing crc32 maxSegments segmentSize start limit A fs w f g)
    (hplace : w.written + (r.frame crc32).length ≤ segmentSize.toNat ∨ g.cur = [])
    (htotal : ∀ r ∈ total, r.Encodable) (hpre : A ++ [r] <+: total) :
    (writeScratch (r.frame crc32)).Holds (LogPrefix crc32 start total)
      (.returns fun _ => Running crc32 maxSegments segmentSize start limit (A ++ [r])
        (w.writtenRecords + 1) w.droppedRecords) fs w := by
  unfold writeScratch
  simp only [holds_bind, holds_get, h.file, Option.isSome_some, if_true]
  refine h.holds_bufWriteAll (h.fits_append hplace) htotal hpre fun t f' hw => ?_
  exact (holds_modify _).mpr ⟨rfl, rfl, f', _, { hw with }⟩

/-- `handle_record` adds the record to the log if the breaker is not degraded. -/
theorem holds_handleRecord {r : WalRecord} {degraded : Bool} {clock : Clock} {now : Nat}
    (h : Running crc32 maxSegments segmentSize start limit A writtenRecords droppedRecords fs w)
    (hmax : 1 ≤ maxSegments) (hroom : limit + 1 < 2 ^ 64) (hfuel : 2 ^ 64 < fuel)
    (htotal : ∀ r ∈ total, r.Encodable)
    (hpre : A ++ accepted [.record r degraded clock] <+: total) :
    (handleRecord crc32 fuel r degraded now).Holds (LogPrefix crc32 start total)
      (.returns fun _ => Running crc32 maxSegments segmentSize start (limit + 1)
        (A ++ accepted [.record r degraded clock])
        (writtenRecords + (accepted [.record r degraded clock]).length)
        (droppedRecords + refused [.record r degraded clock])) fs w := by
  obtain ⟨rfl, rfl, f, g, hw⟩ := h
  unfold handleRecord
  cases degraded with
  | true =>
    have hnone : accepted [.record r true clock] = [] := rfl
    have hone : refused [.record r true clock] = 1 := rfl
    rw [hnone, hone, if_pos rfl, holds_modify, List.append_nil]
    exact ⟨rfl, rfl, f, g, { hw with retained := hw.retained.mono (Nat.le_succ _) }⟩
  | false =>
    have hsome : accepted [.record r false clock] = [r] := rfl
    have hzero : refused [.record r false clock] = 0 := rfl
    rw [hsome] at hpre
    rw [hsome, hzero]
    have hinitial : A <+: total := (List.prefix_append A [r]).trans hpre
    -- the record is encoded into an empty buffer, so what is written is its frame
    simp only [Bool.false_eq_true, if_false, holds_bind, holds_modify, holds_get, encode_eq,
      List.nil_append]
    have hscratch : Writing crc32 maxSegments segmentSize start limit A fs
        { w with scratch := r.frame crc32 } f g := { hw with }
    by_cases hfull : w.written + (r.frame crc32).length > w.segmentSize.toNat
    · rw [if_pos hfull]
      simp only [holds_bind]
      refine hscratch.holds_flush htotal hinitial fun t hflushed => ?_
      refine hflushed.holds_openSegment hmax hroom hfuel htotal hinitial fun t w' f' g' hnext hcur
        hwritten hdropped => ?_
      have hwrite := holds_writeScratch hnext (Or.inr hcur) htotal hpre
      rw [hwritten, hdropped] at hwrite
      exact hwrite
    · rw [if_neg hfull]
      have hroom' : w.written + (r.frame crc32).length ≤ segmentSize.toNat :=
        hw.size ▸ Nat.not_lt.mp hfull
      have hwrite := holds_writeScratch hscratch (Or.inl hroom') htotal hpre
      exact hwrite.imp_returns fun _ _ _ hrunning => hrunning.mono (Nat.le_succ _)

/-- `maybe_rotate` leaves the log as it is. -/
theorem holds_maybeRotate {check now : Nat}
    (h : Running crc32 maxSegments segmentSize start limit A writtenRecords droppedRecords fs w)
    (hmax : 1 ≤ maxSegments) (hroom : limit + 1 < 2 ^ 64) (hfuel : 2 ^ 64 < fuel)
    (htotal : ∀ r ∈ total, r.Encodable) (hpre : A <+: total) :
    (maybeRotate fuel check now).Holds (LogPrefix crc32 start total)
      (.returns fun _ => Running crc32 maxSegments segmentSize start (limit + 1) A writtenRecords
        droppedRecords) fs w := by
  unfold maybeRotate
  simp only [holds_bind, holds_get]
  by_cases hdue : check ≥ w.nextRotate ∧ w.written > 0
  · obtain ⟨hwritten, hdropped, f, g, hw⟩ := h
    rw [if_pos hdue, holds_bind]
    refine hw.holds_flush htotal hpre fun t hflushed => ?_
    refine hflushed.holds_openSegment hmax hroom hfuel htotal hpre fun t w' f' g' hnext _
      hwritten' hdropped' => ?_
    exact ⟨hwritten'.trans hwritten, hdropped'.trans hdropped, f', g', hnext⟩
  · rw [if_neg hdue, holds_pure]
    exact h.mono (Nat.le_succ _)

/-- **One iteration of the loop.** -/
theorem holds_iteration {x : Received}
    (h : Running crc32 maxSegments segmentSize start limit A writtenRecords droppedRecords fs w)
    (hmax : 1 ≤ maxSegments) (hroom : limit + 2 < 2 ^ 64) (hfuel : 2 ^ 64 < fuel)
    (htotal : ∀ r ∈ total, r.Encodable) (hpre : A ++ accepted [x] <+: total) :
    (iteration crc32 fuel x).Holds (LogPrefix crc32 start total)
      (.returns fun _ => Running crc32 maxSegments segmentSize start (limit + 2) (A ++ accepted [x])
        (writtenRecords + (accepted [x]).length) (droppedRecords + refused [x])) fs w := by
  cases x with
  | record r degraded clock =>
    refine (h.holds_handleRecord hmax (by omega) hfuel htotal hpre).bind fun _ t w' hnext => ?_
    exact hnext.holds_maybeRotate hmax (by omega) hfuel htotal hpre
  | timeout =>
    have hnone : accepted [.timeout] = [] := rfl
    have hzero : refused [.timeout] = 0 := rfl
    rw [hnone, hzero, iteration, holds_pure, List.append_nil]
    exact h.mono (Nat.le_add_right _ _)

end Running

/-- A writer just made, on the directory it was made for. -/
theorem new_eq {rotateInterval now writtenRecords droppedRecords : Nat}
    (h : WalWriter.new start maxSegments segmentSize rotateInterval now writtenRecords
      droppedRecords = some w) :
    Rotator.new maxSegments start = some w.rotator ∧ 1 ≤ maxSegments ∧
      w.file = none ∧ w.segmentSize = segmentSize ∧ w.writtenRecords = writtenRecords ∧
      w.droppedRecords = droppedRecords := by
  obtain ⟨r, hr, rfl⟩ := Option.map_eq_some_iff.mp h
  refine ⟨hr, ?_, rfl, rfl, rfl, rfl⟩
  unfold Rotator.new at hr
  by_contra hnone
  rw [if_neg hnone] at hr
  cases hr

/-- The first segment. -/
theorem holds_open_first {now writtenRecords droppedRecords : Nat}
    (hkept : Retained maxSegments start limit start w.rotator [])
    (hmax : 1 ≤ maxSegments) (hfile : w.file = none) (hsize : w.segmentSize = segmentSize)
    (hwritten : w.writtenRecords = writtenRecords) (hdropped : w.droppedRecords = droppedRecords)
    (hroom : limit + 1 < 2 ^ 64) (hfuel : 2 ^ 64 < fuel) (htotal : ∀ r ∈ total, r.Encodable) :
    (openSegment fuel now).Holds (LogPrefix crc32 start total)
      (.returns fun _ => Running crc32 maxSegments segmentSize start (limit + 1) [] writtenRecords
        droppedRecords) start w := by
  have hnext : ∀ k t, Swept (w.rotator.made start) w.rotator.advanced k t →
      Segments crc32 start t ⟨start.inodes.length, []⟩ w.rotator.wanted [] [] [] :=
    fun k t ht => (Closed.first crc32 start).next hkept ht
  refine holds_openSegment now hmax hroom hfuel (fun f hf => ?_) hkept ?_ ?_
  · rw [hfile] at hf
    cases hf
  · exact fun k t ht => (hnext k t ht).logPrefix htotal List.nil_prefix
  · intro k t r' ht hkept'
    refine ⟨hwritten, hdropped, ⟨start.inodes.length, []⟩,
      ⟨w.rotator.wanted, [], [], [], [] ++ [w.rotator.segNo.toNat]⟩, ?_⟩
    exact {
      file := rfl
      size := hsize
      segments := hnext k t ht
      retained := hkept'
      written := rfl
      log := rfl
      fits := fun rs hrs => List.mem_singleton.mp hrs ▸ Or.inl (Nat.zero_le _) }

variable (crc32) in
/-- **The invariant of the loop.** -/
theorem holds_loop {rotateInterval now₀ writtenRecords droppedRecords : Nat}
    {received : List Received} (now : Nat)
    (hnew : WalWriter.new start maxSegments segmentSize rotateInterval now₀ writtenRecords
      droppedRecords = some w)
    (hstart : ∀ name ∈ segments start, ∃ no, no < limit ∧ name = segPath no)
    (hlimit : limit + 1 + 2 * received.length < 2 ^ 64) (hfuel : 2 ^ 64 < fuel)
    (hrecords : ∀ r ∈ accepted received, r.Encodable) :
    (loop crc32 fuel now received).Holds (LogPrefix crc32 start (accepted received))
      (.returns fun _ => Running crc32 maxSegments segmentSize start
        (limit + 1 + 2 * received.length) (accepted received)
        (writtenRecords + (accepted received).length) (droppedRecords + refused received))
      start w := by
  obtain ⟨hrotator, hmax, hfile, hsize, hwritten, hdropped⟩ := new_eq hnew
  have hkept := retained_new hstart (by omega) hrotator
  unfold loop
  simp only [holds_get_bind, hfile, Option.isNone_none, if_true]
  refine (holds_open_first hkept hmax hfile hsize hwritten hdropped (by omega) hfuel hrecords).bind
    fun _ t w' hfirst => ?_
  refine holds_forM (fun pre => Running crc32 maxSegments segmentSize start
    (limit + 1 + 2 * pre.length) (accepted pre) (writtenRecords + (accepted pre).length)
    (droppedRecords + refused pre)) (fun pre x hpre t w hw => ?_) hfirst
  have hlength : pre.length + 1 ≤ received.length := by
    have hle := hpre.length_le
    rwa [List.length_append] at hle
  have haccepted : accepted pre ++ accepted [x] <+: accepted received := by
    rw [← accepted_append]
    exact hpre.filterMap _
  rw [accepted_append, refused_append, List.length_append, List.length_append, ← Nat.add_assoc,
    ← Nat.add_assoc]
  exact hw.holds_iteration hmax (by omega) hfuel hrecords haccepted

variable (crc32) in
/-- **The segments are the log of the accepted records.**  A run returns.  What it
has made then are segments with ascending numbers; they decode, without residual, to
the accepted records in order, and each is within `segment_size` or holds one record.
All other records have been counted as dropped.  A cut anywhere on the way, and at
the end of any iteration whatever part of the buffer reached the file, leaves a
prefix of the records accepted until then. -/
theorem run_log {rotateInterval now₀ writtenRecords droppedRecords : Nat}
    {received : List Received} (now : Nat)
    (hnew : WalWriter.new start maxSegments segmentSize rotateInterval now₀ writtenRecords
      droppedRecords = some w)
    (hstart : ∀ name ∈ segments start, ∃ no, no < limit ∧ name = segPath no)
    (hlimit : limit + 1 + 2 * received.length < 2 ^ 64) (hfuel : 2 ^ 64 < fuel)
    (hrecords : ∀ r ∈ accepted received, r.Encodable) :
    (∃ t w', (run crc32 fuel now received start w).outcome = .done () t w' ∧
      (∃ opened logs, t.created = start.created ++ opened ∧ Ascending opened ∧
        List.Forall₂ (fun o log => decodeStream crc32 (t.content o.2) = .ok (log, 0) ∧
          ((t.content o.2).length ≤ segmentSize.toNat ∨ log.length = 1)) opened logs ∧
        logs.flatten = (accepted received).map normalised) ∧
      w'.writtenRecords = writtenRecords + (accepted received).length ∧
      w'.droppedRecords = droppedRecords + refused received) ∧
    (∀ t ∈ (run crc32 fuel now received start w).trace,
      LogPrefix crc32 start (accepted received) t) ∧
    ∃ t w' f, (loop crc32 fuel now received start w).outcome = .done () t w' ∧
      w'.file = some f ∧
      ∀ n, LogPrefix crc32 start (accepted received) (t.append f.inode (f.buffer.take n)) := by
  have hloop := holds_loop crc32 now hnew hstart hlimit hfuel hrecords
  have hrun : (run crc32 fuel now received).Holds (LogPrefix crc32 start (accepted received))
      (.returns fun _ t w' => (∃ f g, f.buffer = [] ∧ Writing crc32 maxSegments segmentSize start
          (limit + 1 + 2 * received.length) (accepted received) t w' f g) ∧
        w'.writtenRecords = writtenRecords + (accepted received).length ∧
        w'.droppedRecords = droppedRecords + refused received) start w := by
    refine hloop.bind fun _ t w' ⟨hwritten, hdropped, f, g, hw⟩ => ?_
    exact hw.holds_flush hrecords List.prefix_rfl fun t hflushed =>
      ⟨⟨_, g, rfl, hflushed⟩, hwritten, hdropped⟩
  refine ⟨?_, hrun.1, ?_⟩
  · obtain ⟨⟨⟩, t, w', hdone, ⟨⟨i, buffer⟩, g, rfl, hw⟩, hcounts⟩ := hrun.returned
    exact ⟨t, w', hdone, hw.decoded hrecords, hcounts⟩
  · obtain ⟨⟨⟩, t, w', hdone, -, -, f, g, hw⟩ := hloop.returned
    exact ⟨t, w', f, hdone, hw.file, fun n => hw.logPrefix hrecords List.prefix_rfl n⟩

/-- Two records that do not fit into one segment, with one in between that is dropped. -/
def sampleReceived : List Received :=
  [.record sampleRecord false ⟨0, 1, 1⟩, .record sampleRecord true ⟨2, 3, 3⟩, .timeout,
    .record sampleRecord false ⟨4, 5, 5⟩]

theorem run_log_sample : ∃ w t w',
    WalWriter.new FileSystem.empty 1 100 60 0 0 0 = some w ∧
      (run Crc.ieee (2 ^ 64 + 1) 0 sampleReceived FileSystem.empty w).outcome = .done () t w' ∧
      w'.writtenRecords = 2 ∧ w'.droppedRecords = 1 := by
  have hnew : WalWriter.new FileSystem.empty 1 100 60 0 0 0 =
      some ⟨⟨1, 0, 0⟩, 100, 60, none, 0, 60, [], 0, 0⟩ := by decide
  have hstart : ∀ name ∈ segments FileSystem.empty, ∃ no, no < 0 ∧ name = segPath no := by
    have hnone : segments FileSystem.empty = ∅ := by decide
    rw [hnone]
    exact fun name hname => absurd hname (Finset.notMem_empty name)
  have haccepted : accepted sampleReceived = [sampleRecord, sampleRecord] := by decide
  have hrecords : ∀ r ∈ accepted sampleReceived, r.Encodable := by
    rw [haccepted]
    intro r hr
    simp only [List.mem_cons, List.not_mem_nil, or_false, or_self] at hr
    exact hr ▸ sampleRecord_encodable
  obtain ⟨⟨t, w', hdone, -, hwritten, hdropped⟩, -⟩ :=
    run_log Crc.ieee 0 hnew hstart (by decide) (Nat.lt_succ_self _) hrecords
  rw [haccepted] at hwritten
  exact ⟨_, t, w', hnew, hdone, hwritten, hdropped⟩

end WalWriter
end SovProbe
