import SovProbe.CaptureOrder
import SovProbe.ProbeRefinement
import SovProbe.Synthesize

/-! # The log of the probe

What the three threads leave on the disk together, at any moment of any interleaving: a
beginning of the records written, which are those of frames in the order in which these
were taken from the ring buffer.
-/

namespace SovProbe
open Process Pipeline Received WalRecord

variable {fromEthernet : FromEthernet} {crc32 : List UInt8 → UInt32} {cfg : Config} {fuel : Nat}
  {start : FileSystem} {w : WalWriter}

/-- What the slicer makes fits the format. -/
theorem encodable_of_process (hvalid : cfg.validate = .ok ()) {frame : List UInt8}
    {tsNs : UInt64} {degraded : Bool} {r : WalRecord}
    (h : (Slicer.mk cfg.sliceBytes.toNat).process fromEthernet frame tsNs degraded = some r) :
    r.Encodable := by
  obtain ⟨packet, hdr, transport, -, -, -, hsliced⟩ := slicedFrom_of_process h
  obtain ⟨-, ⟨-, hslice⟩, -⟩ := Config.validate_eq_ok.mp hvalid
  have hle : cfg.sliceBytes.toNat ≤ 65536 := UInt64.le_iff_toNat_le.mp hslice
  refine ⟨?_, ?_⟩
  · rw [hsliced.proto, UInt8.toNat_toUInt16]
    exact hdr.protocol.toNat_lt
  · rw [hsliced.payload, List.length_take]
    exact Nat.lt_of_le_of_lt (Nat.min_le_left _ _) (Nat.lt_of_le_of_lt hle (by decide))

namespace Probe
variable {s u : Probe} {as : List Action} {turn : WriterTurn} {clock : Clock}
  {threads : Traced (List UInt8) WalRecord}

theorem step_capture_eq_some {a : CaptureAction (List UInt8)} :
    step fromEthernet crc32 cfg fuel s (.capture a) = some u ↔
      ∃ threads, s.threadsStep fromEthernet cfg (.capture a) = some threads ∧
        { s with threads } = u := by
  simp only [step, Option.bind_eq_bind, Option.bind_eq_some_iff, Option.pure_def,
    Option.some.injEq]

theorem step_sampler_eq_some {resident : Option UInt64} {load : Option UInt8} :
    step fromEthernet crc32 cfg fuel s (.sampler resident load) = some u ↔
      ∃ threads, s.threadsStep fromEthernet cfg (.sampler resident load) = some threads ∧
        { s with threads } = u := by
  simp only [step, Option.bind_eq_bind, Option.bind_eq_some_iff, Option.pure_def,
    Option.some.injEq]

theorem step_writer_eq_some :
    step fromEthernet crc32 cfg fuel s (.writer turn clock) = some u ↔
      turn.panics cfg = false ∧
        s.threadsStep fromEthernet cfg (.writer turn.action) = some u.threads ∧
        (turn.program crc32 fuel s.threads.state clock s.disk s.writer).outcome =
          .done () u.disk u.writer := by
  simp only [step]
  cases hpanics : turn.panics cfg with
  | true => simp
  | false =>
    rw [if_neg Bool.false_ne_true, Option.bind_eq_bind, Option.bind_eq_some_iff]
    constructor
    · rintro ⟨threads, hthreads, hrest⟩
      rw [Option.bind_eq_bind, Option.bind_eq_some_iff] at hrest
      obtain ⟨⟨disk, writer⟩, hstate, hu⟩ := hrest
      obtain ⟨⟨⟩, hdone⟩ := Outcome.state?_eq_some.mp hstate
      obtain rfl := Option.some.inj hu
      exact ⟨rfl, hthreads, hdone⟩
    · rintro ⟨-, hthreads, hdone⟩
      have hstate : (turn.program crc32 fuel s.threads.state clock s.disk s.writer).outcome.state? =
          some (u.disk, u.writer) := Outcome.state?_eq_some.mpr ⟨(), hdone⟩
      exact ⟨u.threads, hthreads, by rw [hstate]; rfl⟩

/-- The state of the writer thread is one of `run`, on records that the log says it has
written or discarded. -/
def Refines (crc32 : List UInt8 → UInt32) (fuel : Nat) (start : FileSystem) (w : WalWriter)
    (s : Probe) : Prop :=
  ∃ now received, Follows crc32 fuel start w now received s.threads.state.writer s.disk s.writer ∧
    accepted received = Event.written s.threads.log ∧
    refused received = (Event.discarded s.threads.log).length ∧
    received.length = (Event.handled s.threads.log).length

/-- A turn the threads allow. -/
theorem Refines.advances (hfile : w.file = none) (h : Refines crc32 fuel start w s)
    (hpanics : turn.panics cfg = false)
    (hthreads : s.threadsStep fromEthernet cfg (.writer turn.action) = some threads)
    (clock : Clock) :
    ∃ now received, Advances crc32 fuel start w (turn.program crc32 fuel s.threads.state clock)
        threads.state.writer now received s.disk s.writer ∧
      accepted received = Event.written threads.log ∧
      refused received = (Event.discarded threads.log).length ∧
      received.length = (Event.handled threads.log).length := by
  obtain ⟨now, received, hfollows, haccepted, hrefused, hlength⟩ := h
  obtain ⟨hstep, -, hlog⟩ := tracedStep_eq_some.mp hthreads
  obtain ⟨now', received', hadvances, haccepted', hrefused', hlength'⟩ :=
    hfollows.turn hfile hstep hpanics clock
  refine ⟨now', received', hadvances, ?_, ?_, ?_⟩
  · rw [haccepted', haccepted, hlog, Event.written_append]
    rfl
  · rw [hrefused', hrefused, hlog, Event.discarded_append, List.length_append]
    rfl
  · rw [hlength', hlength, hlog, Event.handled_append, List.length_append]
    rfl

/-- A step of the other threads. -/
theorem Refines.of_others {a : Pipeline.Action (List UInt8)}
    (h : Refines crc32 fuel start w s)
    (hthreads : s.threadsStep fromEthernet cfg a = some threads)
    (hsilent : Event.written (eventsOf (slice fromEthernet cfg) s.threads a) = [] ∧
      Event.discarded (eventsOf (slice fromEthernet cfg) s.threads a) = [] ∧
      Event.handled (eventsOf (slice fromEthernet cfg) s.threads a) = [])
    (hwriter : threads.state.writer = s.threads.state.writer) :
    Refines crc32 fuel start w { s with threads } := by
  obtain ⟨now, received, hfollows, haccepted, hrefused, hlength⟩ := h
  obtain ⟨hwritten, hdiscarded, hhandled⟩ := hsilent
  obtain ⟨-, -, hlog⟩ := tracedStep_eq_some.mp hthreads
  refine ⟨now, received, ?_, ?_, ?_, ?_⟩
  · rw [hwriter]
    exact hfollows
  · rw [hlog, Event.written_append, hwritten, List.append_nil, haccepted]
  · rw [hlog, Event.discarded_append, hdiscarded, List.append_nil, hrefused]
  · rw [hlog, Event.handled_append, hhandled, List.append_nil, hlength]

/-- The capture thread does nothing to the records it has handed over. -/
theorem captureEvents_silent (slice : List UInt8 → Option (UInt64 → Bool → WalRecord))
    (s : State (List UInt8) WalRecord) (takenDegraded : Bool) (a : CaptureAction (List UInt8)) :
    Event.written (captureEvents slice s takenDegraded a) = [] ∧
      Event.discarded (captureEvents slice s takenDegraded a) = [] ∧
      Event.handled (captureEvents slice s takenDegraded a) = [] := by
  cases a with
  | next frame => exact ⟨rfl, rfl, rfl⟩
  | pollFails => exact ⟨rfl, rfl, rfl⟩
  | isDegraded =>
    cases hc : s.capture <;> cases hd : s.degraded <;>
      simp [captureEvents, hc, hd, Event.written, Event.discarded, Event.handled]
  | process tsNs =>
    cases hc : s.capture <;>
      simp only [captureEvents, hc, Event.written, Event.discarded, Event.handled,
        List.filterMap_nil, and_self]
    split <;> exact ⟨rfl, rfl, rfl⟩
  | send =>
    cases hc : s.capture <;>
      simp only [captureEvents, hc, Event.written, Event.discarded, Event.handled,
        List.filterMap_nil, and_self]
    split <;> exact ⟨rfl, rfl, rfl⟩

/-- **One step** of any of the threads. -/
theorem Refines.step (hfile : w.file = none) (h : Refines crc32 fuel start w s) {a : Action}
    (hstep : step fromEthernet crc32 cfg fuel s a = some u) : Refines crc32 fuel start w u := by
  cases a with
  | capture a =>
    obtain ⟨threads, hthreads, rfl⟩ := step_capture_eq_some.mp hstep
    obtain ⟨hstate, -, -⟩ := tracedStep_eq_some.mp hthreads
    exact h.of_others hthreads (captureEvents_silent _ _ _ a) (captureStep_frame hstate).1
  | sampler resident load =>
    obtain ⟨threads, hthreads, rfl⟩ := step_sampler_eq_some.mp hstep
    obtain ⟨hstate, -, -⟩ := tracedStep_eq_some.mp hthreads
    exact h.of_others hthreads ⟨rfl, rfl, rfl⟩ (by rw [← Option.some.inj hstate])
  | writer turn clock =>
    obtain ⟨hpanics, hthreads, hdone⟩ := step_writer_eq_some.mp hstep
    obtain ⟨now, received, hadvances, hlog⟩ := h.advances hfile hpanics hthreads clock
    exact ⟨now, received, hadvances.leads _ _ hdone, hlog⟩

/-- **However the threads interleave**, the writer thread goes through `run`. -/
theorem refines_of_run (hfile : w.file = none)
    (hrun : run fromEthernet crc32 cfg fuel start w as = some s) :
    Refines crc32 fuel start w s := by
  have hinit : Refines crc32 fuel start w (begin start w) :=
    ⟨0, [], ⟨rfl, rfl, rfl⟩, rfl, rfl, rfl⟩
  exact Transition.run_invariant (fun _ _ _ hs hstep => hs.step hfile hstep) hinit hrun

/-- The threads of a run of the probe have made a run of their own. -/
theorem traced_of_run (hrun : run fromEthernet crc32 cfg fuel start w as = some s) :
    tracedRun cfg (slice fromEthernet cfg) (as.map Action.threads) = some s.threads := by
  induction as using List.reverseRec generalizing s with
  | nil => exact congrArg (fun s => some s.threads) (Option.some.inj hrun)
  | append_singleton as a ih =>
    obtain ⟨u, hu, hstep⟩ := (Transition.run_concat_eq_some _).mp hrun
    have hthreads : u.threadsStep fromEthernet cfg a.threads = some s.threads := by
      cases a with
      | capture a =>
        obtain ⟨threads, hthreads, rfl⟩ := step_capture_eq_some.mp hstep
        exact hthreads
      | sampler resident load =>
        obtain ⟨threads, hthreads, rfl⟩ := step_sampler_eq_some.mp hstep
        exact hthreads
      | writer turn clock => exact (step_writer_eq_some.mp hstep).2.1
    rw [List.map_append]
    exact (Transition.run_concat_eq_some _).mpr ⟨u.threads, ih hu, hthreads⟩

/-- What the capture thread sends is what the slicer makes. -/
theorem madeFrom_slice {record : WalRecord} {frame : List UInt8}
    (h : MadeFrom (slice fromEthernet cfg) record frame) :
    ∃ tsNs degraded, (Slicer.mk cfg.sliceBytes.toNat).process fromEthernet frame tsNs degraded =
      some record := by
  obtain ⟨make, tsNs, degraded, hmake, rfl⟩ := h
  refine ⟨tsNs, degraded, ?_⟩
  rw [Slicer.slice_eq]
  exact congrArg (Option.map fun record => record tsNs degraded) hmake

/-! ## What is known of the log -/

/-- The log of the threads is the effect of their steps, and in order. -/
structure Sound (fromEthernet : FromEthernet) (cfg : Config)
    (threads : Traced (List UInt8) WalRecord) : Prop where
  logged : Logged threads
  order : List.SublistForall₂ (MadeFrom (slice fromEthernet cfg))
    (Event.written threads.log ++
      (inHand threads.state.writer ++ threads.state.queue ++ offered threads.state.capture))
    (Event.taken threads.log)

theorem sound_of_run {acts : List (Pipeline.Action (List UInt8))}
    (h : tracedRun cfg (slice fromEthernet cfg) acts = some threads) :
    Sound fromEthernet cfg threads :=
  ⟨logged_of_run h, (inOrder_of_run h).written (logged_of_run h)⟩

/-- The same with the slicer's own words. -/
theorem Sound.processed (h : Sound fromEthernet cfg threads) :
    List.SublistForall₂
      (fun record frame => ∃ tsNs degraded,
        (Slicer.mk cfg.sliceBytes.toNat).process fromEthernet frame tsNs degraded = some record)
      (Event.written threads.log ++
        (inHand threads.state.writer ++ threads.state.queue ++ offered threads.state.capture))
      (Event.taken threads.log) := by
  obtain ⟨chosen, hchosen, hsub⟩ := List.sublistForall₂_iff.mp h.order
  exact List.sublistForall₂_iff.mpr
    ⟨chosen, hchosen.imp fun _ _ hmade => madeFrom_slice hmade, hsub⟩

theorem Sound.encodable (h : Sound fromEthernet cfg threads) (hvalid : cfg.validate = .ok ()) :
    ∀ r ∈ Event.written threads.log, r.Encodable := by
  intro r hr
  obtain ⟨frame, -, hmade⟩ := h.order.exists_of_mem (List.mem_append_left _ hr)
  obtain ⟨tsNs, degraded, hprocess⟩ := madeFrom_slice hmade
  exact encodable_of_process hvalid hprocess

/-! ## What a kill leaves -/

/-- The directories the probe can be killed with, and the log of its threads then: after a step,
or in the middle of a turn of the writer. -/
def KilledAt (fromEthernet : FromEthernet) (crc32 : List UInt8 → UInt32) (cfg : Config)
    (fuel : Nat) (s : Probe) (t : FileSystem) (threads : Traced (List UInt8) WalRecord) : Prop :=
  (t = s.disk ∧ threads = s.threads) ∨
    ∃ (turn : WriterTurn) (clock : Clock), turn.panics cfg = false ∧
      s.threadsStep fromEthernet cfg (.writer turn.action) = some threads ∧
      t ∈ (turn.program crc32 fuel s.threads.state clock s.disk s.writer).trace

/-- **A kill of the probe is one of the writer.** -/
theorem Refines.killedAt (hfile : w.file = none) (h : Refines crc32 fuel start w s)
    {t : FileSystem} (hkilled : KilledAt fromEthernet crc32 cfg fuel s t threads) :
    t = start ∨ ∃ now received, t ∈ (WalWriter.run crc32 fuel now received start w).trace ∧
      accepted received = Event.written threads.log ∧
      received.length = (Event.handled threads.log).length := by
  rcases hkilled with ⟨rfl, rfl⟩ | ⟨turn, clock, hpanics, hthreads, ht⟩
  · obtain ⟨now, received, hfollows, haccepted, -, hlength⟩ := h
    exact hfollows.passed.imp_right fun hmem => ⟨now, received, hmem, haccepted, hlength⟩
  · obtain ⟨now, received, ⟨⟨before, after, hbefore, hpiece⟩, -⟩, haccepted, -, hlength⟩ :=
      h.advances hfile hpanics hthreads clock
    refine Or.inr ⟨now, received, ?_, haccepted, hlength⟩
    rw [hpiece]
    exact mem_trace_part hbefore ht

/-- A turn of the writer leaves a sound log, with the frames taken before. -/
theorem sound_of_turn (hrun : run fromEthernet crc32 cfg fuel start w as = some s)
    (hthreads : s.threadsStep fromEthernet cfg (.writer turn.action) = some threads) :
    Sound fromEthernet cfg threads ∧ Event.taken threads.log = Event.taken s.threads.log := by
  have hacts := traced_of_run hrun
  have hlonger : tracedRun cfg (slice fromEthernet cfg)
      (as.map Action.threads ++ [.writer turn.action]) = some threads :=
    (Transition.run_concat_eq_some _).mpr ⟨_, hacts, hthreads⟩
  refine ⟨sound_of_run hlonger, ?_⟩
  obtain ⟨-, -, hlog⟩ := tracedStep_eq_some.mp hthreads
  rw [hlog, Event.taken_append, eventsOf, (writerEvents_silent _ _).1, List.append_nil]

theorem sound_of_killedAt (hrun : run fromEthernet crc32 cfg fuel start w as = some s)
    {t : FileSystem} (hkilled : KilledAt fromEthernet crc32 cfg fuel s t threads) :
    Sound fromEthernet cfg threads ∧ Event.taken threads.log = Event.taken s.threads.log := by
  rcases hkilled with ⟨rfl, rfl⟩ | ⟨turn, clock, -, hthreads, -⟩
  · exact ⟨sound_of_run (traced_of_run hrun), rfl⟩
  · exact sound_of_turn hrun hthreads

/-- **What has been written** has times that the capture thread has read. -/
theorem time_of_written {acts : List (Pipeline.Action (List UInt8))}
    (h : tracedRun cfg (slice fromEthernet cfg) acts = some threads) :
    ∀ r ∈ Event.written threads.log, .capture (.process r.timestampNs) ∈ acts := by
  refine written_of_run (fun tsNs hmem frame make degraded hmake => ?_) h
  obtain ⟨r, -, rfl⟩ := Option.map_eq_some_iff.mp hmake
  exact hmem

theorem time_of_killedAt (hrun : run fromEthernet crc32 cfg fuel start w as = some s)
    {t : FileSystem} (hkilled : KilledAt fromEthernet crc32 cfg fuel s t threads) :
    ∀ r ∈ Event.written threads.log, .capture (.process r.timestampNs) ∈ as := by
  have hown : ∀ {tsNs}, .capture (.process tsNs) ∈ as.map Action.threads →
      Action.capture (.process tsNs) ∈ as := by
    intro tsNs hmem
    obtain ⟨a, ha, heq⟩ := List.mem_map.mp hmem
    cases a with
    | capture a =>
      obtain rfl : a = .process tsNs := by injection heq
      exact ha
    | writer turn clock => cases heq
    | sampler resident load => cases heq
  have hacts := traced_of_run hrun
  intro r hr
  rcases hkilled with ⟨rfl, rfl⟩ | ⟨turn, clock, -, hthreads, -⟩
  · exact hown (time_of_written hacts r hr)
  · have hlonger : tracedRun cfg (slice fromEthernet cfg)
        (as.map Action.threads ++ [.writer turn.action]) = some threads :=
      (Transition.run_concat_eq_some _).mpr ⟨_, hacts, hthreads⟩
    rcases List.mem_append.mp (time_of_written hlonger r hr) with hmem | hmem
    · exact hown hmem
    · cases List.mem_singleton.mp hmem

variable {rotateInterval made limit : Nat}

/-- The life of a writer that has received this. -/
def writerLife (cfg : Config) (rotateInterval made now : Nat) (received : List Received)
    (killed : Bool) : Life :=
  ⟨cfg.maxSegments.toNat, cfg.segmentSize, rotateInterval, made, now, received, killed⟩

/-- **A kill of the probe ends a life of the writer**, unless it has done nothing yet. -/
theorem life_of_killedAt
    (hnew : WalWriter.new start cfg.maxSegments.toNat cfg.segmentSize rotateInterval made 0 0 =
      some w)
    (hrun : run fromEthernet crc32 cfg fuel start w as = some s) {t : FileSystem}
    (hkilled : KilledAt fromEthernet crc32 cfg fuel s t threads) :
    t = start ∨ ∃ now received,
      (writerLife cfg rotateInterval made now received true).Leaves crc32 fuel start t ∧
      accepted received = Event.written threads.log ∧
      received.length ≤ (Event.taken s.threads.log).length := by
  obtain ⟨-, -, hfile, -⟩ := WalWriter.new_eq hnew
  obtain ⟨hsound, htaken⟩ := sound_of_killedAt hrun hkilled
  refine ((refines_of_run hfile hrun).killedAt hfile hkilled).imp_right ?_
  rintro ⟨now, received, hmem, haccepted, hlength⟩
  refine ⟨now, received, ⟨w, hnew, hmem⟩, haccepted, ?_⟩
  rw [hlength, ← htaken]
  exact handled_le_taken hsound.logged

/-- Where the writer has ended, its life has. -/
theorem life_of_done
    (hnew : WalWriter.new start cfg.maxSegments.toNat cfg.segmentSize rotateInterval made 0 0 =
      some w)
    (hrun : run fromEthernet crc32 cfg fuel start w as = some s)
    (hdone : s.threads.state.writer = .done) :
    ∃ now received,
      (writerLife cfg rotateInterval made now received false).Leaves crc32 fuel start s.disk ∧
      accepted received = Event.written s.threads.log ∧
      received.length ≤ (Event.taken s.threads.log).length := by
  obtain ⟨-, -, hfile, -⟩ := WalWriter.new_eq hnew
  have hacts := traced_of_run hrun
  obtain ⟨now, received, hfollows, haccepted, -, hlength⟩ := refines_of_run hfile hrun
  rw [hdone] at hfollows
  refine ⟨now, received, ⟨w, hnew, s.writer, hfollows⟩, haccepted, ?_⟩
  rw [hlength]
  exact handled_le_taken (logged_of_run hacts)

/-! ## On the disk -/

/-- A beginning of `A` in segments made since `start`, or nothing yet. -/
def OnDisk (crc32 : List UInt8 → UInt32) (start : FileSystem) (A : List WalRecord)
    (t : FileSystem) : Prop :=
  t = start ∨ ∃ opened, t.created = start.created ++ opened ∧ Ascending opened ∧
    PartOf crc32 A t opened

/-- A turn that the threads allow goes through. -/
theorem exists_step
    (hnew : WalWriter.new start cfg.maxSegments.toNat cfg.segmentSize rotateInterval made 0 0 =
      some w)
    (hstart : ∀ name ∈ segments start, ∃ no, no < limit ∧ name = segPath no)
    (hfuel : 2 ^ 64 < fuel) (hrun : run fromEthernet crc32 cfg fuel start w as = some s)
    (hlimit : limit + (1 + 2 * (Event.taken s.threads.log).length) < 2 ^ 64) (clock : Clock)
    (hpanics : turn.panics cfg = false)
    (hthreads : s.threadsStep fromEthernet cfg (.writer turn.action) = some threads) :
    ∃ u, step fromEthernet crc32 cfg fuel s (.writer turn clock) = some u ∧
      u.threads = threads := by
  obtain ⟨-, -, hfile, -⟩ := WalWriter.new_eq hnew
  obtain ⟨hsound, htaken⟩ := sound_of_turn hrun hthreads
  have hhandled := handled_le_taken hsound.logged
  rw [htaken] at hhandled
  obtain ⟨now, received, ⟨⟨before, after, hbefore, hpiece⟩, -⟩, -, -, hlength⟩ :=
    (refines_of_run hfile hrun).advances hfile hpanics hthreads clock
  have hroom : limit + 1 + 2 * received.length < 2 ^ 64 := by omega
  -- the run of which the turn is a piece returns
  obtain ⟨⟨⟩, t, w', hdone, -⟩ :=
    (WalWriter.holds_run_left crc32 now hnew hstart hroom hfuel).returned
  rw [hpiece] at hdone
  obtain ⟨⟨⟩, disk, writer, hprogram⟩ := done_of_part hbefore hdone
  exact ⟨⟨threads, disk, writer⟩, step_writer_eq_some.mpr ⟨hpanics, hthreads, hprogram⟩, rfl⟩

/-- No step takes a frame back. -/
theorem taken_le_of_step {slice : List UInt8 → Option (UInt64 → Bool → WalRecord)}
    {a : Pipeline.Action (List UInt8)} {before after : Traced (List UInt8) WalRecord}
    (h : tracedStep cfg slice before a = some after) :
    (Event.taken before.log).length ≤ (Event.taken after.log).length := by
  rw [(tracedStep_eq_some.mp h).2.2, Event.taken_append, List.length_append]
  exact Nat.le_add_right _ _

/-- **The disk holds nobody up**: what the threads can do, the probe can. -/
theorem exists_run
    (hnew : WalWriter.new start cfg.maxSegments.toNat cfg.segmentSize rotateInterval made 0 0 =
      some w)
    (hstart : ∀ name ∈ segments start, ∃ no, no < limit ∧ name = segPath no)
    (hfuel : 2 ^ 64 < fuel)
    (hthreads : tracedRun cfg (slice fromEthernet cfg) (as.map Action.threads) = some threads)
    (hsurvives : ∀ a ∈ as, a.Survives cfg)
    (hlimit : limit + (1 + 2 * (Event.taken threads.log).length) < 2 ^ 64) :
    ∃ s, run fromEthernet crc32 cfg fuel start w as = some s ∧ s.threads = threads := by
  induction as using List.reverseRec generalizing threads with
  | nil =>
    obtain rfl := Option.some.inj hthreads
    exact ⟨begin start w, rfl, rfl⟩
  | append_singleton as a ih =>
    rw [List.map_append] at hthreads
    obtain ⟨before, hbefore, hlast⟩ := (Transition.run_concat_eq_some _).mp hthreads
    have hle := taken_le_of_step hlast
    obtain ⟨s, hs, rfl⟩ := ih hbefore (fun b hb => hsurvives b (List.mem_append_left _ hb))
      (by omega)
    have hstep : ∃ u, step fromEthernet crc32 cfg fuel s a = some u ∧ u.threads = threads := by
      cases a with
      | capture a => exact ⟨_, step_capture_eq_some.mpr ⟨threads, hlast, rfl⟩, rfl⟩
      | sampler resident load => exact ⟨_, step_sampler_eq_some.mpr ⟨threads, hlast, rfl⟩, rfl⟩
      | writer turn clock =>
        have hpanics : turn.panics cfg = false :=
          hsurvives _ (List.mem_append_right _ List.mem_cons_self)
        exact exists_step hnew hstart hfuel hs (by omega) clock hpanics hlast
    obtain ⟨u, hu, hsame⟩ := hstep
    exact ⟨u, (Transition.run_concat_eq_some _).mpr ⟨s, hs, hu⟩, hsame⟩

/-- A frame on its way to the disk, and the end of the capture, at which the writer flushes. -/
def oneFrame : List Action :=
  [.capture (.next sampleFrame), .capture .isDegraded, .capture (.process 7), .capture .send,
    .writer .openSegment ⟨0, 0, 0⟩, .writer .hotPathCheck ⟨0, 0, 0⟩, .writer .recv ⟨0, 0, 0⟩,
    .writer .handleRecord ⟨0, 0, 0⟩, .writer .writeAll ⟨1, 1, 1⟩, .writer .maybeRotate ⟨1, 1, 1⟩,
    .capture .pollFails, .writer .hotPathCheck ⟨2, 2, 2⟩, .writer .disconnected ⟨2, 2, 2⟩]

/-- It gets there. -/
theorem exists_run_oneFrame : ∃ w s,
    WalWriter.new FileSystem.empty defaultConfig.maxSegments.toNat defaultConfig.segmentSize 5 0 0
      0 = some w ∧
    run headersOnly Crc.ieee defaultConfig (2 ^ 64 + 1) FileSystem.empty w oneFrame = some s ∧
    (Event.taken s.threads.log = [sampleFrame] ∧ (Event.written s.threads.log).length = 1) ∧
    s.threads.state.writer = .done := by
  have hmax : 1 ≤ defaultConfig.maxSegments.toNat := by decide
  obtain ⟨w, hw⟩ := WalWriter.new_isSome FileSystem.empty defaultConfig.segmentSize 5 0 0 0 hmax
  have hstart : ∀ name ∈ segments FileSystem.empty, ∃ no, no < 0 ∧ name = segPath no :=
    fun name hname => absurd (mem_segments.mp hname).1 (AList.notMem_empty name)
  have hcounts : (tracedRun defaultConfig (slice headersOnly defaultConfig)
      (oneFrame.map Action.threads)).map (fun threads => (Event.taken threads.log,
        (Event.written threads.log).length, threads.state.writer)) =
      some ([sampleFrame], 1, .done) := rfl
  obtain ⟨threads, hthreads, hboth⟩ := Option.map_eq_some_iff.mp hcounts
  obtain ⟨htaken, hrest⟩ := Prod.mk.inj hboth
  obtain ⟨hwritten, hdone⟩ := Prod.mk.inj hrest
  have hsurvives : ∀ a ∈ oneFrame, a.Survives defaultConfig := by
    intro a ha
    simp only [oneFrame, List.mem_cons, List.not_mem_nil, or_false] at ha
    rcases ha with rfl | rfl | rfl | rfl | rfl | rfl | rfl | rfl | rfl | rfl | rfl | rfl | rfl
    all_goals trivial
  have hlimit : 0 + (1 + 2 * (Event.taken threads.log).length) < 2 ^ 64 := by
    rw [htaken]
    decide
  obtain ⟨s, hs, rfl⟩ := exists_run hw hstart (Nat.lt_succ_self _) hthreads hsurvives hlimit
  exact ⟨w, s, hw, hs, ⟨htaken, hwritten⟩, hdone⟩

end Probe
end SovProbe
