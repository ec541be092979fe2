import SovProbe.SubscriberSafety

/-! # Batches and single frames

The chunks of a segment come in batches, which saves messages, or each in a frame of its
own, which fills the cache.  For the segments it makes no difference.  In a run of the tasks
any batches may be taken apart, frame by frame (`Unbatched`): where no frame refers to the
cache, the run goes through as before, and ends with the same files, buffers and counters
(`batches_agree`).  Only the cache can differ, as the entries of a batch are not put into it.
-/

namespace SovProbe
open Process

/-! ## Taking batches apart -/

/-- The payload is a data frame for this entry of a batch. -/
structure BatchEntry.Frames (codec : Codec) (segment : SegmentKey) (entry : BatchEntry)
    (payload : List UInt8) : Prop where
  decodes : codec.decodeChunkFrame payload =
    some ⟨segment.1, segment.2, entry.startOffset, entry.chunkLen, false⟩
  cipher : payload.drop codec.chunkFrameHeaderLen = entry.payload

/-- Data frames for the entries, one by one, under any keys. -/
def Singles (codec : Codec) (env : Nat → Environment) (segment : SegmentKey)
    (entries : List (BatchEntry × Nat)) (frames : List TaskStep) : Prop :=
  List.Forall₂ (fun e frame => ∃ key payload, frame = .data (env e.2) key payload ∧
    e.1.Frames codec segment payload) entries frames

/-- The same steps, with single frames in the place of some batches. -/
inductive Unbatched (codec : WireCodec) : List TaskStep → List TaskStep → Prop where
  | nil : Unbatched codec [] []
  | keep (e : TaskStep) {es es' : List TaskStep} :
    Unbatched codec es es' → Unbatched codec (e :: es) (e :: es')
  | split {env : Nat → Environment} {payload : List UInt8} {b : ChunkBatch}
    {frames es es' : List TaskStep} : codec.decodeChunkBatch payload = some b →
    Singles codec.toCodec env b.segment b.entries.zipIdx frames → Unbatched codec es es' →
    Unbatched codec (.batch env payload :: es) (frames ++ es')

/-- A frame that refers to the cache. -/
def TaskStep.Refers (codec : WireCodec) : TaskStep → Prop
  | data _ _ payload => ∃ frame, codec.decodeChunkFrame payload = some frame ∧
    frame.refOnly = true
  | _ => False

/-- Nothing differs but what is in the cache. -/
structure SameButCache (s s' : FileSystem × Subscriber) : Prop where
  files : s'.1 = s.1
  reassembler : s'.2.receiver.reassembler = s.2.receiver.reassembler
  sealTask : s'.2.sealTask = s.2.sealTask
  counts : s.2.receiver.blind.SameCounts s'.2.receiver.blind

variable {codec : WireCodec} {crc32 : List UInt8 → UInt32} {e : TaskStep}
  {s s' u : FileSystem × Subscriber} {P : FileSystem → Reassembler → Prop}

/-! ## Counters -/

namespace BlindCache
variable {c c' c'' d d' : BlindCache}

theorem SameCounts.refl (c : BlindCache) : c.SameCounts c := ⟨rfl, rfl, rfl, rfl, rfl⟩

theorem SameCounts.symm (h : c.SameCounts c') : c'.SameCounts c :=
  ⟨h.totalChunks.symm, h.totalRefs.symm, h.unframedDropped.symm, h.cacheMiss.symm,
    h.framesBySegment.symm⟩

theorem SameCounts.trans (h : c.SameCounts c') (h' : c'.SameCounts c'') : c.SameCounts c'' :=
  ⟨h'.totalChunks.trans h.totalChunks, h'.totalRefs.trans h.totalRefs,
    h'.unframedDropped.trans h.unframedDropped, h'.cacheMiss.trans h.cacheMiss,
    h'.framesBySegment.trans h.framesBySegment⟩

theorem SameCounts.countEntry (h : c.SameCounts c') (segment : SegmentKey) :
    (c.countEntry segment).SameCounts (c'.countEntry segment) where
  totalChunks := congrArg (· + 1) h.totalChunks
  totalRefs := h.totalRefs
  unframedDropped := h.unframedDropped
  cacheMiss := h.cacheMiss
  framesBySegment := by
    simp only [BlindCache.countEntry, h.framesBySegment]

theorem SameCounts.countEntries (h : c.SameCounts c') (segment : SegmentKey)
    {α : Type} (entries : List α) :
    (entries.foldl (fun blind _ => blind.countEntry segment) c).SameCounts
      (entries.foldl (fun blind _ => blind.countEntry segment) c') := by
  induction entries generalizing c c' with
  | nil => exact h
  | cons e entries ih => exact ih (h.countEntry segment)

theorem SameCounts.countFrame (h : c.SameCounts c') {codec : Codec} {key payload : List UInt8}
    (hdata : ∀ frame, codec.decodeChunkFrame payload = some frame → frame.refOnly = false) :
    (c.countFrame codec key payload).SameCounts (c'.countFrame codec key payload) := by
  unfold BlindCache.countFrame
  cases hframe : codec.decodeChunkFrame payload with
  | none => exact ⟨h.totalChunks, h.totalRefs, congrArg (· + 1) h.unframedDropped, h.cacheMiss,
      h.framesBySegment⟩
  | some frame =>
    simp only [hdata frame hframe, Bool.false_eq_true, if_false]
    exact h.countEntry _

end BlindCache

/-! ## Steps -/

/-- What an enabled step comes to, by what its calls come to. -/
theorem Subscriber.Sound.step_of_calls (hcodec : codec.HasHeader) (h : s.2.Sound)
    (henabled : e.enabled s.2.sealTask = true)
    (hP : (receive crc32 (e.calls codec s.2)).Holds (fun _ => True) (.returns fun _ t r => P t r)
      s.1 s.2.receiver.reassembler) :
    ∃ u, e.step codec crc32 s = some u ∧ u.2.Sound ∧ P u.1 u.2.receiver.reassembler ∧
      e.CacheStep codec s.2.receiver.blind u.2.receiver.blind ∧
      u.2.sealTask = e.nextTask codec s.2 := by
  obtain ⟨u, hu, -, hsound, hPu, hcache, htask, -⟩ :=
    (h.holds_perform hcodec henabled hP).state?
  exact ⟨u, (if_pos henabled).trans hu, hsound, hPu, hcache, htask⟩

/-- What the calls of a step come to. -/
theorem Subscriber.Sound.calls_return (h : s.2.Sound) (crc32 : List UInt8 → UInt32)
    (calls : List Call) : ∃ t r, (receive crc32 calls).Holds (fun _ => True)
      (.returns fun _ t' r' => t' = t ∧ r' = r) s.1 s.2.receiver.reassembler := by
  obtain ⟨_, t, r, hdone, -⟩ :=
    (Call.holds_receive_steady crc32 calls s.1 _ h.counted h.within).returned
  exact ⟨t, r, (holds_of_done hdone).imp_returns fun _ _ _ hsame => hsame.2⟩

/-- **Where no frame refers to the cache,** a step asks for the same with any cache. -/
theorem SameButCache.calls (h : SameButCache s s') (hdata : ¬ e.Refers codec) :
    e.calls codec s'.2 = e.calls codec s.2 := by
  cases e with
  | data env key payload =>
    have hcarried : s'.2.receiver.blind.carried codec.toCodec key payload =
        s.2.receiver.blind.carried codec.toCodec key payload := by
      unfold BlindCache.carried
      cases hframe : codec.decodeChunkFrame payload with
      | none => rfl
      | some frame =>
        have href : frame.refOnly = false := by
          rw [← Bool.not_eq_true]
          exact fun href => hdata ⟨frame, hframe, href⟩
        simp only [href, Bool.false_eq_true, if_false]
    simp only [TaskStep.calls, hcarried]
  | finish => simp only [TaskStep.calls, h.sealTask]
  | batch env payload => rfl
  | sealSignal payload => rfl
  | replies rs => rfl
  | tick => rfl
  | query key => rfl

theorem SameButCache.nextTask (h : SameButCache s s') :
    e.nextTask codec s'.2 = e.nextTask codec s.2 := by
  cases e with
  | sealSignal payload => simp only [TaskStep.nextTask, h.sealTask, h.reassembler]
  | tick => simp only [TaskStep.nextTask, h.sealTask, h.reassembler]
  | data env key payload => exact h.sealTask
  | batch env payload => exact h.sealTask
  | replies rs => simp only [TaskStep.nextTask, h.sealTask]
  | finish => rfl
  | query key => exact h.sealTask

/-- What a data frame counts. -/
theorem BlindCache.Holding.counts_of_materialise {plain : BlindId → List UInt8}
    {c d : BlindCache} (h : Holding plain c) (hbudget : c.blindCacheBytes ≤ blindCacheBudget)
    (hcodec : codec.HasHeader) {key payload : List UInt8}
    (hd : c.materialise codec.toCodec key payload =
      .ok (d, c.carried codec.toCodec key payload)) :
    (c.countFrame codec.toCodec key payload).SameCounts d := by
  obtain ⟨d', -, hd', -, -, hcounts, -⟩ :=
    h.materialise_of_header hbudget hcodec key payload
  rw [hd] at hd'
  obtain ⟨rfl, -⟩ := Prod.mk.inj (Except.ok.inj hd')
  exact hcounts

/-- Equal counters stay equal. -/
theorem SameButCache.counts_step {d d' : BlindCache} (h : SameButCache s s') (hs : s.2.Sound)
    (hs' : s'.2.Sound) (hcodec : codec.HasHeader) (hdata : ¬ e.Refers codec) (hne : e ≠ .finish)
    (hd : e.CacheStep codec s.2.receiver.blind d)
    (hd' : e.CacheStep codec s'.2.receiver.blind d') : d.SameCounts d' := by
  cases e with
  | data env key payload =>
    obtain ⟨plain, hholding⟩ := hs.holding
    obtain ⟨plain', hholding'⟩ := hs'.holding
    have hcounts := hholding.counts_of_materialise hs.budget hcodec hd
    have hcounts' := hholding'.counts_of_materialise hs'.budget hcodec hd'
    refine hcounts.symm.trans (BlindCache.SameCounts.trans ?_ hcounts')
    refine h.counts.countFrame fun frame hframe => ?_
    rw [← Bool.not_eq_true]
    exact fun href => hdata ⟨frame, hframe, href⟩
  | batch env payload =>
    obtain rfl : d = _ := hd
    obtain rfl : d' = _ := hd'
    unfold BlindCache.countBatch
    split
    · exact h.counts.countEntries _ _
    · exact ⟨h.counts.totalChunks, h.counts.totalRefs, congrArg (· + 1) h.counts.unframedDropped,
        h.counts.cacheMiss, h.counts.framesBySegment⟩
  | finish => exact absurd rfl hne
  | sealSignal payload =>
    obtain rfl : d = _ := hd
    obtain rfl : d' = _ := hd'
    exact h.counts
  | replies rs =>
    obtain rfl : d = _ := hd
    obtain rfl : d' = _ := hd'
    exact h.counts
  | tick =>
    obtain rfl : d = _ := hd
    obtain rfl : d' = _ := hd'
    exact h.counts
  | query key =>
    obtain rfl : d = _ := hd
    obtain rfl : d' = _ := hd'
    exact h.counts

/-- The end of a refill. -/
theorem TaskStep.step_finish {gq : GapQuery} (htask : s.2.sealTask = .removing gq) :
    finish.step codec crc32 s = some (s.1, {
      receiver := {
        blind := { s.2.receiver.blind with
          framesBySegment := s.2.receiver.blind.framesBySegment.erase gq.key }
        reassembler := { s.2.receiver.reassembler with
          segments := s.2.receiver.reassembler.segments.erase gq.key } }
      sealTask := .waiting }) := by
  obtain ⟨fs, receiver, task⟩ := s
  obtain rfl : task = .removing gq := htask
  rfl

/-- **A step** without a reference goes the same way. -/
theorem SameButCache.step (h : SameButCache s s') (hs : s.2.Sound) (hs' : s'.2.Sound)
    (hcodec : codec.HasHeader) (hdata : ¬ e.Refers codec) (hstep : e.step codec crc32 s = some u) :
    ∃ u', e.step codec crc32 s' = some u' ∧ SameButCache u u' := by
  have henabled := (TaskStep.step_eq_some.mp hstep).1
  by_cases hfinish : e = .finish
  · subst hfinish
    cases htask : s.2.sealTask with
    | removing gq =>
      rw [TaskStep.step_finish htask] at hstep
      refine ⟨_, TaskStep.step_finish (h.sealTask.trans htask), ?_⟩
      rw [← Option.some.inj hstep]
      refine ⟨h.files, ?_, rfl, h.counts.totalChunks, h.counts.totalRefs,
        h.counts.unframedDropped, h.counts.cacheMiss, ?_⟩
      · simp only [h.reassembler]
      · simp only [h.counts.framesBySegment]
    | waiting => simp [TaskStep.enabled, htask] at henabled
    | asking gq sealedSize attempt => simp [TaskStep.enabled, htask] at henabled
    | verifying gq sealedSize attempt ticks => simp [TaskStep.enabled, htask] at henabled
  obtain ⟨t, r, hcalls⟩ := hs.calls_return crc32 (e.calls codec s.2)
  obtain ⟨v, hv, -, ⟨hfiles, hreassembler⟩, hcache, htask⟩ :=
    hs.step_of_calls hcodec henabled hcalls
  rw [hstep] at hv
  obtain rfl := Option.some.inj hv
  have hcalls' := hcalls
  rw [← h.calls hdata, ← h.files, ← h.reassembler] at hcalls'
  obtain ⟨u', hu', -, ⟨hfiles', hreassembler'⟩, hcache', htask'⟩ :=
    hs'.step_of_calls hcodec (h.sealTask.symm ▸ henabled) hcalls'
  refine ⟨u', hu', hfiles'.trans hfiles.symm, hreassembler'.trans hreassembler.symm, ?_,
    h.counts_step hs hs' hcodec hdata hfinish hcache hcache'⟩
  rw [htask', htask, h.nextTask]

/-! ## A batch, frame by frame -/

/-- The call a single frame comes to is that of the entry. -/
theorem BatchEntry.Frames.calls {env : Nat → Environment} {segment : SegmentKey}
    {entry : BatchEntry × Nat} {key payload : List UInt8}
    (h : entry.1.Frames codec.toCodec segment payload) (self : Subscriber) :
    (TaskStep.data (env entry.2) key payload).calls codec self =
      (BatchEntry.call? codec.toCodec env segment entry).toList := by
  have hcarried : self.receiver.blind.carried codec.toCodec key payload =
      (decrypt codec.toCodec entry.1.payload).map fun p =>
        (⟨segment.1, segment.2, entry.1.startOffset, entry.1.chunkLen, false⟩, p) := by
    unfold BlindCache.carried
    simp only [h.decodes, h.cipher, Bool.false_eq_true, if_false]
  simp only [TaskStep.calls, hcarried, BatchEntry.call?]
  cases decrypt codec.toCodec entry.1.payload <;> rfl

/-- **The entries, one by one,** come to what the batch comes to. -/
theorem Singles.run (hcodec : codec.HasHeader) {env : Nat → Environment} {segment : SegmentKey}
    {entries : List (BatchEntry × Nat)} {frames : List TaskStep}
    (h : Singles codec.toCodec env segment entries frames) (hs : s.2.Sound)
    (hP : (receive crc32 (entries.filterMap (BatchEntry.call? codec.toCodec env segment))).Holds
      (fun _ => True) (.returns fun _ t r => P t r) s.1 s.2.receiver.reassembler) :
    ∃ u, Transition.run (TaskStep.step codec crc32) s frames = some u ∧ u.2.Sound ∧
      P u.1 u.2.receiver.reassembler ∧ u.2.sealTask = s.2.sealTask ∧
      (entries.foldl (fun blind _ => blind.countEntry segment) s.2.receiver.blind).SameCounts
        u.2.receiver.blind := by
  induction h generalizing s with
  | nil => exact ⟨s, rfl, hs, holds_receive_nil.mp hP, rfl, .refl _⟩
  | @cons entry frame entries frames hframe _ ih =>
    obtain ⟨key, payload, rfl, hcarries⟩ := hframe
    have hfirst : (receive crc32 ((TaskStep.data (env entry.2) key payload).calls codec s.2)).Holds
        (fun _ => True) (.returns fun _ t r =>
          (receive crc32 (entries.filterMap (BatchEntry.call? codec.toCodec env segment))).Holds
            (fun _ => True) (.returns fun _ t r => P t r) t r) s.1 s.2.receiver.reassembler := by
      rw [hcarries.calls]
      cases hcall : BatchEntry.call? codec.toCodec env segment entry with
      | none =>
        rw [List.filterMap_cons_none hcall] at hP
        exact holds_receive_nil.mpr hP
      | some c =>
        rw [List.filterMap_cons_some hcall, holds_receive_cons] at hP
        exact holds_receive_one.mpr hP
    obtain ⟨v, hv, hsound, hrest, hcache, htask⟩ := hs.step_of_calls hcodec rfl hfirst
    obtain ⟨u, hu, hsound', hPu, htask', hcounts⟩ := ih hsound hrest
    refine ⟨u, by rw [Transition.run_cons, hv, Option.bind_some, hu], hsound', hPu,
      htask'.trans htask, BlindCache.SameCounts.trans ?_ hcounts⟩
    obtain ⟨plain, hholding⟩ := hs.holding
    have hcount := hholding.counts_of_materialise hs.budget hcodec hcache
    have hentry : s.2.receiver.blind.countFrame codec.toCodec key payload =
        s.2.receiver.blind.countEntry segment := by
      unfold BlindCache.countFrame
      simp only [hcarries.decodes, Bool.false_eq_true, if_false]
    exact (hentry ▸ hcount).countEntries segment entries

/-- **A batch** and its entries in frames of their own. -/
theorem SameButCache.batch (h : SameButCache s s') (hs : s.2.Sound) (hs' : s'.2.Sound)
    (hcodec : codec.HasHeader) {env : Nat → Environment} {payload : List UInt8} {b : ChunkBatch}
    {frames : List TaskStep} (hbatch : codec.decodeChunkBatch payload = some b)
    (hsingles : Singles codec.toCodec env b.segment b.entries.zipIdx frames)
    (hstep : (TaskStep.batch env payload).step codec crc32 s = some u) :
    ∃ u', Transition.run (TaskStep.step codec crc32) s' frames = some u' ∧ u'.2.Sound ∧
      SameButCache u u' := by
  have henabled := (TaskStep.step_eq_some.mp hstep).1
  have hentries : (TaskStep.batch env payload).calls codec s.2 =
      b.entries.zipIdx.filterMap (BatchEntry.call? codec.toCodec env b.segment) := by
    simp only [TaskStep.calls, hbatch]
  obtain ⟨t, r, hcalls⟩ := hs.calls_return crc32 ((TaskStep.batch env payload).calls codec s.2)
  obtain ⟨v, hv, -, ⟨hfiles, hreassembler⟩, hcache, htask⟩ :=
    hs.step_of_calls hcodec henabled hcalls
  rw [hstep] at hv
  obtain rfl := Option.some.inj hv
  rw [hentries, ← h.files, ← h.reassembler] at hcalls
  obtain ⟨u', hu', hsound', ⟨hfiles', hreassembler'⟩, htask', hcounts⟩ :=
    hsingles.run hcodec hs' hcalls
  refine ⟨u', hu', hsound', hfiles'.trans hfiles.symm, hreassembler'.trans hreassembler.symm,
    (htask'.trans h.sealTask).trans htask.symm, ?_⟩
  have hcounted : u.2.receiver.blind =
      b.entries.zipIdx.foldl (fun blind _ => blind.countEntry b.segment) s.2.receiver.blind := by
    refine Eq.trans hcache ?_
    simp only [BlindCache.countBatch, hbatch]
    conv_lhs => rw [← List.zipIdx_map_fst 0 b.entries, List.foldl_map]
  rw [hcounted]
  exact (h.counts.countEntries b.segment b.entries.zipIdx).trans hcounts

/-! ## Whole runs -/

/-- The simulation: from states that differ in the cache only, any run and the same run with
batches taken apart. -/
theorem Unbatched.run {es es' : List TaskStep} (h : Unbatched codec es es')
    (hcodec : codec.HasHeader) (hdata : ∀ e ∈ es, ¬ e.Refers codec) (hsame : SameButCache s s')
    (hs : s.2.Sound) (hs' : s'.2.Sound)
    (hrun : Transition.run (TaskStep.step codec crc32) s es = some u) :
    ∃ u', Transition.run (TaskStep.step codec crc32) s' es' = some u' ∧ SameButCache u u' := by
  induction h generalizing s s' with
  | nil =>
    obtain rfl := Option.some.inj hrun
    exact ⟨s', rfl, hsame⟩
  | keep e _ ih =>
    rw [Transition.run_cons] at hrun
    obtain ⟨v, hv, hrest⟩ := Option.bind_eq_some_iff.mp hrun
    obtain ⟨v', hv', hnext⟩ := hsame.step hs hs' hcodec (hdata e List.mem_cons_self) hv
    obtain ⟨u', hu', hend⟩ := ih (fun e he => hdata e (List.mem_cons_of_mem _ he)) hnext
      (hs.step hcodec hv).1 (hs'.step hcodec hv').1 hrest
    exact ⟨u', by rw [Transition.run_cons, hv', Option.bind_some, hu'], hend⟩
  | split hbatch hsingles _ ih =>
    rw [Transition.run_cons] at hrun
    obtain ⟨v, hv, hrest⟩ := Option.bind_eq_some_iff.mp hrun
    obtain ⟨v', hv', hsound', hnext⟩ := hsame.batch hs hs' hcodec hbatch hsingles hv
    obtain ⟨u', hu', hend⟩ := ih (fun e he => hdata e (List.mem_cons_of_mem _ he)) hnext
      (hs.step hcodec hv).1 hsound' hrest
    exact ⟨u', by rw [Transition.run_append, hv', Option.bind_some, hu'], hend⟩

/-- **Batches change nothing** for the segments.  Whatever the tasks get and however their
steps interleave, whichever file operations fail: if no frame refers to the cache, any of the
batches can come as single frames, under any keys, and every file, every buffer with what is
waiting in it, every counter and the task for the seal signals end as they would have. -/
theorem batches_agree (hcodec : codec.HasHeader) (crc32 : List UInt8 → UInt32)
    {start : FileSystem} {es es' : List TaskStep} (h : Unbatched codec es es')
    (hdata : ∀ e ∈ es, ¬ e.Refers codec)
    (hrun : Transition.run (TaskStep.step codec crc32) (start, .new) es = some s) :
    ∃ s', Transition.run (TaskStep.step codec crc32) (start, .new) es' = some s' ∧
      SameButCache s s' :=
  h.run hcodec hdata ⟨rfl, rfl, rfl, .refl _⟩ Subscriber.Sound.new Subscriber.Sound.new hrun

/-- A key with an id. -/
def zeroKey : List UInt8 := List.replicate 32 48

/-- The first byte of a segment, two more in a batch, and the seal. -/
def batched : List TaskStep :=
  [.data working [] (byteFrame 0 [6]), .batch (fun _ => working) (List.replicate 12 0 ++ [7]),
    .sealSignal [3]]

/-- The same chunks, each in a frame of its own. -/
def unbatched : List TaskStep :=
  [.data working [] (byteFrame 0 [6]), .data working zeroKey (byteFrame 1 [7]),
    .data working zeroKey (byteFrame 2 [7]), .sealSignal [3]]

theorem batches_agree_two : ∃ s s',
    Transition.run (TaskStep.step byteWire Crc.ieee) (FileSystem.empty, .new) batched = some s ∧
      Transition.run (TaskStep.step byteWire Crc.ieee) (FileSystem.empty, .new) unbatched =
        some s' ∧ SameButCache s s' := by
  have hreturns : (Transition.run (TaskStep.step byteWire Crc.ieee) (FileSystem.empty, .new)
      batched).isSome = true := by decide +kernel
  obtain ⟨s, hs⟩ := Option.isSome_iff_exists.mp hreturns
  have hsingles : Singles byteWire.toCodec (fun _ => working) (1, 0)
      [(⟨1, 1, List.replicate 12 0 ++ [7]⟩, 0), (⟨2, 1, List.replicate 12 0 ++ [7]⟩, 1)]
      [.data working zeroKey (byteFrame 1 [7]), .data working zeroKey (byteFrame 2 [7])] :=
    .cons ⟨_, _, rfl, rfl, rfl⟩ (.cons ⟨_, _, rfl, rfl, rfl⟩ .nil)
  have hsplit : Unbatched byteWire
      [.batch (fun _ => working) (List.replicate 12 0 ++ [7]), .sealSignal [3]]
      ([.data working zeroKey (byteFrame 1 [7]), .data working zeroKey (byteFrame 2 [7])] ++
        [.sealSignal [3]]) := .split rfl hsingles (.keep _ .nil)
  have hunbatched : Unbatched byteWire batched unbatched := .keep _ hsplit
  have hdata : ∀ e ∈ batched, ¬ e.Refers byteWire := by
    intro e he hrefers
    simp only [batched, List.mem_cons, List.not_mem_nil, or_false] at he
    rcases he with rfl | rfl | rfl
    · obtain ⟨frame, hframe, href⟩ := hrefers
      cases hframe
      cases href
    · exact hrefers
    · exact hrefers
  obtain ⟨s', hs', hsame⟩ := batches_agree byteWire_hasHeader Crc.ieee hunbatched hdata hs
  exact ⟨s, s', hs, hs', hsame⟩

end SovProbe
