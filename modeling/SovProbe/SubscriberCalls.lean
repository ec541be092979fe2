import SovProbe.Subscriber

/-! # What the tasks ask of the reassembler

Each step of a task comes to some calls of the reassembler: a chunk frame to at most one
chunk that is placed, a batch to those of its entries that can be decrypted, a seal to a
seal, the end of a refill to a removal.  So what is known of any calls is known of the
tasks (`TaskStep.holds_perform`), with what the step does to the cache and to the task
beside it.
-/

namespace SovProbe
open Process Checked FifoWindow

/-- A frame that decodes has its header in front. -/
def Codec.HasHeader (codec : Codec) : Prop :=
  ∀ payload frame, codec.decodeChunkFrame payload = some frame →
    codec.chunkFrameHeaderLen ≤ payload.length

/-! ## The cache -/

namespace BlindCache
variable {codec : Codec} {plain : BlindId → List UInt8} {c c' : BlindCache}
  {key payload : List UInt8}

/-- Only counters differ. -/
structure SameCache (c c' : BlindCache) : Prop where
  cache : c'.blindCache = c.blindCache
  order : c'.blindOrder = c.blindOrder
  bytes : c'.blindCacheBytes = c.blindCacheBytes

theorem SameCache.refl (c : BlindCache) : SameCache c c := ⟨rfl, rfl, rfl⟩

theorem SameCache.trans {c'' : BlindCache} (h : SameCache c c') (h' : SameCache c' c'') :
    SameCache c c'' :=
  ⟨h'.cache.trans h.cache, h'.order.trans h.order, h'.bytes.trans h.bytes⟩

theorem Holding.congr (h : Holding plain c) (hsame : SameCache c c') : Holding plain c' where
  lookup := by rw [hsame.cache, hsame.order]; exact h.lookup
  bytes := by rw [hsame.bytes, hsame.order]; exact h.bytes
  nodup := by rw [hsame.order]; exact h.nodup

/-- The counters with a frame that has come. -/
def countFrame (codec : Codec) (self : BlindCache) (key payload : List UInt8) : BlindCache :=
  match codec.decodeChunkFrame payload with
  | none => { self with unframedDropped := self.unframedDropped + 1 }
  | some frame =>
    let counted := self.countEntry (frame.devId, frame.segmentSeq)
    if frame.refOnly then
      { counted with
        totalRefs := self.totalRefs + 1
        cacheMiss := self.cacheMiss + if (self.carried codec key payload).isSome then 0 else 1 }
    else counted

/-- A data frame carries the plaintext of the id in its key. -/
def Genuine (codec : Codec) (plain : BlindId → List UInt8) (key payload : List UInt8) : Prop :=
  ∀ frame p id, codec.decodeChunkFrame payload = some frame → frame.refOnly = false →
    decrypt codec (payload.drop codec.chunkFrameHeaderLen) = some p →
    blindIdFromKey key = some id → p = plain id

theorem sameCache_countFrame : SameCache c (c.countFrame codec key payload) := by
  unfold countFrame
  cases codec.decodeChunkFrame payload with
  | none => exact ⟨rfl, rfl, rfl⟩
  | some frame =>
    dsimp only
    split <;> exact ⟨rfl, rfl, rfl⟩

/-- What is in a cache of this budget after an insertion. -/
theorem Holding.cacheInsert_budget (h : Holding plain c) (id : BlindId) (bytes : List UInt8) :
    ∃ c', c.cacheInsert id bytes = .ok c' ∧ SameCounts c c' ∧
      Holding (Function.update plain id bytes) c' ∧ c'.blindCacheBytes ≤ blindCacheBudget := by
  obtain ⟨c', hc', hcounts, hholding, hwindow⟩ := h.cacheInsert id bytes
  refine ⟨c', hc', hcounts, hholding, ?_⟩
  rw [hholding.bytes, ← weight_reverse, hwindow]
  exact weight_window_le

/-- **A frame is materialised**: what it carries is to be placed, and the cache stays within
its budget and genuine. -/
theorem Holding.materialise_of_header (h : Holding plain c)
    (hbudget : c.blindCacheBytes ≤ blindCacheBudget) (hcodec : codec.HasHeader)
    (key payload : List UInt8) :
    ∃ c' plain', c.materialise codec key payload = .ok (c', c.carried codec key payload) ∧
      Holding plain' c' ∧ c'.blindCacheBytes ≤ blindCacheBudget ∧
      SameCounts (c.countFrame codec key payload) c' ∧
      (Genuine codec plain key payload → plain' = plain) := by
  have hcache : SameCache c (c.countFrame codec key payload) := sameCache_countFrame
  have hcounted : Holding plain (c.countFrame codec key payload) := h.congr hcache
  have hcountedBudget : (c.countFrame codec key payload).blindCacheBytes ≤ blindCacheBudget :=
    hcache.bytes ▸ hbudget
  have hsame : SameCounts (c.countFrame codec key payload) (c.countFrame codec key payload) :=
    ⟨rfl, rfl, rfl, rfl, rfl⟩
  have hunchanged : c.materialise codec key payload =
        .ok (c.countFrame codec key payload, c.carried codec key payload) →
      ∃ c' plain', c.materialise codec key payload = .ok (c', c.carried codec key payload) ∧
        Holding plain' c' ∧ c'.blindCacheBytes ≤ blindCacheBudget ∧
        SameCounts (c.countFrame codec key payload) c' ∧
        (Genuine codec plain key payload → plain' = plain) := fun hok =>
    ⟨_, plain, hok, hcounted, hcountedBudget, hsame, fun _ => rfl⟩
  cases hframe : codec.decodeChunkFrame payload with
  | none =>
    refine hunchanged ?_
    simp only [BlindCache.materialise, carried, countFrame, hframe]
    rfl
  | some frame =>
    by_cases href : frame.refOnly = true
    · refine hunchanged ?_
      simp only [BlindCache.materialise, carried, countFrame, hframe, href, if_true]
      cases (blindIdFromKey key).bind fun id => c.blindCache.lookup id <;> rfl
    · have hslice : slice payload codec.chunkFrameHeaderLen payload.length =
          .ok (payload.drop codec.chunkFrameHeaderLen) := by
        rw [slice_of_le (hcodec payload frame hframe) (Nat.le_refl _), List.take_of_length_le]
        rw [List.length_drop]
      have hcount : c.countFrame codec key payload =
          c.countEntry (frame.devId, frame.segmentSeq) := by
        simp only [countFrame, hframe, href, Bool.false_eq_true, if_false]
      cases hplain : decrypt codec (payload.drop codec.chunkFrameHeaderLen) with
      | none =>
        refine hunchanged ?_
        simp only [BlindCache.materialise, carried, hcount, hframe, href, Bool.false_eq_true,
          if_false, hslice, ok_bind, hplain]
        rfl
      | some p =>
        cases hkey : blindIdFromKey key with
        | none =>
          refine hunchanged ?_
          simp only [BlindCache.materialise, carried, hcount, hframe, href, Bool.false_eq_true,
            if_false, hslice, ok_bind, hplain, hkey]
          rfl
        | some id =>
          obtain ⟨c', hc', hcounts, hholding, hwithin⟩ := hcounted.cacheInsert_budget id p
          refine ⟨c', _, ?_, hholding, hwithin, hcounts, fun hgenuine => ?_⟩
          · rw [hcount] at hc'
            simp only [BlindCache.materialise, carried, hframe, href, Bool.false_eq_true,
              if_false, hslice, ok_bind, hplain, hkey]
            show ((c.countEntry (frame.devId, frame.segmentSeq)).cacheInsert id p >>= fun self =>
              pure (self, some (frame, p))) = _
            rw [hc']
            rfl
          · have hid := hgenuine frame p id hframe (Bool.not_eq_true _ ▸ href) hplain hkey
            rw [hid, Function.update_eq_self]

end BlindCache

/-! ## The calls -/

/-- The entry of a batch as a call, if it can be decrypted. -/
def BatchEntry.call? (codec : Codec) (env : Nat → Environment) (segment : SegmentKey)
    (e : BatchEntry × Nat) : Option Call :=
  (decrypt codec e.1.payload).map (.placeRaw (env e.2) segment e.1.startOffset)

/-- The calls a step of a task comes to. -/
def TaskStep.calls (codec : WireCodec) (self : Subscriber) : TaskStep → List Call
  | data env key payload =>
    match self.receiver.blind.carried codec.toCodec key payload with
    | some (frame, p) => [.placeRaw env (frame.devId, frame.segmentSeq) frame.startOffset p]
    | none => []
  | batch env payload =>
    match codec.decodeChunkBatch payload with
    | some b => b.entries.zipIdx.filterMap (BatchEntry.call? codec.toCodec env b.segment)
    | none => []
  | sealSignal payload =>
    match codec.decodeSealFrame payload with
    | some frame => [.sealFrame (frame.devId, frame.segmentSeq) frame.sealedSize]
    | none => []
  | finish =>
    match self.sealTask with
    | .removing gq => [.remove gq.key]
    | _ => []
  | _ => []

variable {codec : WireCodec} {crc32 : List UInt8 → UInt32} {fs : FileSystem} {self : Subscriber}
  {crash : FileSystem → Prop} {P : FileSystem → Reassembler → Prop}

/-- What a call of a step is. -/
theorem TaskStep.mem_calls {e : TaskStep} {c : Call} (hc : c ∈ e.calls codec self) :
    (∃ env key payload frame p, e = data env key payload ∧
      self.receiver.blind.carried codec.toCodec key payload = some (frame, p) ∧
      c = .placeRaw env (frame.devId, frame.segmentSeq) frame.startOffset p) ∨
    (∃ env payload b entry n p, e = batch env payload ∧
      codec.decodeChunkBatch payload = some b ∧ entry ∈ b.entries ∧
      decrypt codec.toCodec entry.payload = some p ∧
      c = .placeRaw (env n) b.segment entry.startOffset p) ∨
    (∃ payload key sealedSize, e = sealSignal payload ∧ c = .sealFrame key sealedSize) ∨
    ∃ gq, e = finish ∧ self.sealTask = .removing gq ∧ c = .remove gq.key := by
  cases e with
  | data env key payload =>
    cases hcarried : self.receiver.blind.carried codec.toCodec key payload with
    | none => simp [calls, hcarried] at hc
    | some placed =>
      obtain ⟨frame, p⟩ := placed
      simp only [calls, hcarried, List.mem_singleton] at hc
      exact Or.inl ⟨env, key, payload, frame, p, rfl, hcarried, hc⟩
  | batch env payload =>
    cases hbatch : codec.decodeChunkBatch payload with
    | none => simp [calls, hbatch] at hc
    | some b =>
      simp only [calls, hbatch] at hc
      obtain ⟨⟨entry, n⟩, hentry, hcall⟩ := List.mem_filterMap.mp hc
      obtain ⟨p, hp, rfl⟩ := Option.map_eq_some_iff.mp hcall
      refine Or.inr (Or.inl ⟨env, payload, b, entry, n, p, rfl, hbatch, ?_, hp, rfl⟩)
      exact List.fst_mem_of_mem_zipIdx hentry
  | sealSignal payload =>
    cases hframe : codec.decodeSealFrame payload with
    | none => simp [calls, hframe] at hc
    | some frame =>
      simp only [calls, hframe, List.mem_singleton] at hc
      exact Or.inr (Or.inr (Or.inl ⟨payload, _, _, rfl, hc⟩))
  | finish =>
    cases htask : self.sealTask with
    | removing gq =>
      simp only [calls, htask, List.mem_singleton] at hc
      exact Or.inr (Or.inr (Or.inr ⟨gq, rfl, rfl, hc⟩))
    | waiting => simp [calls, htask] at hc
    | asking gq sealedSize attempt => simp [calls, htask] at hc
    | verifying gq sealedSize attempt ticks => simp [calls, htask] at hc
  | replies rs => exact nomatch hc
  | tick => exact nomatch hc
  | query key => exact nomatch hc

theorem holds_receive_nil {r : Reassembler} :
    (receive crc32 []).Holds crash (.returns fun _ t r' => P t r') fs r ↔ P fs r :=
  holds_pure ()

theorem holds_receive_cons {c : Call} {calls : List Call} {r : Reassembler} :
    (receive crc32 (c :: calls)).Holds crash (.returns fun _ t r' => P t r') fs r ↔
      (c.perform crc32).Holds crash (.returns fun _ t r' =>
        (receive crc32 calls).Holds crash (.returns fun _ t r' => P t r') t r') fs r := by
  show (c.perform crc32 >>= fun _ => receive crc32 calls).Holds crash _ fs r ↔ _
  rw [holds_bind]
  rfl

theorem holds_receive_one {c : Call} {r : Reassembler} :
    (receive crc32 [c]).Holds crash (.returns fun _ t r' => P t r') fs r ↔
      (c.perform crc32).Holds crash (.returns fun _ t r' => P t r') fs r := by
  rw [holds_receive_cons]
  simp only [holds_receive_nil]

theorem onChunkFrame_of_calls {env : Environment} {key payload : List UInt8} {c' : BlindCache}
    (hok : self.receiver.blind.materialise codec.toCodec key payload =
      .ok (c', self.receiver.blind.carried codec.toCodec key payload))
    (h : (receive crc32 ((TaskStep.data env key payload).calls codec self)).Holds crash
      (.returns fun _ t r => P t r) fs self.receiver.reassembler) :
    (onChunkFrame codec.toCodec env key payload).Holds crash
      (.returns fun _ t self' => P t self'.reassembler ∧ self'.blind = c') fs self.receiver := by
  rw [holds_onChunkFrame, hok]
  cases hcarried : self.receiver.blind.carried codec.toCodec key payload with
  | none =>
    simp only [TaskStep.calls, hcarried, holds_receive_nil] at h
    exact ⟨h, rfl⟩
  | some placed =>
    obtain ⟨frame, p⟩ := placed
    simp only [TaskStep.calls, hcarried, holds_receive_one] at h
    exact h.imp_returns fun _ t r hP => ⟨hP, rfl⟩

/-- The entries of a batch, one by one. -/
theorem batchEntries_of_calls {env : Nat → Environment} {segment : SegmentKey}
    (entries : List (BatchEntry × Nat)) : ∀ (fs : FileSystem) (receiver : Receiver),
    (receive crc32 (entries.filterMap (BatchEntry.call? codec.toCodec env segment))).Holds crash
      (.returns fun _ t r => P t r) fs receiver.reassembler →
    (entries.forM fun e =>
      onBatchEntry codec.toCodec (env e.2) segment.1 segment.2 e.1).Holds crash
      (.returns fun _ t self' => P t self'.reassembler ∧
        self'.blind = entries.foldl (fun blind _ => blind.countEntry segment) receiver.blind)
      fs receiver := by
  induction entries with
  | nil => exact fun fs receiver h => (holds_pure ()).mpr ⟨holds_receive_nil.mp h, rfl⟩
  | cons e entries ih =>
    intro fs receiver h
    rw [List.forM_eq_forM, List.forM_cons, holds_bind, holds_onBatchEntry]
    cases hplain : decrypt codec.toCodec e.1.payload with
    | none =>
      have hnone : BatchEntry.call? codec.toCodec env segment e = none := by
        rw [BatchEntry.call?, hplain]
        rfl
      rw [List.filterMap_cons_none hnone] at h
      exact ih fs _ h
    | some p =>
      have hsome : BatchEntry.call? codec.toCodec env segment e =
          some (.placeRaw (env e.2) segment e.1.startOffset p) := by
        rw [BatchEntry.call?, hplain]
        rfl
      rw [List.filterMap_cons_some hsome, holds_receive_cons] at h
      have hplace : (Reassembler.placeRaw (env e.2) segment.1 segment.2 e.1.startOffset p).Holds
          crash _ fs receiver.reassembler := h
      exact hplace.mono (fun _ ht => ht) (fun _ t r hrest => ih t _ hrest) (fun _ _ h => h)
        fun h => h

/-- The counters with a batch that has come. -/
def BlindCache.countBatch (codec : Codec) (self : BlindCache) (payload : List UInt8) : BlindCache :=
  match codec.decodeChunkBatch payload with
  | some b => b.entries.foldl (fun blind _ => blind.countEntry b.segment) self
  | none => { self with unframedDropped := self.unframedDropped + 1 }

theorem BlindCache.sameCache_countBatch (codec : Codec) (c : BlindCache) (payload : List UInt8) :
    SameCache c (c.countBatch codec payload) := by
  have hentries : ∀ (entries : List BatchEntry) (segment : SegmentKey) (c : BlindCache),
      SameCache c (entries.foldl (fun blind _ => blind.countEntry segment) c) := by
    intro entries segment
    induction entries with
    | nil => exact SameCache.refl
    | cons e entries ih =>
      intro c
      have hfirst : SameCache c (c.countEntry segment) := ⟨rfl, rfl, rfl⟩
      exact hfirst.trans (ih _)
  unfold countBatch
  split
  · exact hentries _ _ c
  · exact ⟨rfl, rfl, rfl⟩

theorem onBatchFrame_of_calls {env : Nat → Environment} {payload : List UInt8}
    (h : (receive crc32 ((TaskStep.batch env payload).calls codec self)).Holds crash
      (.returns fun _ t r => P t r) fs self.receiver.reassembler) :
    (onBatchFrame codec.toCodec env payload).Holds crash
      (.returns fun _ t self' => P t self'.reassembler ∧
        self'.blind = self.receiver.blind.countBatch codec.toCodec payload) fs self.receiver := by
  have hfold : ∀ (entries : List BatchEntry) (segment : SegmentKey) (k : Nat) (c : BlindCache),
      (entries.zipIdx k).foldl (fun blind _ => blind.countEntry segment) c =
        entries.foldl (fun blind _ => blind.countEntry segment) c := by
    intro entries segment
    induction entries with
    | nil => exact fun _ _ => rfl
    | cons e entries ih => exact fun k c => ih (k + 1) _
  unfold onBatchFrame BlindCache.countBatch
  unfold TaskStep.calls at h
  cases hbatch : codec.decodeChunkBatch payload with
  | none =>
    simp only [hbatch, holds_receive_nil] at h
    exact (holds_modify _).mpr ⟨h, rfl⟩
  | some b =>
    simp only [hbatch] at h
    refine (batchEntries_of_calls b.entries.zipIdx fs self.receiver h).imp_returns ?_
    rintro - t self' ⟨hP, hblind⟩
    exact ⟨hP, hblind.trans (hfold b.entries b.segment 0 _)⟩

/-! ## The steps -/

/-- What a step does to the cache. -/
def TaskStep.CacheStep (codec : WireCodec) (c c' : BlindCache) : TaskStep → Prop
  | data _ key payload => c.materialise codec.toCodec key payload =
      .ok (c', c.carried codec.toCodec key payload)
  | batch _ payload => c' = c.countBatch codec.toCodec payload
  | finish => ∃ key, c' = { c with framesBySegment := c.framesBySegment.erase key }
  | _ => c' = c

/-- Where the task for the seal signals is after a step. -/
def TaskStep.nextTask (codec : WireCodec) (self : Subscriber) : TaskStep → SealTask
  | sealSignal payload =>
    match codec.decodeSealFrame payload with
    | some frame => .sealed (self.receiver.reassembler.gapRequest
        (frame.devId, frame.segmentSeq) frame.sealedSize) frame.sealedSize
    | none => self.sealTask
  | replies rs => self.sealTask.replied rs
  | tick => self.sealTask.verify self.receiver.reassembler
  | finish => .waiting
  | _ => self.sealTask

/-- **A step of a task** does to the reassembler what its calls do. -/
theorem TaskStep.holds_perform {e : TaskStep}
    (henabled : e.enabled self.sealTask = true)
    (hcache : ∀ env key payload, e = data env key payload → ∃ c',
      self.receiver.blind.materialise codec.toCodec key payload =
        .ok (c', self.receiver.blind.carried codec.toCodec key payload))
    (h : (receive crc32 (e.calls codec self)).Holds crash (.returns fun _ t r => P t r)
      fs self.receiver.reassembler) :
    (e.perform codec crc32).Holds crash
      (.returns fun _ t self' => P t self'.receiver.reassembler ∧
        e.CacheStep codec self.receiver.blind self'.receiver.blind ∧
        self'.sealTask = e.nextTask codec self) fs self := by
  cases e with
  | data env key payload =>
    obtain ⟨c', hok⟩ := hcache env key payload rfl
    refine holds_zoom.mpr ((onChunkFrame_of_calls hok h).imp_returns ?_)
    rintro - t receiver ⟨hP, rfl⟩
    exact ⟨hP, hok, rfl⟩
  | batch env payload =>
    refine holds_zoom.mpr ((onBatchFrame_of_calls h).imp_returns ?_)
    rintro - t receiver ⟨hP, hblind⟩
    exact ⟨hP, hblind, rfl⟩
  | sealSignal payload =>
    cases hframe : codec.decodeSealFrame payload with
    | none =>
      simp only [calls, hframe, holds_receive_nil] at h
      simp only [perform, nextTask, hframe]
      exact (holds_pure ()).mpr ⟨h, rfl, rfl⟩
    | some frame =>
      simp only [calls, hframe, holds_receive_one] at h
      simp only [perform, nextTask, hframe]
      have hseal : (Reassembler.onSealFrame crc32 frame.devId frame.segmentSeq
          frame.sealedSize).Holds crash (.returns fun _ t r => P t r) fs
          self.receiver.reassembler := by
        refine (holds_bind.mp h).mono (fun _ ht => ht) ?_ (fun _ _ h => h) fun h => h
        exact fun _ t r hP => (holds_pure ()).mp hP
      have hrequest := Reassembler.holds_onSealFrame crc32 (frame.devId, frame.segmentSeq)
        frame.sealedSize fs self.receiver.reassembler
      refine holds_bind.mpr (holds_zoom.mpr ((hseal.and_returns hrequest).imp_returns ?_))
      rintro request t r ⟨hP, -, rfl, -⟩
      exact (holds_modify _).mpr ⟨hP, rfl, rfl⟩
  | replies rs => exact (holds_modify _).mpr ⟨holds_receive_nil.mp h, rfl, rfl⟩
  | tick => exact (holds_modify _).mpr ⟨holds_receive_nil.mp h, rfl, rfl⟩
  | finish =>
    cases htask : self.sealTask with
    | removing gq =>
      simp only [calls, htask, holds_receive_one] at h
      have hremove : (perform codec crc32 finish).Holds crash (.returns fun _ t self' =>
          P t self'.receiver.reassembler ∧
            CacheStep codec self.receiver.blind self'.receiver.blind finish ∧
            self'.sealTask = .waiting) fs self := by
        unfold perform
        rw [holds_get_bind, htask]
        refine holds_bind.mpr (holds_zoom.mpr (Holds.imp_returns h ?_))
        intro _ t r hP
        exact (holds_modify _).mpr ⟨hP, ⟨gq.key, rfl⟩, rfl⟩
      exact hremove
    | waiting => simp [enabled, htask] at henabled
    | asking gq sealedSize attempt => simp [enabled, htask] at henabled
    | verifying gq sealedSize attempt ticks => simp [enabled, htask] at henabled
  | query key => exact (holds_pure ()).mpr ⟨holds_receive_nil.mp h, rfl, rfl⟩

end SovProbe
