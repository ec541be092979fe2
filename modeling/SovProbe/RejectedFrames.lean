import SovProbe.BlindCache
import SovProbe.HarmlessChunks

/-! # Frames that fail a check

A frame that does not decode or decrypt, or refers to a plaintext that is not in the cache,
is given up before anything is placed.  A plaintext of another length than the header says
is only logged and placed like any other, so that it leaves the segments alone exactly when
it happens to be harmless.

The same goes for the entries of a batch.  Where those of a wrong length are harmless, the
others have the effect they would have by themselves, since a harmless chunk leaves the
receiver alike.
-/

namespace SovProbe
open Process Checked

/-! ## What a frame carries -/

namespace BlindCache
variable {codec : Codec} {plain : BlindId → List UInt8} {c : BlindCache} {key payload : List UInt8}

/-- The plaintext of a frame: its own, or the one it refers to, if it can be had. -/
def carried (codec : Codec) (self : BlindCache) (key payload : List UInt8) :
    Option (ChunkFrame × List UInt8) :=
  match codec.decodeChunkFrame payload with
  | none => none
  | some frame =>
    if frame.refOnly then
      ((blindIdFromKey key).bind fun id => self.blindCache.lookup id).map fun p => (frame, p)
    else (decrypt codec (payload.drop codec.chunkFrameHeaderLen)).map fun p => (frame, p)

/-- **What is to be placed** is what the frame carries, unless it is too short to have a
header. -/
theorem Holding.materialise (h : Holding plain c) (codec : Codec) (key payload : List UInt8) :
    (∃ c' plain', c.materialise codec key payload = .ok (c', c.carried codec key payload) ∧
      Holding plain' c') ∨
    (∃ e, c.materialise codec key payload = .error e) ∧ c.carried codec key payload = none := by
  unfold BlindCache.materialise carried
  cases hframe : codec.decodeChunkFrame payload with
  | none => exact Or.inl ⟨_, plain, rfl, h.lookup, h.bytes, h.nodup⟩
  | some frame =>
    dsimp only
    by_cases href : frame.refOnly = true
    · rw [if_pos href, if_pos href]
      cases (blindIdFromKey key).bind fun id => c.blindCache.lookup id with
      | none => exact Or.inl ⟨_, plain, rfl, h.lookup, h.bytes, h.nodup⟩
      | some b => exact Or.inl ⟨_, plain, rfl, h.lookup, h.bytes, h.nodup⟩
    · rw [if_neg href, if_neg href]
      by_cases hlen : codec.chunkFrameHeaderLen ≤ payload.length
      · have hslice : slice payload codec.chunkFrameHeaderLen payload.length =
            .ok (payload.drop codec.chunkFrameHeaderLen) := by
          rw [slice_of_le hlen (Nat.le_refl _), List.take_of_length_le]
          rw [List.length_drop]
        rw [hslice, ok_bind]
        cases decrypt codec (payload.drop codec.chunkFrameHeaderLen) with
        | none => exact Or.inl ⟨_, plain, rfl, h.lookup, h.bytes, h.nodup⟩
        | some p =>
          cases blindIdFromKey key with
          | none => exact Or.inl ⟨_, plain, rfl, h.lookup, h.bytes, h.nodup⟩
          | some id =>
            have hcounted : Holding plain { c with
                totalChunks := c.totalChunks + 1
                framesBySegment := c.framesBySegment.insert (frame.devId, frame.segmentSeq)
                  ((c.framesBySegment.lookup (frame.devId, frame.segmentSeq)).getD 0 + 1) } :=
              ⟨h.lookup, h.bytes, h.nodup⟩
            obtain ⟨c', hc', -, hholding, -⟩ := hcounted.cacheInsert id p
            refine Or.inl ⟨c', _, ?_, hholding⟩
            dsimp only
            rw [hc', ok_bind]
            rfl
      · -- the slice panics, and nothing is left to decrypt
        have hslice : slice payload codec.chunkFrameHeaderLen payload.length =
            .error .rangeOutOfBounds := if_neg fun h => hlen h.1
        have hempty : payload.drop codec.chunkFrameHeaderLen = [] :=
          List.drop_eq_nil_of_le (Nat.le_of_not_le hlen)
        rw [hslice, hempty]
        exact Or.inr ⟨⟨_, rfl⟩, rfl⟩

end BlindCache

/-! ## The receiver, frame by frame -/

/-- A receiver that has not got anything. -/
def Receiver.new : Receiver := { blind := {}, reassembler := .new }

/-- What the receiver is told to do. -/
inductive Message where
  | chunk (env : Environment) (key payload : List UInt8)
  | batch (env : Nat → Environment) (payload : List UInt8)
  | sealFrame (key : SegmentKey) (sealedSize : Nat)
  | remove (key : SegmentKey)

namespace Message

/-- What the receiver does with the message. -/
def perform (codec : Codec) (crc32 : List UInt8 → UInt32) :
    Message → Process FileSystem Receiver Unit
  | chunk env key payload => onChunkFrame codec env key payload
  | batch env payload => onBatchFrame codec env payload
  | sealFrame key sealedSize => do
    let _ ← zoom (fun self : Receiver => self.reassembler)
      (fun r self => { self with reassembler := r })
      (Reassembler.onSealFrame crc32 key.1 key.2 sealedSize)
  | remove key =>
    zoom (fun self => self.reassembler) (fun r self => { self with reassembler := r })
      (Reassembler.removeSegment key.1 key.2)

/-- A message that is dealt with to the end. -/
def step (codec : Codec) (crc32 : List UInt8 → UInt32) (s : FileSystem × Receiver) (m : Message) :
    Option (FileSystem × Receiver) := (m.perform codec crc32 s.1 s.2).outcome.state?

end Message

/-- What the receiver relies on. -/
structure Receiver.Sound (receiver : Receiver) : Prop where
  counted : receiver.reassembler.Counted
  within : receiver.reassembler.Within
  holding : ∃ plain, BlindCache.Holding plain receiver.blind

/-- However the process ends, all segments are as they were. -/
def LeavesSegments (x : Process FileSystem Receiver Unit) (s : FileSystem × Receiver) : Prop :=
  x.Holds (fun _ => True)
    ⟨fun _ t self => SameSegments (s.1, s.2.reassembler) (t, self.reassembler),
      fun t self => SameSegments (s.1, s.2.reassembler) (t, self.reassembler), False⟩ s.1 s.2

theorem SameSegments.refl (s : FileSystem × Reassembler) : SameSegments s s :=
  ⟨fun _ => rfl, fun _ => rfl⟩

variable {codec : Codec} {crc32 : List UInt8 → UInt32} {env : Environment} {fs t : FileSystem}
  {self self' : Receiver} {key payload : List UInt8} {s : FileSystem × Receiver}
  {crash : FileSystem → Prop} {post : Post FileSystem Receiver Unit}

/-- **`on_chunk_frame`** places what it has materialised. -/
theorem holds_onChunkFrame : (onChunkFrame codec env key payload).Holds crash post fs self ↔
    match self.blind.materialise codec key payload with
    | .error _ => post.failed fs self
    | .ok (blind, none) => post.done () fs { self with blind }
    | .ok (blind, some (frame, p)) =>
      (Reassembler.placeRaw env frame.devId frame.segmentSeq frame.startOffset p).Holds crash
        ⟨fun _ t r => post.done () t ⟨blind, r⟩, fun t r => post.failed t ⟨blind, r⟩, post.running⟩
        fs self.reassembler := by
  unfold onChunkFrame
  rw [holds_get_bind]
  cases self.blind.materialise codec key payload with
  | error e => exact holds_fail
  | ok placed =>
    obtain ⟨blind, _ | ⟨frame, p⟩⟩ := placed
    · exact holds_modify_bind.trans (holds_pure _)
    · exact holds_modify_bind.trans holds_zoom

/-- What an entry of a batch does to the counters. -/
def BlindCache.countEntry (self : BlindCache) (key : SegmentKey) : BlindCache :=
  { self with
    totalChunks := self.totalChunks + 1
    framesBySegment := self.framesBySegment.insert key
      ((self.framesBySegment.lookup key).getD 0 + 1) }

/-- **An entry** of a batch is placed if it can be decrypted. -/
theorem holds_onBatchEntry {segment : SegmentKey} {entry : BatchEntry} :
    (onBatchEntry codec env segment.1 segment.2 entry).Holds crash post fs self ↔
    match decrypt codec entry.payload with
    | none => post.done () fs { self with blind := self.blind.countEntry segment }
    | some p =>
      (Reassembler.placeRaw env segment.1 segment.2 entry.startOffset p).Holds crash
        ⟨fun _ t r => post.done () t ⟨self.blind.countEntry segment, r⟩,
          fun t r => post.failed t ⟨self.blind.countEntry segment, r⟩, post.running⟩
        fs self.reassembler := by
  unfold onBatchEntry
  rw [holds_modify_bind]
  cases decrypt codec entry.payload with
  | none => exact holds_pure _
  | some p => exact holds_zoom

namespace Receiver
open Reassembler

theorem Sound.new : Receiver.new.Sound where
  counted := Counted.new
  within := Within.new
  holding := ⟨fun _ => [], BlindCache.Windowed.empty.toHolding⟩

/-- **`on_chunk_frame`** leaves all segments as they were exactly when what the frame carries
is harmless. -/
theorem Sound.leaves_chunk_iff (h : self.Sound) :
    LeavesSegments (onChunkFrame codec env key payload) (fs, self) ↔
      ∀ frame p, self.blind.carried codec key payload = some (frame, p) →
      self.reassembler.Harmless (env.position 0) (frame.devId, frame.segmentSeq)
        frame.startOffset p := by
  obtain ⟨plain, hholding⟩ := h.holding
  rw [LeavesSegments, holds_onChunkFrame]
  rcases hholding.materialise codec key payload with ⟨blind, -, hok, -⟩ | ⟨⟨e, herror⟩, hnone⟩
  · rw [hok]
    cases self.blind.carried codec key payload with
    | none => exact iff_of_true (SameSegments.refl _) nofun
    | some placed =>
      obtain ⟨frame, p⟩ := placed
      obtain ⟨t, r, hdone, -, -, hiff, -⟩ := h.counted.placeRaw_changes h.within env
        (frame.devId, frame.segmentSeq) frame.startOffset p fs
      refine (holds_iff_of_done hdone).trans (hiff.trans ?_)
      constructor
      · rintro hharmless _ _ ⟨⟩
        exact hharmless
      · intro hall
        exact hall frame p rfl
  · rw [herror, hnone]
    exact iff_of_true (SameSegments.refl _) nofun

/-- And it leaves the receiver sound. -/
theorem Sound.holds_chunk (h : self.Sound) : (onChunkFrame codec env key payload).Holds
    (fun _ => True) (.ifDone fun _ _ self' => self'.Sound) fs self := by
  obtain ⟨plain, hholding⟩ := h.holding
  rw [holds_onChunkFrame]
  rcases hholding.materialise codec key payload with
    ⟨blind, plain', hok, hholding'⟩ | ⟨⟨e, herror⟩, -⟩
  · rw [hok]
    cases self.blind.carried codec key payload with
    | none => exact ⟨h.counted, h.within, plain', hholding'⟩
    | some placed =>
      obtain ⟨frame, p⟩ := placed
      obtain ⟨t, r, hdone, hcounted, hwithin, -⟩ := h.counted.placeRaw_changes h.within env
        (frame.devId, frame.segmentSeq) frame.startOffset p fs
      exact (holds_iff_of_done hdone).mpr ⟨hcounted, hwithin, plain', hholding'⟩
  · rw [herror]
    trivial

end Receiver

/-! ## Batches -/

/-- The entry decrypts to a plaintext of the length its header says. -/
def BatchEntry.valid (codec : Codec) (entry : BatchEntry) : Bool :=
  match decrypt codec entry.payload with
  | some p => p.length == entry.chunkLen.toNat
  | none => false

/-- An entry of the batch, with its number. -/
def ChunkBatch.step (codec : Codec) (env : Nat → Environment) (batch : ChunkBatch)
    (s : FileSystem × Receiver) (e : BatchEntry × Nat) : Option (FileSystem × Receiver) :=
  (onBatchEntry codec (env e.2) batch.devId batch.segmentSeq e.1 s.1 s.2).outcome.state?

/-- A plaintext of the wrong length is harmless. -/
def BatchEntry.Spared (codec : Codec) (env : Environment) (segment : SegmentKey)
    (self : Receiver) (entry : BatchEntry) : Prop :=
  ∀ p, decrypt codec entry.payload = some p → p.length ≠ entry.chunkLen.toNat →
    self.reassembler.Harmless (env.position 0) segment entry.startOffset p

/-- An entry that passes its checks is none of those. -/
theorem BatchEntry.spared_of_valid {segment : SegmentKey} {entry : BatchEntry}
    (h : ¬ entry.valid codec = false) : entry.Spared codec env segment self := by
  intro p hp hlen
  refine absurd ?_ h
  unfold valid
  rw [hp]
  exact beq_eq_false_iff_ne.mpr hlen

namespace Receiver
open Reassembler

/-- **An entry** returns and leaves the receiver sound; one that fails a check leaves all
segments as they were exactly when a plaintext of the wrong length is harmless, and then the
receiver is alike. -/
theorem Sound.batchEntry (h : self.Sound) (codec : Codec) (env : Environment)
    (segment : SegmentKey) (entry : BatchEntry) (fs : FileSystem) :
    ∃ t self', (onBatchEntry codec env segment.1 segment.2 entry fs self).outcome =
      .done () t self' ∧ self'.Sound ∧ (entry.valid codec = false →
        (LeavesSegments (onBatchEntry codec env segment.1 segment.2 entry) (fs, self) ↔
          entry.Spared codec env segment self) ∧
        (entry.Spared codec env segment self →
          t = fs ∧ Alike segment self.reassembler self'.reassembler)) := by
  have hcounted : ∀ r, r.Counted → r.Within →
      Sound ⟨self.blind.countEntry segment, r⟩ := fun r hr hwithin => by
    obtain ⟨plain, hholding⟩ := h.holding
    exact ⟨hr, hwithin, plain, hholding.lookup, hholding.bytes, hholding.nodup⟩
  unfold LeavesSegments
  simp only [holds_onBatchEntry]
  unfold BatchEntry.valid BatchEntry.Spared
  cases hplain : decrypt codec entry.payload with
  | none =>
    have hdone : (onBatchEntry codec env segment.1 segment.2 entry).Holds (fun _ => True)
        (.returns fun _ t self' => t = fs ∧
          self' = { self with blind := self.blind.countEntry segment }) fs self := by
      rw [holds_onBatchEntry, hplain]
      exact ⟨rfl, rfl⟩
    obtain ⟨_, _, _, hrun, rfl, rfl⟩ := hdone.returned
    refine ⟨_, _, hrun, hcounted _ h.counted h.within, fun _ => ⟨?_, fun _ => ?_⟩⟩
    · exact iff_of_true (SameSegments.refl _) nofun
    · exact ⟨rfl, Alike.refl _ _⟩
  | some p =>
    obtain ⟨t, r, hdone, hr, hwithin, hiff, halike⟩ :=
      h.counted.placeRaw_changes h.within env segment entry.startOffset p fs
    have hentry : (onBatchEntry codec env segment.1 segment.2 entry).Holds (fun _ => True)
        (.returns fun _ t' self' => t' = t ∧ self' = ⟨self.blind.countEntry segment, r⟩)
        fs self := by
      rw [holds_onBatchEntry, hplain]
      exact (holds_iff_of_done hdone).mpr ⟨rfl, rfl⟩
    obtain ⟨_, _, _, hrun, rfl, rfl⟩ := hentry.returned
    refine ⟨_, _, hrun, hcounted r hr hwithin, fun hinvalid => ?_⟩
    have hlen : p.length ≠ entry.chunkLen.toNat := beq_eq_false_iff_ne.mp hinvalid
    have hspared : (∀ p', some p = some p' → p'.length ≠ entry.chunkLen.toNat →
        self.reassembler.Harmless (env.position 0) segment entry.startOffset p') ↔
          self.reassembler.Harmless (env.position 0) segment entry.startOffset p := by
      constructor
      · intro hall
        exact hall p rfl hlen
      · rintro hharmless _ ⟨⟩ -
        exact hharmless
    rw [hspared]
    exact ⟨(holds_iff_of_done hdone).trans hiff, halike⟩

/-- **The same entry** leaves receivers that are alike alike. -/
theorem Sound.batchEntry_alike (h : self.Sound) (h' : self'.Sound) {segment : SegmentKey}
    (halike : Alike segment self.reassembler self'.reassembler) (codec : Codec) (env : Environment)
    (entry : BatchEntry) (fs : FileSystem) :
    ∃ t u u', (onBatchEntry codec env segment.1 segment.2 entry fs self).outcome = .done () t u ∧
      (onBatchEntry codec env segment.1 segment.2 entry fs self').outcome = .done () t u' ∧
      Alike segment u.reassembler u'.reassembler := by
  have hentry : ∀ (receiver : Receiver) (t : FileSystem) (r : Reassembler),
      (match decrypt codec entry.payload with
        | none => t = fs ∧ r = receiver.reassembler
        | some p => (placeRaw env segment.1 segment.2 entry.startOffset p fs
            receiver.reassembler).outcome = .done () t r) →
      (onBatchEntry codec env segment.1 segment.2 entry fs receiver).outcome =
        .done () t ⟨receiver.blind.countEntry segment, r⟩ := by
    intro receiver t r hplain
    have hholds : (onBatchEntry codec env segment.1 segment.2 entry).Holds (fun _ => True)
        (.returns fun _ t' u => t' = t ∧ u = ⟨receiver.blind.countEntry segment, r⟩)
        fs receiver := by
      rw [holds_onBatchEntry]
      split at hplain
      · obtain ⟨rfl, rfl⟩ := hplain
        exact ⟨rfl, rfl⟩
      · exact (holds_iff_of_done hplain).mpr ⟨rfl, rfl⟩
    obtain ⟨_, _, _, hdone, rfl, rfl⟩ := hholds.returned
    exact hdone
  cases hplain : decrypt codec entry.payload with
  | none =>
    refine ⟨fs, _, _, hentry self fs _ ?_, hentry self' fs _ ?_, halike⟩ <;> rw [hplain] <;>
      exact ⟨rfl, rfl⟩
  | some p =>
    obtain ⟨t, u, u', hu, hu', hend⟩ :=
      halike.after_placeRaw h.counted h'.counted env entry.startOffset p fs
    refine ⟨t, _, _, hentry self t u ?_, hentry self' t u' ?_, hend⟩ <;> rw [hplain]
    · exact hu
    · exact hu'

end Receiver

namespace ChunkBatch
open Reassembler Receiver
variable {batch : ChunkBatch} {envs : Nat → Environment}

/-- The segment of the batch. -/
def segment (batch : ChunkBatch) : SegmentKey := (batch.devId, batch.segmentSeq)

theorem step_sound (h : s.2.Sound) (codec : Codec) (envs : Nat → Environment) (batch : ChunkBatch)
    (e : BatchEntry × Nat) : ∃ t, batch.step codec envs s e = some t ∧ t.2.Sound := by
  obtain ⟨t, self', hdone, hsound, -⟩ := h.batchEntry codec (envs e.2) batch.segment e.1 s.1
  exact ⟨(t, self'), Outcome.state?_eq_some.mpr ⟨(), hdone⟩, hsound⟩

theorem run_sound {u : FileSystem × Receiver} {l : List (BatchEntry × Nat)} (h : s.2.Sound)
    (hrun : Transition.run (batch.step codec envs) s l = some u) : u.2.Sound := by
  have hstep : ∀ (s : FileSystem × Receiver) (e : BatchEntry × Nat), s.2.Sound →
      ∃ t, batch.step codec envs s e = some t ∧ t.2.Sound :=
    fun s e hs => step_sound hs codec envs batch e
  exact Transition.inv_of_run hstep h hrun

theorem onBatchFrame_state? {payload : List UInt8}
    (hbatch : codec.decodeChunkBatch payload = some batch) :
    (onBatchFrame codec envs payload s.1 s.2).outcome.state? =
      Transition.run (batch.step codec envs) s batch.entries.zipIdx := by
  unfold onBatchFrame
  rw [hbatch]
  exact state?_forM _ _ _ _

/-- **Where the entries that fail a check are spared**, the others have the effect they have
by themselves. -/
theorem run_valid {l : List (BatchEntry × Nat)} : ∀ {fs : FileSystem} {self self' : Receiver},
    self.Sound → self'.Sound → Alike batch.segment self.reassembler self'.reassembler →
    Transition.Guarded (batch.step codec envs)
      (fun s e => e.1.Spared codec (envs e.2) batch.segment s.2) (fs, self') l →
    ∃ t u u', Transition.run (batch.step codec envs) (fs, self') l = some (t, u') ∧
      Transition.run (batch.step codec envs) (fs, self) (l.filter fun e => e.1.valid codec) =
        some (t, u) ∧ Alike batch.segment u.reassembler u'.reassembler := by
  induction l with
  | nil => exact fun _ _ halike _ => ⟨_, _, _, rfl, rfl, halike⟩
  | cons e l ih =>
    intro fs self self' h h' halike hguarded
    obtain ⟨hspared, hrest⟩ := Transition.guarded_cons_iff.mp hguarded
    by_cases hvalid : e.1.valid codec = true
    · -- both runs place it
      obtain ⟨t, u, u', hu, hu', halike₁⟩ :=
        h.batchEntry_alike h' halike codec (envs e.2) e.1 fs
      have hstep : batch.step codec envs (fs, self) e = some (t, u) :=
        Outcome.state?_eq_some.mpr ⟨(), hu⟩
      have hstep' : batch.step codec envs (fs, self') e = some (t, u') :=
        Outcome.state?_eq_some.mpr ⟨(), hu'⟩
      obtain ⟨_, hsound, hs⟩ := step_sound (s := (fs, self)) h codec envs batch e
      obtain ⟨_, hsound', hs'⟩ := step_sound (s := (fs, self')) h' codec envs batch e
      obtain rfl := Option.some.inj (hsound.symm.trans hstep)
      obtain rfl := Option.some.inj (hsound'.symm.trans hstep')
      obtain ⟨t₂, v, v', hv', hv, hend⟩ := ih hs hs' halike₁ (hrest _ hstep')
      refine ⟨t₂, v, v', ?_, ?_, hend⟩
      · rw [Transition.run_cons, hstep', Option.bind_some, hv']
      · rw [List.filter_cons, if_pos hvalid, Transition.run_cons, hstep, Option.bind_some, hv]
    · -- only one run gets it, and it does no harm there
      have hinvalid : e.1.valid codec = false := Bool.eq_false_iff.mpr hvalid
      obtain ⟨t, u', hdone, hsound', hends⟩ := h'.batchEntry codec (envs e.2) batch.segment e.1 fs
      obtain ⟨rfl, halike₁⟩ := (hends hinvalid).2 hspared
      have hstep' : batch.step codec envs (t, self') e = some (t, u') :=
        Outcome.state?_eq_some.mpr ⟨(), hdone⟩
      obtain ⟨t₂, v, v', hv', hv, hend⟩ := ih h hsound' (halike.trans halike₁) (hrest _ hstep')
      refine ⟨t₂, v, v', ?_, ?_, hend⟩
      · rw [Transition.run_cons, hstep', Option.bind_some, hv']
      · rw [List.filter_cons, if_neg hvalid, hv]

end ChunkBatch

/-! ## Runs -/

namespace Message
open Reassembler Receiver

/-- **One message** leaves the receiver sound, if it returns. -/
theorem step_sound {u : FileSystem × Receiver} (h : s.2.Sound) {m : Message}
    (hstep : m.step codec crc32 s = some u) : u.2.Sound := by
  obtain ⟨⟨⟩, hdone⟩ := Outcome.state?_eq_some.mp hstep
  cases m with
  | chunk env key payload => exact h.holds_chunk.done hdone
  | batch envs payload =>
    cases hbatch : codec.decodeChunkBatch payload with
    | none =>
      have hframe : (onBatchFrame codec envs payload).Holds (fun _ => True)
          (.ifDone fun _ _ self => self.Sound) s.1 s.2 := by
        obtain ⟨plain, hholding⟩ := h.holding
        unfold onBatchFrame
        rw [hbatch]
        refine (holds_modify _).mpr ⟨h.counted, h.within, plain, ?_⟩
        exact ⟨hholding.lookup, hholding.bytes, hholding.nodup⟩
      exact hframe.done hdone
    | some batch =>
      have hrun : Transition.run (batch.step codec envs) s batch.entries.zipIdx = some u :=
        (ChunkBatch.onBatchFrame_state? hbatch).symm.trans hstep
      exact ChunkBatch.run_sound h hrun
  | sealFrame key sealedSize =>
    have hseal : ((sealFrame key sealedSize).perform codec crc32).Holds (fun _ => True)
        (.ifDone fun _ _ self => self.Sound) s.1 s.2 := by
      refine holds_bind.mpr (holds_zoom.mpr ?_)
      refine (holds_onSealFrame crc32 key sealedSize s.1 s.2.reassembler).mono (fun _ h => h) ?_
        (fun _ _ h => h.elim) fun h => h.elim
      rintro _ t r ⟨-, -, hsame⟩
      refine (holds_pure _).mpr ⟨(h.counted.sameData hsame).1, ?_, h.holding⟩
      exact h.within.sameContent hsame.content
    exact hseal.done hdone
  | remove key =>
    have hremove : ((remove key).perform codec crc32).Holds (fun _ => True)
        (.ifDone fun _ _ self => self.Sound) s.1 s.2 := by
      refine holds_zoom.mpr ?_
      refine (holds_removeSegment key s.1 s.2.reassembler).mono (fun _ h => h) ?_
        (fun _ _ h => h.elim) fun h => h.elim
      rintro - t r ⟨-, rfl⟩
      exact ⟨h.counted.erase key, h.within.erase key, h.holding⟩
    exact hremove.done hdone

end Message

/-- The frame fails a check: no plaintext can be had, or not one of the length in its header. -/
def BlindCache.Rejects (codec : Codec) (self : BlindCache) (key payload : List UInt8) : Prop :=
  ∀ frame p, self.carried codec key payload = some (frame, p) → p.length ≠ frame.chunkLen.toNat

/-- A plaintext of the wrong length is harmless. -/
def Receiver.SparesChunk (codec : Codec) (env : Environment) (key payload : List UInt8)
    (self : Receiver) : Prop :=
  ∀ frame p, self.blind.carried codec key payload = some (frame, p) →
    p.length ≠ frame.chunkLen.toNat →
    self.reassembler.Harmless (env.position 0) (frame.devId, frame.segmentSeq) frame.startOffset p

/-- And so are those of a batch, when it is their turn. -/
def SparesBatch (codec : Codec) (envs : Nat → Environment) (payload : List UInt8)
    (s : FileSystem × Receiver) : Prop :=
  match codec.decodeChunkBatch payload with
  | none => True
  | some batch =>
    Transition.Guarded (batch.step codec envs)
      (fun s e => e.1.Spared codec (envs e.2) batch.segment s.2) s batch.entries.zipIdx

/-- The entries that fail a check leave all segments as they are when it is their turn, and
the batch leads to the segments to which the others lead by themselves; a batch that does not
decode leaves all segments as they are. -/
def IgnoresRejected (codec : Codec) (envs : Nat → Environment) (payload : List UInt8)
    (s : FileSystem × Receiver) : Prop :=
  match codec.decodeChunkBatch payload with
  | none => LeavesSegments (onBatchFrame codec envs payload) s
  | some batch =>
    Transition.Guarded (batch.step codec envs) (fun s e => e.1.valid codec = false →
      LeavesSegments (onBatchEntry codec (envs e.2) batch.devId batch.segmentSeq e.1) s)
      s batch.entries.zipIdx ∧
    ∃ t u, (onBatchFrame codec envs payload s.1 s.2).outcome.state? = some t ∧
      Transition.run (batch.step codec envs) s
        (batch.entries.zipIdx.filter fun e => e.1.valid codec) = some u ∧
      SameSegments (u.1, u.2.reassembler) (t.1, t.2.reassembler)

namespace Receiver
open Reassembler

theorem Sound.spares_chunk_iff (h : s.2.Sound) :
    (s.2.blind.Rejects codec key payload →
      LeavesSegments (onChunkFrame codec env key payload) s) ↔
        s.2.SparesChunk codec env key payload := by
  have hleaves : LeavesSegments (onChunkFrame codec env key payload) s ↔ _ := h.leaves_chunk_iff
  rw [hleaves]
  unfold BlindCache.Rejects SparesChunk
  constructor
  · intro hall frame p hcarried hlen
    refine hall (fun frame' p' hcarried' => ?_) frame p hcarried
    obtain ⟨rfl, rfl⟩ := Prod.mk.inj (Option.some.inj (hcarried.symm.trans hcarried'))
    exact hlen
  · intro hall hrejects frame p hcarried
    exact hall frame p hcarried (hrejects frame p hcarried)

theorem Sound.spares_batch_iff (h : s.2.Sound) {envs : Nat → Environment} :
    IgnoresRejected codec envs payload s ↔ SparesBatch codec envs payload s := by
  unfold IgnoresRejected SparesBatch
  cases hbatch : codec.decodeChunkBatch payload with
  | none =>
    refine iff_of_true ?_ trivial
    unfold LeavesSegments onBatchFrame
    rw [hbatch]
    exact (holds_modify _).mpr (SameSegments.refl _)
  | some batch =>
    have hguarded : Transition.Guarded (batch.step codec envs) (fun s e => e.1.valid codec = false →
        LeavesSegments (onBatchEntry codec (envs e.2) batch.devId batch.segmentSeq e.1) s)
        s batch.entries.zipIdx ↔ Transition.Guarded (batch.step codec envs)
          (fun s e => e.1.Spared codec (envs e.2) batch.segment s.2) s batch.entries.zipIdx := by
      refine Transition.guarded_congr fun pre e u _ hu => ?_
      by_cases hvalid : e.1.valid codec = false
      · obtain ⟨_, _, -, -, hiff⟩ :=
          (ChunkBatch.run_sound h hu).batchEntry codec (envs e.2) batch.segment e.1 u.1
        exact (forall_prop_of_true hvalid).trans (hiff hvalid).1
      · exact iff_of_true (fun hinvalid => absurd hinvalid hvalid)
          (BatchEntry.spared_of_valid hvalid)
    refine (and_iff_left_of_imp fun hleaves => ?_).trans hguarded
    obtain ⟨t, u, u', hrun, hvalid, halike⟩ :=
      ChunkBatch.run_valid h h (Alike.refl batch.segment _) (hguarded.mp hleaves)
    exact ⟨(t, u'), (t, u), (ChunkBatch.onBatchFrame_state? hbatch).trans hrun, hvalid,
      fun _ => rfl, halike.sameContent⟩

end Receiver

/-- **Frames that fail a check.**  In every state the receiver reaches, a frame that fails a
check leaves all segments as they were exactly when it is not one of a wrong length, or its
plaintext is harmless; and the entries of a batch that fail a check are as if they were not
there exactly when this is so for each of them at its turn. -/
theorem rejected_frames_iff {start : FileSystem} {messages : List Message}
    (hrun : Transition.run (Message.step codec crc32) (start, Receiver.new) messages = some s) :
    (∀ env key payload, (s.2.blind.Rejects codec key payload →
        LeavesSegments (onChunkFrame codec env key payload) s) ↔
          s.2.SparesChunk codec env key payload) ∧
      ∀ envs payload, IgnoresRejected codec envs payload s ↔ SparesBatch codec envs payload s := by
  have hstep : ∀ (s : FileSystem × Receiver) (m : Message) (t : FileSystem × Receiver),
      s.2.Sound → m.step codec crc32 s = some t → t.2.Sound :=
    fun _ _ _ hs hstep => Message.step_sound hs hstep
  have hnew : (start, Receiver.new).2.Sound := Receiver.Sound.new
  have hsound : s.2.Sound := Transition.run_invariant hstep hnew hrun
  exact ⟨fun _ _ _ => hsound.spares_chunk_iff, fun _ _ => hsound.spares_batch_iff⟩

/-- Frames with a header of one byte, for one byte of plaintext, and a cipher that leaves the
plaintext as it is; a batch of two entries with a header of the same kind. -/
def byteCodec : Codec where
  decodeChunkFrame
    | offset :: _ => some ⟨1, 0, offset.toNat, 1, false⟩
    | [] => none
  chunkFrameHeaderLen := 1
  decodeChunkBatch payload := some ⟨1, 0, [⟨1, 1, payload⟩, ⟨2, 1, payload⟩]⟩
  decryptInPlace _ ciphertext := some ciphertext

/-- A frame for the offset. -/
def byteFrame (offset : UInt8) (plaintext : List UInt8) : List UInt8 :=
  offset :: (List.replicate 12 0 ++ plaintext)

theorem rejected_frames_iff_byte : ∃ s,
    Transition.run (Message.step byteCodec Crc.ieee) (FileSystem.empty, Receiver.new)
      [.chunk working [] (byteFrame 0 [7])] = some s ∧
    (∀ env key payload, (s.2.blind.Rejects byteCodec key payload →
        LeavesSegments (onChunkFrame byteCodec env key payload) s) ↔
          s.2.SparesChunk byteCodec env key payload) ∧
      ∀ envs payload, IgnoresRejected byteCodec envs payload s ↔
        SparesBatch byteCodec envs payload s := by
  have hreturns : (Transition.run (Message.step byteCodec Crc.ieee) (FileSystem.empty, Receiver.new)
      [.chunk working [] (byteFrame 0 [7])]).isSome = true := by decide +kernel
  obtain ⟨s, hs⟩ := Option.isSome_iff_exists.mp hreturns
  exact ⟨s, hs, rejected_frames_iff hs⟩

/-- **A plaintext of the wrong length is placed**: two bytes that come with a header for one
move the water mark. -/
theorem wrong_length_placed :
    ¬ ∀ (codec : Codec) (crc32 : List UInt8 → UInt32) (start : FileSystem) (messages : List Message)
        (s : FileSystem × Receiver) (env : Environment) (key payload : List UInt8),
        Transition.run (Message.step codec crc32) (start, Receiver.new) messages = some s →
        s.2.blind.Rejects codec key payload →
        LeavesSegments (onChunkFrame codec env key payload) s := by
  intro h
  have hreturns : (Transition.run (Message.step byteCodec Crc.ieee) (FileSystem.empty, Receiver.new)
      [.chunk working [] (byteFrame 0 [7])]).map (fun s =>
        ((s.2.reassembler.segments.lookup (1, 0)).map SegmentBuf.nextExpected,
          (onChunkFrame byteCodec working [] (byteFrame 1 [7, 7]) s.1 s.2).outcome.state?.map
            fun t => (t.2.reassembler.segments.lookup (1, 0)).map SegmentBuf.nextExpected)) =
      some (some 1, some (some 3)) := by decide +kernel
  obtain ⟨s, hrun, hmarks⟩ := Option.map_eq_some_iff.mp hreturns
  obtain ⟨hbefore, hafter⟩ := Prod.mk.inj hmarks
  obtain ⟨t, ht, hmark⟩ := Option.map_eq_some_iff.mp hafter
  obtain ⟨a, hdone⟩ := Outcome.state?_eq_some.mp ht
  have hrejects : s.2.blind.Rejects byteCodec [] (byteFrame 1 [7, 7]) := by
    rintro _ _ ⟨⟩
    decide
  have hsame := (h byteCodec Crc.ieee FileSystem.empty _ s working [] _ hrun hrejects).done hdone
  obtain ⟨buf, hlookup, hbuf⟩ := Option.map_eq_some_iff.mp hbefore
  obtain ⟨buf', hlookup', hcontent⟩ := hsame.content.lookup hlookup
  have hnext : buf'.nextExpected = buf.nextExpected := congrArg Prod.fst hcontent
  rw [hlookup', Option.map_some, hnext, hbuf] at hmark
  exact absurd hmark (by decide)

end SovProbe
