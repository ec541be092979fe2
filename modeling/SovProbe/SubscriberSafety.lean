import SovProbe.CacheInvariant
import SovProbe.SubscriberCalls

/-! # The receiver as a whole is safe

Two things are true of the tasks however they interleave.  Whatever comes, well formed or
not, and whatever file operations fail: what waits and what is cached stay within their
budgets, and a segment that is being refilled has a buffer (`subscriber_bounded`).  And
where the file operations succeed and what can be decrypted comes from the senders, every
segment file is a prefix of its source at every moment (`subscriber_safe`); frames that do
not decode or decrypt, references to what is not there, seals of any size and replies of
any text change nothing about that.
-/

namespace SovProbe
open Process

/-! ## Water marks only rise -/

namespace Reassembler
variable {env : Environment} {fs : FileSystem} {r r' u : Reassembler} {key : SegmentKey}
  {buf buf' : SegmentBuf} {crc32 : List UInt8 → UInt32}

/-- The segment's buffer is still there, and its mark has not gone back. -/
def Rises (key : SegmentKey) (r r' : Reassembler) : Prop :=
  ∀ buf, r.segments.lookup key = some buf →
    ∃ buf', r'.segments.lookup key = some buf' ∧ buf.nextExpected ≤ buf'.nextExpected

theorem Rises.refl (key : SegmentKey) (r : Reassembler) : Rises key r r :=
  fun buf hlookup => ⟨buf, hlookup, Nat.le_refl _⟩

theorem Rises.trans (h : Rises key r u) (h' : Rises key u r') : Rises key r r' := by
  intro buf hlookup
  obtain ⟨buf₁, hlookup₁, hle₁⟩ := h buf hlookup
  obtain ⟨buf₂, hlookup₂, hle₂⟩ := h' buf₁ hlookup₁
  exact ⟨buf₂, hlookup₂, Nat.le_trans hle₁ hle₂⟩

/-- A buffer is put in whose mark is at least as far. -/
theorem Rises.insert (key : SegmentKey) {key' : SegmentKey}
    (h : ∀ buf, r.segments.lookup key' = some buf → buf.nextExpected ≤ buf'.nextExpected) :
    Rises key r { r with segments := r.segments.insert key' buf' } := by
  intro buf hlookup
  by_cases hkey : key = key'
  · subst hkey
    exact ⟨buf', AList.lookup_insert _, h buf hlookup⟩
  · exact ⟨buf, (AList.lookup_insert_ne hkey).trans hlookup, Nat.le_refl _⟩

theorem Keeps.rises (h : Keeps r r') (key : SegmentKey) : Rises key r r' := by
  intro buf hlookup
  obtain ⟨buf', hlookup', hnext, -⟩ := h key buf hlookup
  exact ⟨buf', hlookup', Nat.le_of_eq hnext.symm⟩

theorem SameData.rises (h : SameData r r') (key : SegmentKey) : Rises key r r' := by
  intro buf hlookup
  have hkey := h key
  rw [hlookup, Option.map_some] at hkey
  obtain ⟨buf', hlookup', hdata⟩ := Option.map_eq_some_iff.mp hkey
  simp only [SegmentBuf.data, Prod.mk.injEq] at hdata
  exact ⟨buf', hlookup', Nat.le_of_eq hdata.2.2.1.symm⟩

/-- **`place_raw`** in any environment. -/
theorem Counted.holds_placeRaw_rises (h : r.Counted) (env : Environment) (key : SegmentKey)
    (offset : Nat) (plaintext : List UInt8) (fs : FileSystem) :
    (placeRaw env key.1 key.2 offset plaintext).Holds (fun _ => True)
      (.returns fun _ _ r' => ∀ key', Rises key' r r') fs r := by
  unfold placeRaw
  rw [holds_modify_bind]
  have htotal : Counted { r with totalBytes := r.totalBytes + plaintext.length } := h
  have hentry : (entry env key.1 key.2).Holds (fun _ => True)
      (.returns fun buf _ r₁ => r₁.segments.lookup key = some buf ∧ r₁.Counted ∧
        ∀ key', Rises key' r r₁) fs { r with totalBytes := r.totalBytes + plaintext.length } := by
    refine SovProbe.holds_entry (fun buf hlookup => ?_) fun hlookup => ?_
    · exact ⟨hlookup, htotal, fun key' => Rises.refl key' r⟩
    · refine (SegmentBuf.holds_openBuf env key.1 key.2 fs _).imp_returns ?_
      rintro buf t r₁ ⟨rfl, file, hfresh, -⟩
      refine ⟨AList.lookup_insert _, htotal.insert (hfresh ▸ SegmentBuf.Counted.fresh _ _ _), ?_⟩
      refine fun key' => Rises.insert (r := r) key' fun buf₀ hlookup₀ => ?_
      exact nomatch hlookup.symm.trans hlookup₀
  refine Holds.bind hentry ?_
  rintro buf t r₁ ⟨hlookup, hr₁, hrises⟩
  refine Holds.bind (holds_onSegment hlookup
    (SegmentBuf.holds_place env offset plaintext t (hr₁ key buf hlookup))) ?_
  rintro - u r₂ ⟨buf', ⟨hwrote, -, hbuf', -⟩, rfl⟩
  have hr₂ : Counted { r₁ with segments := r₁.segments.insert key buf' } := hr₁.insert hbuf'
  have hplaced : ∀ key', Rises key' r { r₁ with segments := r₁.segments.insert key buf' } := by
    refine fun key' => (hrises key').trans (Rises.insert key' fun buf₀ hlookup₀ => ?_)
    rw [Option.some.inj (hlookup₀.symm.trans hlookup), hwrote.nextExpected]
    exact Nat.le_add_right _ _
  rw [holds_get_bind]
  refine (holds_enforcePendingBudget env u _ 0 _ hr₂.covers (Nat.lt_succ_self _)).imp_returns ?_
  rintro - v r₃ ⟨rfl, -, rs, hevicts, -⟩
  exact fun key' => (hplaced key').trans (hevicts.keeps.rises key')

end Reassembler

/-! ## Any calls -/

namespace Call
open Reassembler
variable {fs : FileSystem} {r : Reassembler} {crc32 : List UInt8 → UInt32}

/-- What every call keeps, whatever fails. -/
structure Steady (r r' : Reassembler) (c : Call) : Prop where
  counted : r'.Counted
  within : r'.Within
  rises : ∀ key, c ≠ .remove key → Rises key r r'

/-- **One call.** -/
theorem holds_perform_steady (hcounted : r.Counted) (hwithin : r.Within)
    (crc32 : List UInt8 → UInt32) (c : Call) (fs : FileSystem) :
    (c.perform crc32).Holds (fun _ => True) (.returns fun _ _ r' => Steady r r' c) fs r := by
  cases c with
  | placeRaw env key offset plaintext =>
    have hboth := (hcounted.holds_placeRaw env key offset plaintext fs).and_returns
      (hcounted.holds_placeRaw_rises env key offset plaintext fs)
    refine hboth.imp_returns ?_
    rintro - t r' ⟨⟨hr', hwithin', -⟩, hrises⟩
    exact ⟨hr', hwithin', fun key' _ => hrises key'⟩
  | sealFrame key sealedSize =>
    refine (holds_onSealFrame crc32 key sealedSize fs r).bind ?_
    rintro - t r' ⟨-, -, hsame⟩
    refine (holds_pure _).mpr ⟨(hcounted.sameData hsame).1, ?_, fun key' _ => hsame.rises key'⟩
    exact hwithin.sameContent hsame.content
  | remove key =>
    refine (holds_removeSegment key fs r).imp_returns ?_
    rintro - t r' ⟨-, rfl⟩
    refine ⟨hcounted.erase key, hwithin.erase key, fun key' hne buf hlookup => ?_⟩
    have hkey : key' ≠ key := fun heq => hne (heq ▸ rfl)
    exact ⟨buf, AList.lookup_erase_eq_some.mpr ⟨hkey, hlookup⟩, Nat.le_refl _⟩

/-- **Any calls.** -/
theorem holds_receive_steady (crc32 : List UInt8 → UInt32) (calls : List Call) :
    ∀ (fs : FileSystem) (r : Reassembler), r.Counted → r.Within →
    (receive crc32 calls).Holds (fun _ => True)
      (.returns fun _ _ r' => r'.Counted ∧ r'.Within ∧
        ∀ key, .remove key ∉ calls → Rises key r r') fs r := by
  induction calls with
  | nil =>
    intro fs r hcounted hwithin
    exact holds_receive_nil.mpr ⟨hcounted, hwithin, fun key _ => Rises.refl key r⟩
  | cons c calls ih =>
    intro fs r hcounted hwithin
    rw [holds_receive_cons]
    refine (holds_perform_steady hcounted hwithin crc32 c fs).imp_returns ?_
    rintro - t u hu
    refine (ih t u hu.counted hu.within).imp_returns ?_
    rintro - v r' ⟨hcounted', hwithin', hrises⟩
    refine ⟨hcounted', hwithin', fun key hkey => ?_⟩
    have hfirst : c ≠ .remove key := fun heq => hkey (heq ▸ List.mem_cons_self)
    exact (hu.rises key hfirst).trans (hrises key fun hmem => hkey (List.mem_cons_of_mem c hmem))

/-- **Admissible calls** keep the files safe. -/
theorem holds_receive_safe {source : SegmentKey → List UInt8} (crc32 : List UInt8 → UInt32)
    (calls : List Call) : ∀ (fs : FileSystem) (r : Reassembler), Safe source fs r →
    (∀ c ∈ calls, c.Admissible source) →
    (receive crc32 calls).Holds (Prefixes source)
      (.returns fun _ t r' => Safe source t r') fs r := by
  induction calls with
  | nil => exact fun fs r h _ => holds_receive_nil.mpr h
  | cons c calls ih =>
    intro fs r h hcalls
    rw [holds_receive_cons]
    refine (h.holds_perform crc32 (hcalls c List.mem_cons_self)).imp_returns ?_
    exact fun _ t r' hsafe => ih t r' hsafe fun c' hc' => hcalls c' (List.mem_cons_of_mem c hc')

end Call

/-! ## Whatever comes -/

/-- What the tasks rely on. -/
structure Subscriber.Sound (subscriber : Subscriber) : Prop where
  counted : subscriber.receiver.reassembler.Counted
  within : subscriber.receiver.reassembler.Within
  holding : ∃ plain, BlindCache.Holding plain subscriber.receiver.blind
  budget : subscriber.receiver.blind.blindCacheBytes ≤ blindCacheBudget
  refilling : ∀ key, subscriber.sealTask.segment? = some key →
    key ∈ subscriber.receiver.reassembler.segments

variable {codec : WireCodec} {crc32 : List UInt8 → UInt32} {fs t : FileSystem}
  {self self' : Subscriber} {plain : BlindId → List UInt8} {source : SegmentKey → List UInt8}
  {e : TaskStep}

theorem Subscriber.Sound.new : Subscriber.new.Sound where
  counted := Reassembler.Counted.new
  within := Reassembler.Within.new
  holding := ⟨fun _ => [], BlindCache.Windowed.empty.toHolding⟩
  budget := Nat.zero_le _
  refilling := nofun

/-- A removal is a step of its own. -/
theorem TaskStep.remove_mem_calls {key : SegmentKey} (h : .remove key ∈ e.calls codec self) :
    e = finish := by
  rcases mem_calls h with ⟨_, _, _, _, _, -, -, hc⟩ | ⟨_, _, _, _, _, _, -, -, -, -, hc⟩ |
    ⟨_, _, _, -, hc⟩ | ⟨_, rfl, -⟩
  · cases hc
  · cases hc
  · cases hc
  · rfl

/-- Where a step leaves the task, its segment had one before, or has a buffer. -/
theorem TaskStep.segment_nextTask {key : SegmentKey} (hne : e ≠ finish)
    (h : (e.nextTask codec self).segment? = some key) : self.sealTask.segment? = some key ∨
      ∃ buf, self.receiver.reassembler.segments.lookup key = some buf := by
  cases e with
  | sealSignal payload =>
    unfold nextTask at h
    cases hframe : codec.decodeSealFrame payload with
    | none => exact Or.inl (by simpa only [hframe] using h)
    | some frame =>
      simp only [hframe, Reassembler.gapRequest] at h
      split at h
      · rename_i hgap
        -- the request is for a segment that has a beginning
        have hkey : key = (frame.devId, frame.segmentSeq) := (Option.some.inj h).symm
        rw [Reassembler.contiguous, ← hkey] at hgap
        cases hlookup : self.receiver.reassembler.segments.lookup key with
        | some buf => exact Or.inr ⟨buf, rfl⟩
        | none =>
          rw [hlookup] at hgap
          exact absurd hgap.1 (Nat.lt_irrefl 0)
      · cases h
  | replies rs =>
    refine Or.inl ?_
    unfold nextTask at h
    cases htask : self.sealTask with
    | asking gq sealedSize attempt =>
      simp only [htask, SealTask.replied] at h
      split at h <;> exact h
    | waiting => rwa [htask] at h
    | verifying gq sealedSize attempt ticks => rwa [htask] at h
    | removing gq => rwa [htask] at h
  | tick =>
    refine Or.inl ?_
    unfold nextTask at h
    cases htask : self.sealTask with
    | verifying gq sealedSize attempt ticks =>
      rw [htask] at h
      simp only [SealTask.verify] at h
      split_ifs at h <;> exact h
    | waiting => rwa [htask] at h
    | asking gq sealedSize attempt => rwa [htask] at h
    | removing gq => rwa [htask] at h
  | finish => exact absurd rfl hne
  | data env k payload => exact Or.inl h
  | batch env payload => exact Or.inl h
  | query k => exact Or.inl h

/-- What a step does to the cache. -/
theorem TaskStep.CacheStep.holding (hcodec : codec.HasHeader) {c c' : BlindCache}
    (h : BlindCache.Holding plain c) (hbudget : c.blindCacheBytes ≤ blindCacheBudget)
    (hstep : e.CacheStep codec c c') :
    ∃ plain', BlindCache.Holding plain' c' ∧ c'.blindCacheBytes ≤ blindCacheBudget ∧
      ((∀ env key payload, e = data env key payload →
        BlindCache.Genuine codec.toCodec plain key payload) → plain' = plain) := by
  cases e with
  | data env key payload =>
    obtain ⟨c₁, plain', hok, hholding, hwithin, -, hgenuine⟩ :=
      h.materialise_of_header hbudget hcodec key payload
    obtain ⟨rfl, -⟩ := Prod.mk.inj (Except.ok.inj (hok.symm.trans hstep))
    exact ⟨plain', hholding, hwithin, fun hall => hgenuine (hall env key payload rfl)⟩
  | batch env payload =>
    have hsame := BlindCache.sameCache_countBatch codec.toCodec c payload
    obtain rfl : c' = c.countBatch codec.toCodec payload := hstep
    exact ⟨plain, h.congr hsame, hsame.bytes ▸ hbudget, fun _ => rfl⟩
  | finish =>
    obtain ⟨key, rfl⟩ := hstep
    exact ⟨plain, h.congr ⟨rfl, rfl, rfl⟩, hbudget, fun _ => rfl⟩
  | sealSignal payload => exact ⟨plain, hstep ▸ h, hstep ▸ hbudget, fun _ => rfl⟩
  | replies rs => exact ⟨plain, hstep ▸ h, hstep ▸ hbudget, fun _ => rfl⟩
  | tick => exact ⟨plain, hstep ▸ h, hstep ▸ hbudget, fun _ => rfl⟩
  | query key => exact ⟨plain, hstep ▸ h, hstep ▸ hbudget, fun _ => rfl⟩

/-- **A step of a task**, whatever its calls do besides. -/
theorem Subscriber.Sound.holds_perform {crash : FileSystem → Prop}
    {P : FileSystem → Reassembler → Prop} (hcodec : codec.HasHeader) (h : self.Sound)
    (henabled : e.enabled self.sealTask = true)
    (hP : (receive crc32 (e.calls codec self)).Holds crash (.returns fun _ t r => P t r) fs
      self.receiver.reassembler) :
    (e.perform codec crc32).Holds crash (.returns fun _ t self' => self'.Sound ∧
      P t self'.receiver.reassembler ∧
      e.CacheStep codec self.receiver.blind self'.receiver.blind ∧
      self'.sealTask = e.nextTask codec self ∧
      (e ≠ .finish → ∀ key, Reassembler.Rises key self.receiver.reassembler
        self'.receiver.reassembler)) fs self := by
  obtain ⟨plain, hholding⟩ := h.holding
  have hcache : ∀ env key payload, e = .data env key payload → ∃ c',
      self.receiver.blind.materialise codec.toCodec key payload =
        .ok (c', self.receiver.blind.carried codec.toCodec key payload) := by
    rintro env key payload -
    obtain ⟨c', -, hok, -⟩ := hholding.materialise_of_header h.budget hcodec key payload
    exact ⟨c', hok⟩
  have hboth : (receive crc32 (e.calls codec self)).Holds crash (.returns fun _ t r => P t r ∧
      r.Counted ∧ r.Within ∧ ∀ key, .remove key ∉ e.calls codec self →
        Reassembler.Rises key self.receiver.reassembler r) fs self.receiver.reassembler :=
    hP.and_returns (Call.holds_receive_steady crc32 _ fs _ h.counted h.within)
  refine (TaskStep.holds_perform henabled hcache hboth).imp_returns ?_
  rintro - t self' ⟨⟨hPt, hcounted, hwithin, hrises⟩, hstep, htask⟩
  obtain ⟨plain', hholding', hbudget, -⟩ := hstep.holding hcodec hholding h.budget
  have hkept : e ≠ .finish → ∀ key, Reassembler.Rises key self.receiver.reassembler
      self'.receiver.reassembler :=
    fun hne key => hrises key fun hmem => hne (TaskStep.remove_mem_calls hmem)
  refine ⟨⟨hcounted, hwithin, ⟨plain', hholding'⟩, hbudget, fun key hkey => ?_⟩, hPt, hstep, htask,
    hkept⟩
  by_cases hfinish : e = .finish
  · rw [htask, hfinish] at hkey
    cases hkey
  · rw [htask] at hkey
    have hbefore : ∃ buf, self.receiver.reassembler.segments.lookup key = some buf := by
      rcases TaskStep.segment_nextTask hfinish hkey with hold | hnew
      · exact Option.isSome_iff_exists.mp (AList.lookup_isSome.mpr (h.refilling key hold))
      · exact hnew
    obtain ⟨buf, hlookup⟩ := hbefore
    obtain ⟨buf', hlookup', -⟩ := hkept hfinish key buf hlookup
    exact AList.lookup_isSome.mp (by rw [hlookup']; rfl)

theorem TaskStep.step_eq_some {s u : FileSystem × Subscriber} :
    e.step codec crc32 s = some u ↔ e.enabled s.2.sealTask = true ∧
      (e.perform codec crc32 s.1 s.2).outcome = .done () u.1 u.2 := by
  unfold TaskStep.step
  by_cases henabled : e.enabled s.2.sealTask = true
  · rw [if_pos henabled, Outcome.state?_eq_some, and_iff_right henabled]
    exact ⟨fun ⟨_, h⟩ => h, fun h => ⟨(), h⟩⟩
  · rw [if_neg henabled]
    exact ⟨nofun, fun h => absurd h.1 henabled⟩

/-- **One step** of a run. -/
theorem Subscriber.Sound.step {s u : FileSystem × Subscriber} (hcodec : codec.HasHeader)
    (h : s.2.Sound) (hstep : e.step codec crc32 s = some u) :
    u.2.Sound ∧ u.2.sealTask = e.nextTask codec s.2 ∧
      (e ≠ .finish → ∀ key, Reassembler.Rises key s.2.receiver.reassembler
        u.2.receiver.reassembler) := by
  obtain ⟨henabled, hdone⟩ := TaskStep.step_eq_some.mp hstep
  have hany := (Call.holds_receive_steady crc32 (e.calls codec s.2) s.1 _ h.counted
    h.within).imp_returns fun _ _ _ _ => trivial
  obtain ⟨hsound, -, -, htask, hrises⟩ := (h.holds_perform hcodec henabled hany).done hdone
  exact ⟨hsound, htask, hrises⟩

theorem Subscriber.sound_run {start : FileSystem} {es : List TaskStep}
    {s : FileSystem × Subscriber} (hcodec : codec.HasHeader)
    (hrun : Transition.run (TaskStep.step codec crc32) (start, .new) es = some s) :
    s.2.Sound := by
  have hnew : (start, Subscriber.new).2.Sound := Subscriber.Sound.new
  have hstep : ∀ (s : FileSystem × Subscriber) (e : TaskStep) (u : FileSystem × Subscriber),
      s.2.Sound → e.step codec crc32 s = some u → u.2.Sound :=
    fun _ _ _ hs hstep => (hs.step hcodec hstep).1
  exact Transition.run_invariant hstep hnew hrun

/-- **The receiver never stops, and its memory is bounded**, whatever messages come, in
whatever order the tasks get the lock, and whatever file operations fail.  In every state
that can be reached the waiting chunks and the cached plaintexts are within their budgets,
a segment that is being refilled has a buffer, and every step that is enabled ends in
another state. -/
theorem subscriber_bounded (hcodec : codec.HasHeader) (crc32 : List UInt8 → UInt32)
    {start : FileSystem} {es : List TaskStep} {s : FileSystem × Subscriber}
    (hrun : Transition.run (TaskStep.step codec crc32) (start, .new) es = some s) :
    s.2.receiver.reassembler.heldBytes ≤ pendingBudget ∧
      s.2.receiver.blind.blindCache.total List.length ≤ blindCacheBudget ∧
      (∀ key, s.2.sealTask.segment? = some key → key ∈ s.2.receiver.reassembler.segments) ∧
      ∀ e : TaskStep, e.enabled s.2.sealTask = true → ∃ u, e.step codec crc32 s = some u := by
  have hsound := Subscriber.sound_run hcodec hrun
  obtain ⟨plain, hholding⟩ := hsound.holding
  refine ⟨hsound.within.heldBytes_le hsound.counted, ?_, hsound.refilling, fun e henabled => ?_⟩
  · rw [← hholding.total]
    exact hsound.budget
  · have hany := (Call.holds_receive_steady crc32 (e.calls codec s.2) s.1 _ hsound.counted
      hsound.within).imp_returns fun _ _ _ _ => trivial
    obtain ⟨⟨⟩, t, self', hdone, -⟩ := (hsound.holds_perform hcodec henabled hany).returned
    exact ⟨(t, self'), TaskStep.step_eq_some.mpr ⟨henabled, hdone⟩⟩

/-! ## What comes from the senders -/

/-- File operations succeed. -/
def Environment.Works (env : Environment) : Prop := env.opens = true ∧ ∀ n, env.writes n = none

/-- The file operations of the step succeed. -/
def TaskStep.Works : TaskStep → Prop
  | data env _ _ => env.Works
  | batch env _ => ∀ n, (env n).Works
  | _ => True

/-- What can be decrypted is from a sender, and so is what is referred to: the plaintext is the
one of its id, and a part of its segment at the offset in the header. -/
def TaskStep.FromSenders (codec : WireCodec) (part : SegmentKey → Nat → List UInt8 → Prop)
    (plain : BlindId → List UInt8) : TaskStep → Prop
  | data _ key payload => BlindCache.Genuine codec.toCodec plain key payload ∧
    ∀ frame, codec.decodeChunkFrame payload = some frame →
      (∀ p, frame.refOnly = false →
        decrypt codec.toCodec (payload.drop codec.chunkFrameHeaderLen) = some p →
        part (frame.devId, frame.segmentSeq) frame.startOffset p) ∧
      ∀ id, frame.refOnly = true → blindIdFromKey key = some id →
        part (frame.devId, frame.segmentSeq) frame.startOffset (plain id)
  | batch _ payload => ∀ b, codec.decodeChunkBatch payload = some b → ∀ entry ∈ b.entries, ∀ p,
    decrypt codec.toCodec entry.payload = some p → part b.segment entry.startOffset p
  | _ => True

theorem TaskStep.FromSenders.imp {part part' : SegmentKey → Nat → List UInt8 → Prop}
    (h : e.FromSenders codec part plain) (hpart : ∀ key o p, part key o p → part' key o p) :
    e.FromSenders codec part' plain := by
  cases e with
  | data env key payload =>
    obtain ⟨hgenuine, hframe⟩ := h
    refine ⟨hgenuine, fun frame hdecode => ?_⟩
    obtain ⟨hdata, href⟩ := hframe frame hdecode
    exact ⟨fun p hp hplain => hpart _ _ _ (hdata p hp hplain),
      fun id hid hkey => hpart _ _ _ (href id hid hkey)⟩
  | batch env payload =>
    exact fun b hb entry hentry p hp => hpart _ _ _ (h b hb entry hentry p hp)
  | sealSignal payload => trivial
  | replies rs => trivial
  | tick => trivial
  | finish => trivial
  | query key => trivial

/-- What comes is a part of its segment's source. -/
def TaskStep.FromSources (codec : WireCodec) (source : SegmentKey → List UInt8)
    (plain : BlindId → List UInt8) (e : TaskStep) : Prop :=
  e.FromSenders codec (fun key => IsChunk (source key)) plain

/-- The files are safe, and the cache is genuine. -/
structure Subscriber.Trusted (source : SegmentKey → List UInt8) (plain : BlindId → List UInt8)
    (fs : FileSystem) (subscriber : Subscriber) : Prop where
  sound : subscriber.Sound
  safe : Safe source fs subscriber.receiver.reassembler
  genuine : BlindCache.Holding plain subscriber.receiver.blind

/-- What a frame from a sender carries is a part of its segment. -/
theorem TaskStep.FromSenders.carried {part : SegmentKey → Nat → List UInt8 → Prop}
    {env : Environment} {key payload : List UInt8} {frame : ChunkFrame} {p : List UInt8}
    (h : (data env key payload).FromSenders codec part plain)
    (hgenuine : BlindCache.Holding plain self.receiver.blind)
    (hcarried : self.receiver.blind.carried codec.toCodec key payload = some (frame, p)) :
    part (frame.devId, frame.segmentSeq) frame.startOffset p := by
  unfold BlindCache.carried at hcarried
  cases hframe : codec.decodeChunkFrame payload with
  | none => simp [hframe] at hcarried
  | some frame' =>
    obtain ⟨hdata, href⟩ := h.2 frame' hframe
    simp only [hframe] at hcarried
    by_cases hrefOnly : frame'.refOnly = true
    · rw [if_pos hrefOnly] at hcarried
      obtain ⟨q, hq, heq⟩ := Option.map_eq_some_iff.mp hcarried
      obtain ⟨rfl, rfl⟩ := Prod.mk.inj heq
      obtain ⟨id, hid, hlookup⟩ := Option.bind_eq_some_iff.mp hq
      rw [hgenuine.lookup] at hlookup
      by_cases hmem : id ∈ self.receiver.blind.blindOrder
      · rw [if_pos hmem] at hlookup
        exact Option.some.inj hlookup ▸ href id hrefOnly hid
      · rw [if_neg hmem] at hlookup
        cases hlookup
    · rw [if_neg hrefOnly] at hcarried
      obtain ⟨q, hq, heq⟩ := Option.map_eq_some_iff.mp hcarried
      obtain ⟨rfl, rfl⟩ := Prod.mk.inj heq
      exact hdata _ (Bool.not_eq_true _ ▸ hrefOnly) hq

/-- Its file operations succeed, and it places a part of its segment. -/
def Call.Places (part : SegmentKey → Nat → List UInt8 → Prop) : Call → Prop
  | placeRaw env key offset plaintext => env.Works ∧ part key offset plaintext
  | _ => True

/-- And so do all calls. -/
theorem TaskStep.FromSenders.places {part : SegmentKey → Nat → List UInt8 → Prop}
    (h : e.FromSenders codec part plain) (hworks : e.Works)
    (hgenuine : BlindCache.Holding plain self.receiver.blind) :
    ∀ c ∈ e.calls codec self, c.Places part := by
  intro c hc
  rcases mem_calls hc with ⟨env, key, payload, frame, p, rfl, hcarried, rfl⟩ |
    ⟨env, payload, b, entry, n, p, rfl, hbatch, hentry, hp, rfl⟩ | ⟨_, _, _, -, rfl⟩ |
    ⟨_, -, -, rfl⟩
  · exact ⟨hworks, h.carried hgenuine hcarried⟩
  · exact ⟨hworks n, h b hbatch entry hentry p hp⟩
  · trivial
  · trivial

theorem Call.Places.admissible {c : Call} (h : c.Places fun key => IsChunk (source key)) :
    c.Admissible source := by
  cases c with
  | placeRaw env key offset plaintext => exact ⟨h.1.1, h.1.2, h.2⟩
  | sealFrame key sealedSize => trivial
  | remove key => trivial

/-- **A step of a task** with what comes from the senders. -/
theorem Subscriber.Trusted.holds_perform (hcodec : codec.HasHeader)
    (h : Subscriber.Trusted source plain fs self) (hworks : e.Works)
    (hfrom : e.FromSources codec source plain) (henabled : e.enabled self.sealTask = true) :
    (e.perform codec crc32).Holds (Prefixes source)
      (.returns fun _ t self' => Subscriber.Trusted source plain t self') fs self := by
  have hadmissible : ∀ c ∈ e.calls codec self, c.Admissible source :=
    fun c hc => (TaskStep.FromSenders.places hfrom hworks h.genuine c hc).admissible
  have hcalls := Call.holds_receive_safe crc32 (e.calls codec self) fs _ h.safe hadmissible
  refine (h.sound.holds_perform hcodec henabled hcalls).imp_returns ?_
  rintro - t self' ⟨hsound, hsafe, hstep, -, -⟩
  obtain ⟨plain', hholding, -, hsame⟩ := hstep.holding hcodec h.genuine h.sound.budget
  have hgenuine : plain' = plain := hsame fun env key payload heq => by
    subst heq
    exact hfrom.1
  exact ⟨hsound, hsafe, hgenuine ▸ hholding⟩

theorem Subscriber.trusted_run {start : FileSystem} {es : List TaskStep}
    {s : FileSystem × Subscriber} (hcodec : codec.HasHeader) (hstart : Prefixes source start)
    (hworks : ∀ e ∈ es, e.Works) (hfrom : ∀ e ∈ es, e.FromSources codec source plain)
    (hrun : Transition.run (TaskStep.step codec crc32) (start, .new) es = some s) :
    Subscriber.Trusted source plain s.1 s.2 := by
  have hnew : Subscriber.Trusted source plain start .new := by
    refine ⟨Subscriber.Sound.new, ⟨nofun, hstart⟩, fun _ => rfl, rfl, List.nodup_nil⟩
  have hguarded : Transition.Guarded (TaskStep.step codec crc32)
      (fun _ e => e.Works ∧ e.FromSources codec source plain) (start, .new) es := by
    intro xs e hpre _ _
    have hmem : e ∈ es := hpre.subset (List.mem_append_right _ List.mem_cons_self)
    exact ⟨hworks e hmem, hfrom e hmem⟩
  have hstep : ∀ (s : FileSystem × Subscriber) (e : TaskStep) (u : FileSystem × Subscriber),
      Subscriber.Trusted source plain s.1 s.2 → e.Works ∧ e.FromSources codec source plain →
      e.step codec crc32 s = some u → Subscriber.Trusted source plain u.1 u.2 := by
    intro s e u hs he hstep
    obtain ⟨henabled, hdone⟩ := TaskStep.step_eq_some.mp hstep
    have hholds : (e.perform codec crc32).Holds (Prefixes source) _ s.1 s.2 :=
      hs.holds_perform hcodec he.1 he.2 henabled
    exact hholds.done hdone
  exact Transition.run_invariant_of_guarded hstep hnew hguarded hrun

/-- **The files are prefixes of their sources at every moment.**  Data and reference frames,
batches, seals, replies and queries interleave in any way, with any of them lost, repeated
or late and any garbage between them; chunks are evicted, plaintexts leave the cache, and
segments are refilled, dropped and opened again.  As long as the file operations succeed and
what decrypts or is referred to is from the senders, each segment file is a prefix of
its source, a segment with a buffer has exactly what the buffer counts, and what is cached
for an id is its plaintext; and this is so in the middle of every further step, too. -/
theorem subscriber_safe (hcodec : codec.HasHeader) (crc32 : List UInt8 → UInt32)
    {start : FileSystem} {es : List TaskStep} {s : FileSystem × Subscriber}
    (hstart : Prefixes source start) (hworks : ∀ e ∈ es, e.Works)
    (hfrom : ∀ e ∈ es, e.FromSources codec source plain)
    (hrun : Transition.run (TaskStep.step codec crc32) (start, .new) es = some s) :
    Prefixes source s.1 ∧
      (∀ key buf, s.2.receiver.reassembler.segments.lookup key = some buf →
        s.1.file? (segmentName key) = some ((source key).take buf.nextExpected) ∧
        buf.nextExpected ≤ (source key).length) ∧
      (∀ id p, s.2.receiver.blind.blindCache.lookup id = some p → p = plain id) ∧
      ∀ e : TaskStep, e.Works → e.FromSources codec source plain →
        e.enabled s.2.sealTask = true →
        (∃ u, e.step codec crc32 s = some u) ∧
          ∀ t ∈ (e.perform codec crc32 s.1 s.2).trace, Prefixes source t := by
  have htrusted := Subscriber.trusted_run hcodec hstart hworks hfrom hrun
  refine ⟨htrusted.safe.prefixes, fun key buf hlookup => ?_, fun id p hlookup => ?_,
    fun e hworks he henabled => ?_⟩
  · have hbuf := htrusted.safe.faithful key buf hlookup
    exact ⟨hbuf.content, hbuf.within⟩
  · rw [htrusted.genuine.lookup] at hlookup
    by_cases hmem : id ∈ s.2.receiver.blind.blindOrder
    · rw [if_pos hmem] at hlookup
      exact (Option.some.inj hlookup).symm
    · rw [if_neg hmem] at hlookup
      cases hlookup
  · have hholds : (e.perform codec crc32).Holds (Prefixes source) _ s.1 s.2 :=
      htrusted.holds_perform hcodec hworks he henabled
    obtain ⟨⟨⟩, t, self', hdone, -⟩ := hholds.returned
    exact ⟨⟨(t, self'), TaskStep.step_eq_some.mpr ⟨henabled, hdone⟩⟩, hholds.1⟩

/-- Frames and seal signals with a header of one byte. -/
def byteWire : WireCodec where
  toCodec := byteCodec
  decodeSealFrame
    | [size] => some ⟨1, 0, size.toNat⟩
    | _ => none

/-- A segment of two bytes. -/
def pairSource (key : SegmentKey) : List UInt8 := if key = (1, 0) then [7, 8] else []

/-- The first byte comes, and the seal; the second one only when it has been asked for. -/
def lateSecond : List TaskStep :=
  [.data working [] (byteFrame 0 [7]), .sealSignal [2], .replies (some [some (ascii "resent=1")]),
    .data working [] (byteFrame 1 [8]), .tick, .finish]

theorem byteWire_hasHeader : byteWire.HasHeader := by
  intro payload frame hdecode
  cases payload with
  | nil => cases hdecode
  | cons b rest => exact Nat.succ_le_succ (Nat.zero_le _)

/-- A data frame for some bytes. -/
theorem byteFrame_fromSenders {part : SegmentKey → Nat → List UInt8 → Prop} {offset : UInt8}
    {bytes : List UInt8} (h : part (1, 0) offset.toNat bytes) :
    (TaskStep.data working [] (byteFrame offset bytes)).FromSenders byteWire part fun _ => [] := by
  have hnone : blindIdFromKey [] = none := by decide
  have hgenuine : BlindCache.Genuine byteWire.toCodec (fun _ => []) [] (byteFrame offset bytes) :=
    fun _ _ _ _ _ _ hkey => nomatch hnone.symm.trans hkey
  have hplain : decrypt byteWire.toCodec ((byteFrame offset bytes).drop 1) = some bytes := by
    simp [decrypt, byteFrame, byteWire, byteCodec]
  refine ⟨hgenuine, ?_⟩
  rintro _ ⟨⟩
  refine ⟨fun p _ hp => ?_, nofun⟩
  exact Option.some.inj (hplain.symm.trans hp) ▸ h

theorem working_works : working.Works := ⟨rfl, fun _ => rfl⟩

theorem lateSecond_works : ∀ e ∈ lateSecond, e.Works := by
  intro e he
  simp only [lateSecond, List.mem_cons, List.not_mem_nil, or_false] at he
  rcases he with rfl | rfl | rfl | rfl | rfl | rfl
  · exact working_works
  · trivial
  · trivial
  · exact working_works
  · trivial
  · trivial

theorem lateSecond_fromSenders {part : SegmentKey → Nat → List UInt8 → Prop}
    (hfirst : part (1, 0) 0 [7]) (hsecond : part (1, 0) 1 [8]) :
    ∀ e ∈ lateSecond, e.FromSenders byteWire part fun _ => [] := by
  intro e he
  simp only [lateSecond, List.mem_cons, List.not_mem_nil, or_false] at he
  rcases he with rfl | rfl | rfl | rfl | rfl | rfl
  · exact byteFrame_fromSenders hfirst
  · trivial
  · trivial
  · exact byteFrame_fromSenders hsecond
  · trivial
  · trivial

theorem lateSecond_runs : ∃ s, Transition.run (TaskStep.step byteWire Crc.ieee)
    (FileSystem.empty, .new) lateSecond = some s := by
  have hsome : (Transition.run (TaskStep.step byteWire Crc.ieee) (FileSystem.empty, .new)
      lateSecond).isSome = true := by decide +kernel
  exact Option.isSome_iff_exists.mp hsome

theorem subscriber_bounded_late : ∃ s, Transition.run (TaskStep.step byteWire Crc.ieee)
      (FileSystem.empty, .new) lateSecond = some s ∧
    s.2.receiver.reassembler.heldBytes ≤ pendingBudget := by
  obtain ⟨s, hs⟩ := lateSecond_runs
  exact ⟨s, hs, (subscriber_bounded byteWire_hasHeader Crc.ieee hs).1⟩

theorem subscriber_safe_late : ∃ s, Transition.run (TaskStep.step byteWire Crc.ieee)
      (FileSystem.empty, .new) lateSecond = some s ∧ Prefixes pairSource s.1 := by
  obtain ⟨s, hs⟩ := lateSecond_runs
  have hstart : Prefixes pairSource FileSystem.empty := nofun
  have hfrom : ∀ e ∈ lateSecond, e.FromSources byteWire pairSource fun _ => [] :=
    lateSecond_fromSenders ⟨by decide, by decide⟩ ⟨by decide, by decide⟩
  exact ⟨s, hs,
    (subscriber_safe byteWire_hasHeader Crc.ieee hstart lateSecond_works hfrom hs).1⟩

end SovProbe
