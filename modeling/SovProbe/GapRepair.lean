import SovProbe.ReassemblyCompleteness
import SovProbe.SubscriberSafety

/-! # A gap that is sent again is closed

Of a segment that is sent in chunks the file always ends where a chunk ends, also after
chunks have been evicted and buffers dropped, so that the segment can go on from there
(`Aligned`).  While it is being refilled its buffer stays.  So if every chunk it lacks is
sent again before the buffer is dropped, by itself or in a batch or as a reference, and
nothing is evicted in that time, then the segment is complete, and the next check sees
that it is (`gap_repaired`).
-/

namespace SovProbe
open Process Chunking Reordering

namespace Reassembler
variable {env : Environment} {fs t : FileSystem} {r r' u : Reassembler} {key key' : SegmentKey}
  {buf buf' : SegmentBuf} {cs : List (List UInt8)} {D : List (Nat × List UInt8)} {n : Nat}
  {rs : List Reassembler}

/-! ## Evictions are counted -/

theorem Evicts.pendDropped (h : Evicts env n r rs r') :
    r'.pendDropped = r.pendDropped + rs.length := by
  induction h with
  | stop => rfl
  | evict hevict _ ih =>
    obtain ⟨_, _, _, _, -, -, -, rfl⟩ := evictOnce_eq_some.mp hevict
    rw [ih, List.length_cons]
    exact Nat.add_right_comm _ 1 _

/-- Nothing is evicted where the count stays. -/
theorem Evicts.eq_of_pendDropped (h : Evicts env n r rs r')
    (hcount : r'.pendDropped = r.pendDropped) : r' = r := by
  cases h with
  | stop => rfl
  | evict hevict hrest =>
    have hmore := Evicts.pendDropped (hrest.evict hevict)
    rw [hcount, List.length_cons] at hmore
    omega

theorem holds_onSealFrame_pendDropped (crc32 : List UInt8 → UInt32) (key : SegmentKey)
    (sealedSize : Nat) (fs : FileSystem) (r : Reassembler) :
    (onSealFrame crc32 key.1 key.2 sealedSize).Holds (fun _ => True)
      (.returns fun _ _ r' => r'.pendDropped = r.pendDropped) fs r := by
  unfold onSealFrame
  rw [holds_modify_bind, holds_get_bind]
  cases hlookup : r.segments.lookup key with
  | none => exact (holds_pure _).mpr rfl
  | some buf =>
    refine Holds.bind (holds_onSegment hlookup
      (SegmentBuf.holds_onSeal crc32 sealedSize fs buf)) ?_
    rintro missing t r' ⟨buf', -, rfl⟩
    by_cases hmissing : missing > 0
    · rw [if_pos hmissing, holds_modify_bind]
      by_cases hnext : buf.nextExpected > 0
      · rw [if_pos hnext]
        exact (holds_pure _).mpr rfl
      · rw [if_neg hnext]
        exact (holds_pure _).mpr rfl
    · rw [if_neg hmissing]
      exact (holds_pure _).mpr rfl

/-! ## Where a segment can go on -/

/-- The segment has all of `D`, written or waiting. -/
def Has (cs : List (List UInt8)) (D : List (Nat × List UInt8)) (key : SegmentKey)
    (self : Reassembler) : Prop :=
  ∀ buf, self.segments.lookup key = some buf → Settled cs D buf.nextExpected buf.pending

/-- The segment lacks the chunk. -/
def Lacks (self : Reassembler) (key : SegmentKey) (x : Nat × List UInt8) : Prop :=
  ∀ buf, self.segments.lookup key = some buf →
    buf.nextExpected ≤ x.1 ∧ x.1 ∉ buf.pending

/-- The file ends where a chunk ends, and the chunks that wait are chunks of the segment. -/
structure Aligned (source : SegmentKey → List UInt8) (cs : List (List UInt8)) (key : SegmentKey)
    (fs : FileSystem) (r : Reassembler) : Prop where
  safe : Safe source fs r
  file : ∀ bytes, fs.file? (segmentName key) = some bytes → Boundary cs bytes.length
  settled : r.Has cs [] key

theorem Has.weaken (h : r.Has cs D key) : r.Has cs [] key := by
  intro buf hlookup
  exact { h buf hlookup with delivered := fun _ _ hmem => nomatch hmem }

/-- An eviction loses a chunk, and leaves the segment where it can go on. -/
theorem Has.evictOnce {position : SegmentKey → Nat} (h : r.Has cs [] key)
    (hevict : r.evictOnce position = some u) : u.Has cs [] key := by
  obtain ⟨key', buf, o, b, -, hlookup, -, rfl⟩ := evictOnce_eq_some.mp hevict
  intro buf' hlookup'
  rcases AList.lookup_insert_eq_some.mp hlookup' with ⟨rfl, rfl⟩ | ⟨-, hother⟩
  · have hbefore := h buf hlookup
    refine ⟨⟨hbefore.boundary, fun o' b' hb' => ?_, fun _ _ hmem => nomatch hmem⟩, fun hmem => ?_⟩
    · exact hbefore.waiting o' b' (AList.lookup_erase_eq_some.mp hb').2
    · exact hbefore.settled (AList.mem_erase.mp hmem).2
  · exact h buf' hother

variable {source : SegmentKey → List UInt8} {part : SegmentKey → Nat → List UInt8 → Prop}

/-- The buffer is at the end of the file, where a chunk ends. -/
theorem Aligned.of_settled (hsafe : Safe source fs r) (hsettled : r.Has cs [] key)
    (hmem : key ∈ r.segments) : Aligned source cs key fs r where
  safe := hsafe
  file bytes hbytes := by
    obtain ⟨buf, hlookup⟩ := Option.isSome_iff_exists.mp (AList.lookup_isSome.mpr hmem)
    have hbuf := hsafe.faithful key buf hlookup
    have hlength : bytes.length = buf.nextExpected := by
      rw [hbuf.content] at hbytes
      rw [← Option.some.inj hbytes, List.length_take, Nat.min_eq_left hbuf.within]
    exact hlength ▸ (hsettled buf hlookup).boundary
  settled := hsettled

/-- The buffer of a segment, opened if need be where the file ends. -/
theorem Aligned.holds_entry (h : Aligned source cs key fs r) (hcounted : r.Counted)
    (hopens : env.opens = true) :
    (entry env key'.1 key'.2).Holds (fun _ => True)
      (.returns fun buf t r' => Aligned source cs key t r' ∧ r'.Counted ∧
        r'.segments.lookup key' = some buf ∧ r'.pendDropped = r.pendDropped ∧
        ∀ D, r.Has cs D key → (key ∈ r.segments ∨ D = []) → r'.Has cs D key) fs r := by
  refine SovProbe.holds_entry (fun buf hlookup => ?_) fun hlookup => ?_
  · exact ⟨h, hcounted, hlookup, rfl, fun D hD _ => hD⟩
  · refine (SovProbe.holds_openBuf rfl hopens fun _ _ => trivial).imp_returns ?_
    rintro buf t r' ⟨rfl, hname, i, hi, rfl⟩
    have hopened : Opened (segmentName key') fs t := hname
    have hsafe := h.safe.opened hopened
    have hinitial := hsafe.prefixes key' _ hopened.file
    have hinserted := hsafe.insert (Faithful.fresh hi hopened.file hinitial)
    have hfile : ∀ bytes, t.file? (segmentName key) = some bytes → Boundary cs bytes.length := by
      intro bytes hbytes
      by_cases hkey : key = key'
      · subst hkey
        rw [hopened.file] at hbytes
        rw [← Option.some.inj hbytes]
        cases hold : fs.file? (segmentName key) with
        | none => exact boundary_zero cs
        | some old => exact h.file old hold
      · rw [hopened.others _ (segmentName_injective.ne hkey)] at hbytes
        exact h.file bytes hbytes
    have hhas : ∀ D, r'.Has cs D key → (key ∈ r'.segments ∨ D = []) →
        Has cs D key { r' with segments := r'.segments.insert key' (SegmentBuf.fresh (some i)
          (segmentName key') ((fs.file? (segmentName key')).getD []).length) } := by
      intro D hD hmem buf hbuf
      rcases AList.lookup_insert_eq_some.mp hbuf with ⟨rfl, rfl⟩ | ⟨-, hother⟩
      · have hnew : key ∉ r'.segments := AList.lookup_eq_none.mp hlookup
        rw [hmem.resolve_left hnew]
        exact Settled.start (hfile _ hopened.file)
      · exact hD buf hother
    refine ⟨⟨hinserted, hfile, hhas [] h.settled (Or.inr rfl)⟩, ?_, AList.lookup_insert _, rfl,
      hhas⟩
    exact hcounted.insert (SegmentBuf.Counted.fresh _ _ _)

/-- **`place_raw`** of a chunk of a segment: an aligned segment stays aligned, and where
nothing is evicted it has the chunk if it is one of its own. -/
theorem Aligned.holds_placeRaw {partition : SegmentKey → List (List UInt8)} {offset : Nat}
    {plaintext : List UInt8} (hcs : ∀ c ∈ partition key, c ≠ [])
    (h : Aligned (fun key => (partition key).flatten) (partition key) key fs r)
    (hcounted : r.Counted) (hworks : env.Works)
    (hchunk : (offset, plaintext) ∈ located 0 (partition key')) :
    (placeRaw env key'.1 key'.2 offset plaintext).Holds (fun _ => True)
      (.returns fun _ t r' =>
        Aligned (fun key => (partition key).flatten) (partition key) key t r' ∧
        r.pendDropped ≤ r'.pendDropped ∧
        ∀ D, r.Has (partition key) D key → key ∈ r.segments → r'.pendDropped = r.pendDropped →
          r'.Has (partition key) (D ++ if key' = key then [(offset, plaintext)] else []) key)
      fs r := by
  unfold placeRaw
  rw [holds_modify_bind]
  have htotal : Aligned (fun key => (partition key).flatten) (partition key) key fs
      { r with totalBytes := r.totalBytes + plaintext.length } :=
    ⟨{ h.safe with }, h.file, h.settled⟩
  refine Holds.bind (htotal.holds_entry hcounted hworks.1) ?_
  rintro buf t r₁ ⟨haligned, hr₁, hlookup, hcount, hkeeps⟩
  have hbuf := haligned.safe.faithful key' buf hlookup
  have hself : Extends (partition key').flatten (segmentName key') t t :=
    ⟨rfl, fun _ _ => rfl, haligned.safe.prefixes key'⟩
  have hplace : (SegmentBuf.place env offset plaintext).Holds (fun _ => True) _ t buf :=
    (hbuf.holds_place hself hworks.2 (isChunk_of_located hchunk)).imp (fun _ _ => trivial)
      fun _ _ _ h => h
  refine Holds.bind (holds_onSegment hlookup (hplace.and_returns
    (SegmentBuf.holds_place env offset plaintext t (hr₁ key' buf hlookup)))) ?_
  rintro - v r₂ ⟨buf', ⟨⟨hext, hbuf', hplaced, -⟩, -, -, hcountedbuf, -⟩, rfl⟩
  -- before anything is evicted
  have hsafe := haligned.safe.extend hext hbuf'
  have hhas : ∀ D, r₁.Has (partition key) D key → Has (partition key)
      (D ++ if key' = key then [(offset, plaintext)] else []) key
      { r₁ with segments := r₁.segments.insert key' buf' } := by
    intro D hD buf₂ hbuf₂
    rcases AList.lookup_insert_eq_some.mp hbuf₂ with ⟨rfl, rfl⟩ | ⟨hne, hother⟩
    · rw [if_pos rfl]
      exact (hD buf hlookup).place hcs hchunk hplaced
    · rw [if_neg (Ne.symm hne), List.append_nil]
      exact hD buf₂ hother
  have hput : Aligned (fun key => (partition key).flatten) (partition key) key v
      { r₁ with segments := r₁.segments.insert key' buf' } := by
    refine ⟨hsafe, fun bytes hbytes => ?_, (hhas [] haligned.settled).weaken⟩
    by_cases hkey : key = key'
    · subst hkey
      have hmem : key ∈ r₁.segments.insert key buf' := (AList.mem_insert _).mpr (Or.inl rfl)
      exact (Aligned.of_settled hsafe (hhas [] haligned.settled).weaken hmem).file bytes hbytes
    · rw [hext.others _ (segmentName_injective.ne hkey)] at hbytes
      exact haligned.file bytes hbytes
  have hr₂ : Counted { r₁ with segments := r₁.segments.insert key' buf' } := hr₁.insert hcountedbuf
  rw [holds_get_bind]
  refine (holds_enforcePendingBudget env v _ 0 _ hr₂.covers (Nat.lt_succ_self _)).imp_returns ?_
  rintro - w r₃ ⟨rfl, -, rs, hevicts, -⟩
  have hsafe₃ := (hevicts.invariant (fun _ _ _ hu hevict => hu.evictOnce hevict) hput.safe).1
  have hhas₃ := (hevicts.invariant (fun _ _ _ hu hevict => Has.evictOnce hu hevict)
    hput.settled).1
  have hdropped : r₃.pendDropped = r.pendDropped + rs.length :=
    hevicts.pendDropped.trans (congrArg (· + rs.length) hcount)
  refine ⟨⟨hsafe₃, hput.file, hhas₃⟩, hdropped ▸ Nat.le_add_right _ _, fun D hD hmem hsame => ?_⟩
  have hnothing : r₃ = { r₁ with segments := r₁.segments.insert key' buf' } :=
    hevicts.eq_of_pendDropped (hsame.trans hcount.symm)
  rw [hnothing]
  exact hhas D (hkeeps D hD (Or.inl hmem))

end Reassembler

/-! ## Calls -/

/-- The chunk the call places in the segment. -/
def Call.chunkOf? (key : SegmentKey) : Call → Option (Nat × List UInt8)
  | placeRaw _ key' offset plaintext => if key' = key then some (offset, plaintext) else none
  | _ => none

namespace Call
open Reassembler
variable {fs : FileSystem} {r : Reassembler} {key : SegmentKey} {crc32 : List UInt8 → UInt32}
  {partition : SegmentKey → List (List UInt8)}

/-- What a call leaves of a segment that is sent in chunks. -/
structure Continues (partition : SegmentKey → List (List UInt8)) (key : SegmentKey)
    (chunks : List (Nat × List UInt8)) (r : Reassembler) (t : FileSystem) (r' : Reassembler) :
    Prop where
  aligned : Aligned (fun key => (partition key).flatten) (partition key) key t r'
  counted : r'.Counted
  dropped : r.pendDropped ≤ r'.pendDropped
  has : ∀ D, r.Has (partition key) D key → key ∈ r.segments → r'.pendDropped = r.pendDropped →
    r'.Has (partition key) (D ++ chunks) key

/-- **One call.** -/
theorem holds_perform_continues (hcs : ∀ c ∈ partition key, c ≠ [])
    (h : Aligned (fun key => (partition key).flatten) (partition key) key fs r)
    (hcounted : r.Counted) (crc32 : List UInt8 → UInt32) {c : Call}
    (hc : c.Places fun key o p => (o, p) ∈ located 0 (partition key)) :
    (c.perform crc32).Holds (fun _ => True)
      (.returns fun _ t r' => Continues partition key (c.chunkOf? key).toList r t r') fs r := by
  cases c with
  | placeRaw env key' offset plaintext =>
    refine ((h.holds_placeRaw hcs hcounted hc.1 hc.2).and_returns
      (hcounted.holds_placeRaw env key' offset plaintext fs)).imp_returns ?_
    rintro - t r' ⟨⟨haligned, hdropped, hhas⟩, hr', -⟩
    refine ⟨haligned, hr', hdropped, fun D hD hmem hsame => ?_⟩
    have hnext := hhas D hD hmem hsame
    have hchunk : ((placeRaw env key' offset plaintext).chunkOf? key).toList =
        if key' = key then [(offset, plaintext)] else [] := by
      by_cases hkey : key' = key <;> simp [chunkOf?, hkey]
    rwa [hchunk]
  | sealFrame key' sealedSize =>
    have hsafe : (onSealFrame crc32 key'.1 key'.2 sealedSize).Holds (fun _ => True) _ fs r :=
      h.safe.holds_onSealFrame crc32 sealedSize
    refine ((holds_onSealFrame crc32 key' sealedSize fs r).and_returns (hsafe.and_returns
      (holds_onSealFrame_pendDropped crc32 key' sealedSize fs r))).bind ?_
    rintro - t r' ⟨⟨rfl, -, hsame⟩, ⟨-, hsafe⟩, hdropped⟩
    have hhas : ∀ D, r.Has (partition key) D key → r'.Has (partition key) D key := by
      intro D hD buf hlookup
      obtain ⟨buf₀, hlookup₀, hdata⟩ := hsame.lookup hlookup
      simp only [SegmentBuf.data, Prod.mk.injEq] at hdata
      rw [hdata.2.2.1, hdata.2.2.2.1]
      exact hD buf₀ hlookup₀
    refine (holds_pure _).mpr ⟨⟨hsafe, h.file, hhas [] h.settled⟩, (hcounted.sameData hsame).1,
      Nat.le_of_eq hdropped.symm, fun D hD _ _ => ?_⟩
    have hnone : ((sealFrame key' sealedSize).chunkOf? key).toList = [] := rfl
    rw [hnone, List.append_nil]
    exact hhas D hD
  | remove key' =>
    have hremove : (removeSegment key'.1 key'.2).Holds (fun _ => True) _ fs r :=
      h.safe.holds_removeSegment key'
    refine (Holds.and_returns (holds_removeSegment key' fs r) hremove).imp_returns ?_
    rintro - t r' ⟨⟨rfl, rfl⟩, -, hsafe⟩
    have hhas : ∀ D, r.Has (partition key) D key →
        Has (partition key) D key { r with segments := r.segments.erase key' } :=
      fun D hD buf hlookup => hD buf (AList.lookup_erase_eq_some.mp hlookup).2
    refine ⟨⟨hsafe, h.file, hhas [] h.settled⟩, hcounted.erase key', Nat.le_refl _,
      fun D hD _ _ => ?_⟩
    have hnone : ((remove key').chunkOf? key).toList = [] := rfl
    rw [hnone, List.append_nil]
    exact hhas D hD

/-- **Several calls**, none of which drops the segment. -/
theorem holds_receive_continues (hcs : ∀ c ∈ partition key, c ≠ []) (crc32 : List UInt8 → UInt32)
    (calls : List Call) : ∀ (fs : FileSystem) (r : Reassembler),
    Aligned (fun key => (partition key).flatten) (partition key) key fs r → r.Counted → r.Within →
    (∀ c ∈ calls, c.Places fun key o p => (o, p) ∈ located 0 (partition key)) →
    (receive crc32 calls).Holds (fun _ => True)
      (.returns fun _ t r' =>
        Aligned (fun key => (partition key).flatten) (partition key) key t r' ∧
        r.pendDropped ≤ r'.pendDropped ∧
        (.remove key ∉ calls → ∀ D, r.Has (partition key) D key → key ∈ r.segments →
          r'.pendDropped = r.pendDropped →
          r'.Has (partition key) (D ++ calls.filterMap (chunkOf? key)) key)) fs r := by
  induction calls with
  | nil =>
    intro fs r h _ _ _
    refine holds_receive_nil.mpr ⟨h, Nat.le_refl _, fun _ D hD _ _ => ?_⟩
    rwa [List.filterMap_nil, List.append_nil]
  | cons c calls ih =>
    intro fs r h hcounted hwithin hcalls
    rw [holds_receive_cons]
    refine ((holds_perform_continues hcs h hcounted crc32 (hcalls c List.mem_cons_self)).and_returns
      (holds_perform_steady hcounted hwithin crc32 c fs)).imp_returns ?_
    rintro - t r₁ ⟨hfirst, hsteady⟩
    refine (ih t r₁ hfirst.aligned hfirst.counted hsteady.within
      fun c' hc' => hcalls c' (List.mem_cons_of_mem c hc')).imp_returns ?_
    rintro - v r' ⟨haligned, hdropped, hhas⟩
    refine ⟨haligned, Nat.le_trans hfirst.dropped hdropped, fun hremove D hD hmem hsame => ?_⟩
    have hle := hfirst.dropped
    have hnot : c ≠ .remove key := fun heq => hremove (heq ▸ List.mem_cons_self)
    have hstays : key ∈ r₁.segments := by
      obtain ⟨buf, hlookup⟩ := Option.isSome_iff_exists.mp (AList.lookup_isSome.mpr hmem)
      obtain ⟨buf', hlookup', -⟩ := hsteady.rises key hnot buf hlookup
      exact AList.lookup_isSome.mp (by rw [hlookup']; rfl)
    have hnext := hhas (fun hrest => hremove (List.mem_cons_of_mem c hrest)) _
      (hfirst.has D hD hmem (by omega)) hstays (by omega)
    have hchunks : (c :: calls).filterMap (chunkOf? key) =
        (c.chunkOf? key).toList ++ calls.filterMap (chunkOf? key) := by
      cases hchunk : c.chunkOf? key with
      | none => exact List.filterMap_cons_none hchunk
      | some x => exact List.filterMap_cons_some hchunk
    rwa [hchunks, ← List.append_assoc]

end Call

/-! ## Steps and runs of the tasks -/

/-- What comes is a chunk of its segment. -/
def TaskStep.FromChunks (codec : WireCodec) (partition : SegmentKey → List (List UInt8))
    (plain : BlindId → List UInt8) (e : TaskStep) : Prop :=
  e.FromSenders codec (fun key o p => (o, p) ∈ located 0 (partition key)) plain

section
open Reassembler
variable {codec : WireCodec} {crc32 : List UInt8 → UInt32}
  {partition : SegmentKey → List (List UInt8)} {plain : BlindId → List UInt8} {key : SegmentKey}
  {s u : FileSystem × Subscriber} {e : TaskStep} {es : List TaskStep}

theorem TaskStep.FromChunks.fromSources (h : e.FromChunks codec partition plain) :
    e.FromSources codec (fun key => (partition key).flatten) plain :=
  TaskStep.FromSenders.imp h fun _ _ _ hpart => isChunk_of_located hpart

/-- The tasks are trusted, and the segment is aligned. -/
structure Subscriber.Continuing (partition : SegmentKey → List (List UInt8))
    (plain : BlindId → List UInt8) (key : SegmentKey) (s : FileSystem × Subscriber) : Prop where
  trusted : Subscriber.Trusted (fun key => (partition key).flatten) plain s.1 s.2
  aligned : Aligned (fun key => (partition key).flatten) (partition key) key s.1
    s.2.receiver.reassembler

/-- **A step of a task.** -/
theorem Subscriber.Continuing.step (hcodec : codec.HasHeader) (hcs : ∀ c ∈ partition key, c ≠ [])
    (h : Subscriber.Continuing partition plain key s) (hworks : e.Works)
    (hfrom : e.FromChunks codec partition plain) (hstep : e.step codec crc32 s = some u) :
    Subscriber.Continuing partition plain key u ∧
      s.2.receiver.reassembler.pendDropped ≤ u.2.receiver.reassembler.pendDropped ∧
      (e ≠ .finish → ∀ D, s.2.receiver.reassembler.Has (partition key) D key →
        key ∈ s.2.receiver.reassembler.segments →
        u.2.receiver.reassembler.pendDropped = s.2.receiver.reassembler.pendDropped →
        u.2.receiver.reassembler.Has (partition key)
          (D ++ (e.calls codec s.2).filterMap (Call.chunkOf? key)) key ∧
        key ∈ u.2.receiver.reassembler.segments) := by
  obtain ⟨henabled, hdone⟩ := TaskStep.step_eq_some.mp hstep
  have htrusted : (e.perform codec crc32).Holds (Prefixes _) _ s.1 s.2 :=
    h.trusted.holds_perform hcodec hworks hfrom.fromSources henabled
  have hcalls := Call.holds_receive_continues hcs crc32 (e.calls codec s.2) s.1 _ h.aligned
    h.trusted.sound.counted h.trusted.sound.within
    (TaskStep.FromSenders.places hfrom hworks h.trusted.genuine)
  obtain ⟨-, ⟨haligned, hdropped, hhas⟩, -, -, hrises⟩ :=
    (h.trusted.sound.holds_perform hcodec henabled hcalls).done hdone
  refine ⟨⟨htrusted.done hdone, haligned⟩, hdropped, fun hfinish D hD hmem hsame => ⟨?_, ?_⟩⟩
  · exact hhas (fun hremove => hfinish (TaskStep.remove_mem_calls hremove)) D hD hmem hsame
  · obtain ⟨buf, hlookup⟩ := Option.isSome_iff_exists.mp (AList.lookup_isSome.mpr hmem)
    obtain ⟨buf', hlookup', -⟩ := hrises hfinish key buf hlookup
    exact AList.lookup_isSome.mp (by rw [hlookup']; rfl)

/-- **Any run.** -/
theorem Subscriber.continuing_run {start : FileSystem} (hcodec : codec.HasHeader)
    (hcs : ∀ c ∈ partition key, c ≠ [])
    (hstart : Prefixes (fun key => (partition key).flatten) start)
    (hboundary : ∀ bytes, start.file? (segmentName key) = some bytes →
      Boundary (partition key) bytes.length)
    (hworks : ∀ e ∈ es, e.Works) (hfrom : ∀ e ∈ es, e.FromChunks codec partition plain)
    (hrun : Transition.run (TaskStep.step codec crc32) (start, .new) es = some s) :
    Subscriber.Continuing partition plain key s := by
  have hempty : Transition.run (TaskStep.step codec crc32) (start, .new) [] = some (start, .new) :=
    rfl
  have htrusted : Subscriber.Trusted (fun key => (partition key).flatten) plain start .new :=
    Subscriber.trusted_run hcodec hstart (fun e he => absurd he List.not_mem_nil)
      (fun e he => absurd he List.not_mem_nil) hempty
  have hnew : Subscriber.Continuing partition plain key (start, .new) :=
    ⟨htrusted, ⟨nofun, hstart⟩, hboundary, nofun⟩
  have hguarded : Transition.Guarded (TaskStep.step codec crc32)
      (fun _ e => e.Works ∧ e.FromChunks codec partition plain) (start, .new) es := by
    intro xs e hpre _ _
    have hmem : e ∈ es := hpre.subset (List.mem_append_right _ List.mem_cons_self)
    exact ⟨hworks e hmem, hfrom e hmem⟩
  exact Transition.run_invariant_of_guarded
    (fun _ _ _ hs he hstep => (hs.step hcodec hcs he.1 he.2 hstep).1) hnew hguarded hrun

/-- A chunk of the segment is placed in the course of a run. -/
def TaskStep.Places (codec : WireCodec) (crc32 : List UInt8 → UInt32) (s : FileSystem × Subscriber)
    (es : List TaskStep) (key : SegmentKey) (x : Nat × List UInt8) : Prop :=
  ∃ pre e v env, pre ++ [e] <+: es ∧ Transition.run (TaskStep.step codec crc32) s pre = some v ∧
    .placeRaw env key x.1 x.2 ∈ e.calls codec v.2

/-- **A run in which no buffer is dropped and nothing evicted**: the segment has what it had,
and all that is placed in it. -/
theorem Subscriber.Continuing.run (hcodec : codec.HasHeader) (hcs : ∀ c ∈ partition key, c ≠ [])
    (h : Subscriber.Continuing partition plain key s) (hworks : ∀ e ∈ es, e.Works)
    (hfrom : ∀ e ∈ es, e.FromChunks codec partition plain) (hfinish : .finish ∉ es)
    (hmem : key ∈ s.2.receiver.reassembler.segments)
    (hrun : Transition.run (TaskStep.step codec crc32) s es = some u) :
    Subscriber.Continuing partition plain key u ∧
      s.2.receiver.reassembler.pendDropped ≤ u.2.receiver.reassembler.pendDropped ∧
      (u.2.receiver.reassembler.pendDropped = s.2.receiver.reassembler.pendDropped →
        key ∈ u.2.receiver.reassembler.segments ∧
        ∀ D, s.2.receiver.reassembler.Has (partition key) D key → ∃ D',
          u.2.receiver.reassembler.Has (partition key) (D ++ D') key ∧
          ∀ x, TaskStep.Places codec crc32 s es key x → x ∈ D') := by
  induction es generalizing s with
  | nil =>
    obtain rfl := Option.some.inj hrun
    refine ⟨h, Nat.le_refl _, fun _ => ⟨hmem, fun D hD => ⟨[], ?_, fun x hx => ?_⟩⟩⟩
    · rwa [List.append_nil]
    · obtain ⟨pre, e, -, -, hpre, -⟩ := hx
      exact absurd (List.prefix_nil.mp hpre) (by simp)
  | cons e es ih =>
    rw [Transition.run_cons, Option.bind_eq_some_iff] at hrun
    obtain ⟨v, hv, hrest⟩ := hrun
    have hne : e ≠ .finish := fun heq => hfinish (heq ▸ List.mem_cons_self)
    obtain ⟨hv', hdropped, hhas⟩ := h.step hcodec hcs (hworks e List.mem_cons_self)
      (hfrom e List.mem_cons_self) hv
    -- the buffer stays in any case
    have hstays : key ∈ v.2.receiver.reassembler.segments := by
      obtain ⟨-, -, hrises⟩ := h.trusted.sound.step hcodec hv
      obtain ⟨buf, hlookup⟩ := Option.isSome_iff_exists.mp (AList.lookup_isSome.mpr hmem)
      obtain ⟨buf', hlookup', -⟩ := hrises hne key buf hlookup
      exact AList.lookup_isSome.mp (by rw [hlookup']; rfl)
    obtain ⟨hu, hdropped', hall⟩ := ih hv' (fun e' he' => hworks e' (List.mem_cons_of_mem e he'))
      (fun e' he' => hfrom e' (List.mem_cons_of_mem e he'))
      (fun hlast => hfinish (List.mem_cons_of_mem e hlast)) hstays hrest
    refine ⟨hu, Nat.le_trans hdropped hdropped', fun hsame => ?_⟩
    obtain ⟨hmem', hD'⟩ := hall (by omega)
    refine ⟨hmem', fun D hD => ?_⟩
    obtain ⟨D', hhas', hplaced⟩ := hD' _ (hhas hne D hD hmem (by omega)).1
    refine ⟨(e.calls codec s.2).filterMap (Call.chunkOf? key) ++ D', ?_, fun x hx => ?_⟩
    · rwa [← List.append_assoc]
    · obtain ⟨pre, e', w, env, hpre, hw, hcall⟩ := hx
      cases pre with
      | nil =>
        obtain ⟨rfl, -⟩ := List.cons_prefix_cons.mp hpre
        obtain rfl := Option.some.inj hw
        refine List.mem_append_left _ (List.mem_filterMap.mpr ⟨_, hcall, ?_⟩)
        rw [Call.chunkOf?, if_pos rfl]
      | cons e₀ pre =>
        obtain ⟨rfl, htail⟩ := List.cons_prefix_cons.mp hpre
        rw [Transition.run_cons, hv, Option.bind_some] at hw
        exact List.mem_append_right _ (hplaced x ⟨pre, e', w, env, htail, hw, hcall⟩)

/-- What a segment has at any moment: the chunks before its mark, and those that wait. -/
theorem Reassembler.Has.present {r : Reassembler} {cs : List (List UInt8)}
    (h : r.Has cs [] key) {buf : SegmentBuf} (hlookup : r.segments.lookup key = some buf) :
    r.Has cs ((located 0 cs).filter fun x => x.1 < buf.nextExpected ∨
      buf.pending.lookup x.1 = some x.2) key := by
  intro buf' hlookup'
  obtain rfl := Option.some.inj (hlookup.symm.trans hlookup')
  refine { h buf hlookup with delivered := fun o b hmem => ?_ }
  exact of_decide_eq_true (List.mem_filter.mp hmem).2

/-- **A gap that is sent again is closed.**  Everything is sent in chunks, and the segment's
file ended where a chunk ends when the receiver was started; no file operation fails, from
the start on.  Then, whatever was lost, evicted or dropped before: if the segment is being
refilled, every chunk it lacks is sent again, in any order, in whatever frames and between
whatever other messages, and nothing is evicted meanwhile, then the file is the source and
nothing waits; and the next check ends the refill, unless the seal gave a size beyond the
end of the source. -/
theorem gap_repaired (hcodec : codec.HasHeader) (crc32 : List UInt8 → UInt32)
    {start : FileSystem} {before : List TaskStep} (hcs : ∀ c ∈ partition key, c ≠ [])
    (hstart : Prefixes (fun key => (partition key).flatten) start)
    (hboundary : ∀ bytes, start.file? (segmentName key) = some bytes →
      Boundary (partition key) bytes.length)
    (hworks : ∀ e ∈ before ++ es, e.Works)
    (hfrom : ∀ e ∈ before ++ es, e.FromChunks codec partition plain)
    (hbefore : Transition.run (TaskStep.step codec crc32) (start, .new) before = some s)
    (hrefills : s.2.sealTask.segment? = some key) (hfinish : .finish ∉ es)
    (hrun : Transition.run (TaskStep.step codec crc32) s es = some u)
    (hkept : u.2.receiver.reassembler.pendDropped = s.2.receiver.reassembler.pendDropped)
    (hall : ∀ x ∈ located 0 (partition key), s.2.receiver.reassembler.Lacks key x →
      TaskStep.Places codec crc32 s es key x) :
    u.1.file? (segmentName key) = some (partition key).flatten ∧
      (∃ buf, u.2.receiver.reassembler.segments.lookup key = some buf ∧
        buf.nextExpected = (partition key).flatten.length ∧ buf.pending = ∅) ∧
      ∀ gq sealedSize attempt ticks, gq.key = key →
        u.2.sealTask = .verifying gq sealedSize attempt ticks →
        sealedSize ≤ (partition key).flatten.length →
        ∃ v, TaskStep.tick.step codec crc32 u = some v ∧ v.2.sealTask = .removing gq ∧
          v.1 = u.1 := by
  have hs := Subscriber.continuing_run hcodec hcs hstart hboundary
    (fun e he => hworks e (List.mem_append_left _ he))
    (fun e he => hfrom e (List.mem_append_left _ he)) hbefore
  have hmem := hs.trusted.sound.refilling key hrefills
  obtain ⟨buf₀, hlookup₀⟩ := Option.isSome_iff_exists.mp (AList.lookup_isSome.mpr hmem)
  obtain ⟨hu, -, hruns⟩ := hs.run hcodec hcs (fun e he => hworks e (List.mem_append_right _ he))
    (fun e he => hfrom e (List.mem_append_right _ he)) hfinish hmem hrun
  obtain ⟨hmem', hD⟩ := hruns hkept
  obtain ⟨D', hhas, hplaced⟩ := hD _ (hs.aligned.settled.present hlookup₀)
  obtain ⟨buf, hlookup⟩ := Option.isSome_iff_exists.mp (AList.lookup_isSome.mpr hmem')
  have hcomplete : ∀ x ∈ located 0 (partition key), x ∈ ((located 0 (partition key)).filter
      fun x => x.1 < buf₀.nextExpected ∨ buf₀.pending.lookup x.1 = some x.2) ++ D' := by
    intro x hx
    by_cases hlacks : s.2.receiver.reassembler.Lacks key x
    · exact List.mem_append_right _ (hplaced x (hall x hx hlacks))
    · refine List.mem_append_left _ (List.mem_filter.mpr ⟨hx, decide_eq_true ?_⟩)
      by_contra hnot
      obtain ⟨hnext, hwaits⟩ := not_or.mp hnot
      refine hlacks fun buf' hlookup' => ?_
      obtain rfl := Option.some.inj (hlookup₀.symm.trans hlookup')
      refine ⟨Nat.not_lt.mp hnext, fun hpending => hwaits ?_⟩
      obtain ⟨b, hb⟩ := Option.isSome_iff_exists.mp (AList.lookup_isSome.mpr hpending)
      have hlocated := ((hs.aligned.settled buf₀ hlookup₀).waiting x.1 b hb).1
      rw [hb, ← located_inj hcs hlocated hx rfl]
  obtain ⟨hmark, hpending⟩ := (hhas buf hlookup).complete hcs hcomplete
  have hbuf := hu.trusted.safe.faithful key buf hlookup
  refine ⟨?_, ⟨buf, hlookup, hmark, hpending⟩,
    fun gq sealedSize attempt ticks hkey htask hsize => ?_⟩
  · rw [hbuf.content, hmark, List.take_length]
  · have henabled : TaskStep.tick.enabled u.2.sealTask = true := by rw [htask]; rfl
    refine ⟨(u.1, { u.2 with sealTask := u.2.sealTask.verify u.2.receiver.reassembler }),
      TaskStep.step_eq_some.mpr ⟨henabled, rfl⟩, ?_, rfl⟩
    rw [htask, SealTask.verify, hkey, hlookup, Option.map_some, Option.getD_some, hmark]
    exact if_pos hsize

/-- Two chunks of one byte. -/
def pairPartition (key : SegmentKey) : List (List UInt8) := if key = (1, 0) then [[7], [8]] else []

/-- Of the two bytes the second one is lost, and sent again. -/
theorem gap_repaired_late : ∃ s u : FileSystem × Subscriber,
    Transition.run (TaskStep.step byteWire Crc.ieee) s ((lateSecond.drop 2).take 2) = some u ∧
    u.1.file? (segmentName (1, 0)) = some [7, 8] := by
  have hruns : (Transition.run (TaskStep.step byteWire Crc.ieee) (FileSystem.empty, .new)
      (lateSecond.take 2)).map (fun s => (s.2.sealTask.segment?,
        (s.2.receiver.reassembler.segments.lookup (1, 0)).map SegmentBuf.nextExpected,
        (Transition.run (TaskStep.step byteWire Crc.ieee) s ((lateSecond.drop 2).take 1)).isSome,
        (Transition.run (TaskStep.step byteWire Crc.ieee) s ((lateSecond.drop 2).take 2)).map
          fun u => decide (u.2.receiver.reassembler.pendDropped =
            s.2.receiver.reassembler.pendDropped))) =
      some (some (1, 0), some 1, true, some true) := by decide +kernel
  obtain ⟨s, hs, htuple⟩ := Option.map_eq_some_iff.mp hruns
  simp only [Prod.mk.injEq] at htuple
  obtain ⟨hrefills, hmark, hreplies, hkept⟩ := htuple
  obtain ⟨v, hv⟩ := Option.isSome_iff_exists.mp hreplies
  obtain ⟨u, hu, hsame⟩ := Option.map_eq_some_iff.mp hkept
  have hcs : ∀ c ∈ pairPartition (1, 0), c ≠ [] := by decide
  have hempty : ∀ name bytes, FileSystem.empty.file? name ≠ some bytes := by
    intro name bytes hbytes
    cases hbytes
  have hstart : Prefixes (fun key => (pairPartition key).flatten) FileSystem.empty :=
    fun key bytes hbytes => absurd hbytes (hempty _ bytes)
  have hchunks : ∀ e ∈ lateSecond, e.FromChunks byteWire pairPartition fun _ => [] :=
    lateSecond_fromSenders (by decide) (by decide)
  have hsubset : lateSecond.take 2 ++ (lateSecond.drop 2).take 2 ⊆ lateSecond :=
    (List.take_prefix 4 lateSecond).subset
  have hworks : ∀ e ∈ lateSecond.take 2 ++ (lateSecond.drop 2).take 2, e.Works :=
    fun e he => lateSecond_works e (hsubset he)
  have hfrom : ∀ e ∈ lateSecond.take 2 ++ (lateSecond.drop 2).take 2,
      e.FromChunks byteWire pairPartition fun _ => [] := fun e he => hchunks e (hsubset he)
  have hfinish : TaskStep.finish ∉ (lateSecond.drop 2).take 2 := by
    intro hmem
    simp only [lateSecond, List.drop_succ_cons, List.drop_zero, List.take_succ_cons, List.take_zero,
      List.mem_cons, List.not_mem_nil, or_false] at hmem
    rcases hmem with heq | heq <;> cases heq
  have hall : ∀ x ∈ located 0 (pairPartition (1, 0)), s.2.receiver.reassembler.Lacks (1, 0) x →
      TaskStep.Places byteWire Crc.ieee s ((lateSecond.drop 2).take 2) (1, 0) x := by
    intro x hx hlacks
    obtain ⟨buf, hlookup, hnext⟩ := Option.map_eq_some_iff.mp hmark
    have hbehind := (hlacks buf hlookup).1
    have hlocated : x = (0, [7]) ∨ x = (1, [8]) := by
      simpa [pairPartition, located] using hx
    rcases hlocated with rfl | rfl
    · rw [hnext] at hbehind
      exact absurd hbehind (by decide)
    · exact ⟨(lateSecond.drop 2).take 1, .data working [] (byteFrame 1 [8]), v, working,
        List.prefix_refl _, hv, List.mem_singleton.mpr rfl⟩
  obtain ⟨hfile, -⟩ := gap_repaired byteWire_hasHeader Crc.ieee hcs hstart
    (fun bytes hbytes => absurd hbytes (hempty _ bytes)) hworks hfrom hs hrefills hfinish hu
    (of_decide_eq_true hsame) hall
  exact ⟨s, u, hu, hfile⟩

end
end SovProbe
