import SovProbe.PendingEviction
import SovProbe.SegmentPlacement
import SovProbe.WalStream

/-! # Reassembly is safe

Whatever arrives, in whatever order, and whatever is evicted, sealed or removed: the
file of a segment is a prefix of its source, and as long as the segment has a buffer
it is the prefix of the length the buffer believes it has.  So a seal finds nothing
missing exactly when the file is complete.
-/

namespace SovProbe
open Process

/-! ## One file for each segment -/

/-- The name of a segment's file. -/
def segmentName (key : SegmentKey) : FileName := SegmentBuf.segPath key.1 key.2

/-- **No two segments share a file name**, not even segments of different devices. -/
theorem segmentName_injective : Function.Injective segmentName := by
  rintro ⟨devId, seq⟩ ⟨devId', seq'⟩ h
  have hsuffix : ∀ b ∈ (ascii ".wal").head?, Decimal.isDigit b = false := by
    rintro b ⟨⟩
    decide
  have hseq : ∀ {s s' : UInt32}, Decimal.pad 4 s.toNat ++ ascii ".wal" =
      Decimal.pad 4 s'.toNat ++ ascii ".wal" → s = s' := by
    intro s s' heq
    exact UInt32.toNat_inj.mp (Decimal.pad_append_inj hsuffix hsuffix heq).1
  have hsegment : ∀ rest, (ascii "segment_" ++ rest).head? = some 115 := fun _ => rfl
  have hdevice : ∀ rest, (ascii "dev" ++ rest).head? = some 100 := fun _ => rfl
  have hmiddle : ∀ rest, ∀ b ∈ (ascii "_segment_" ++ rest).head?, Decimal.isDigit b = false := by
    rintro rest b ⟨⟩
    decide
  simp only [segmentName, SegmentBuf.segPath] at h
  by_cases hdev : devId = 1 <;> by_cases hdev' : devId' = 1
  · rw [if_pos hdev, if_pos hdev'] at h
    rw [hdev, hdev', hseq (List.append_cancel_left h)]
  · rw [if_pos hdev, if_neg hdev'] at h
    have hhead := congrArg List.head? h
    rw [hsegment, hdevice] at hhead
    exact absurd hhead (by decide)
  · rw [if_neg hdev, if_pos hdev'] at h
    have hhead := congrArg List.head? h
    rw [hsegment, hdevice] at hhead
    exact absurd hhead (by decide)
  · rw [if_neg hdev, if_neg hdev'] at h
    obtain ⟨hdevs, hrest⟩ := Decimal.pad_append_inj (hmiddle _) (hmiddle _)
      (List.append_cancel_left h)
    rw [UInt32.toNat_inj.mp hdevs, hseq (List.append_cancel_left hrest)]

/-! ## The invariant -/

variable (source : SegmentKey → List UInt8)

/-- Every segment file there is holds a prefix of its source. -/
def Prefixes (fs : FileSystem) : Prop :=
  ∀ key bytes, fs.file? (segmentName key) = some bytes → bytes <+: source key

/-- The files and the buffers are faithful to the sources. -/
structure Safe (fs : FileSystem) (r : Reassembler) : Prop where
  faithful : ∀ key buf, r.segments.lookup key = some buf →
    Faithful (source key) (segmentName key) fs buf
  prefixes : Prefixes source fs

variable {source} {fs t : FileSystem} {r : Reassembler} {buf buf' : SegmentBuf} {key : SegmentKey}
  {env : Environment} {crash : FileSystem → Prop}

theorem Faithful.frame {S : List UInt8} {name : FileName} (h : Faithful S name fs buf)
    (hlookup : ∀ i, fs.dir.lookup name = some i → t.dir.lookup name = some i)
    (hfile : t.file? name = fs.file? name) : Faithful S name t buf where
  path := h.path
  file := by
    obtain ⟨i, hi, hname⟩ := h.file
    exact ⟨i, hi, hlookup i hname⟩
  content := hfile.trans h.content
  within := h.within
  chunks := h.chunks
  accounted := h.accounted

/-- Extending one file leaves the others alone. -/
theorem Extends.prefixes (h : Extends (source key) (segmentName key) fs t)
    (hfs : Prefixes source fs) : Prefixes source t := by
  intro key' bytes hbytes
  by_cases hkey : key' = key
  · rw [hkey] at hbytes ⊢
    exact h.isPrefix bytes hbytes
  · rw [h.others _ (segmentName_injective.ne hkey)] at hbytes
    exact hfs key' bytes hbytes

namespace Safe

/-- One segment's file and buffer have gone on. -/
theorem extend (h : Safe source fs r) (hext : Extends (source key) (segmentName key) fs t)
    (hbuf : Faithful (source key) (segmentName key) t buf) :
    Safe source t { r with segments := r.segments.insert key buf } where
  faithful key' buf' hlookup := by
    rcases AList.lookup_insert_eq_some.mp hlookup with ⟨rfl, rfl⟩ | ⟨hkey, hother⟩
    · exact hbuf
    · refine (h.faithful key' buf' hother).frame (fun i hi => hext.dir ▸ hi) ?_
      exact hext.others _ (segmentName_injective.ne hkey)
  prefixes := hext.prefixes h.prefixes

/-- A buffer is replaced by one that is faithful. -/
theorem insert (h : Safe source fs r) (hbuf : Faithful (source key) (segmentName key) fs buf) :
    Safe source fs { r with segments := r.segments.insert key buf } :=
  h.extend ⟨rfl, fun _ _ => rfl, h.prefixes key⟩ hbuf

/-- The file of some segment is opened. -/
theorem opened (h : Safe source fs r) (hopened : Opened (segmentName key) fs t) :
    Safe source t r where
  faithful key' buf hlookup := by
    have hbuf := h.faithful key' buf hlookup
    refine hbuf.frame (hopened.lookup _) ?_
    by_cases hname : segmentName key' = segmentName key
    · rw [hname, hopened.file, ← hname, hbuf.content, Option.getD_some]
    · exact hopened.others _ hname
  prefixes key' bytes hbytes := by
    by_cases hname : segmentName key' = segmentName key
    · rw [hname, hopened.file, ← hname] at hbytes
      rw [← Option.some.inj hbytes]
      cases hfile : fs.file? (segmentName key') with
      | none => exact List.nil_prefix
      | some written => exact h.prefixes key' written hfile
    · rw [hopened.others _ hname] at hbytes
      exact h.prefixes key' bytes hbytes

end Safe

/-! ## The operations -/

/-- A segment without a buffer gets one. -/
theorem Safe.holds_openBuf (h : Safe source fs r) (hopens : env.opens = true) :
    (SegmentBuf.openBuf env key.1 key.2).Holds (Prefixes source)
      (.returns fun buf t r' => r' = r ∧ Safe source t r ∧
        Faithful (source key) (segmentName key) t buf) fs r := by
  refine (SovProbe.holds_openBuf rfl hopens fun t ht => (h.opened ht).prefixes).imp_returns ?_
  rintro buf t r' ⟨rfl, hopened, i, hlookup, rfl⟩
  have hsafe := h.opened hopened
  exact ⟨rfl, hsafe, Faithful.fresh hlookup hopened.file (hsafe.prefixes key _ hopened.file)⟩

/-- An eviction touches no file. -/
theorem Safe.evictOnce {position : SegmentKey → Nat} {u : Reassembler} (h : Safe source fs r)
    (hevict : r.evictOnce position = some u) : Safe source fs u := by
  obtain ⟨key, buf, o, bytes, -, hlookup, hfirst, rfl⟩ := Reassembler.evictOnce_eq_some.mp hevict
  obtain ⟨-, hrest, -⟩ :=
    (h.faithful key buf hlookup).take_pending (AList.first?_eq_some.mp hfirst).1
  exact { h.insert hrest with }

/-- **The eviction loop** ends, and touches no file. -/
theorem Safe.holds_enforcePendingBudget (fuel n : Nat) (r : Reassembler) (h : Safe source fs r)
    (hfuel : r.pendingCount < fuel) :
    (Reassembler.enforcePendingBudget env fuel n).Holds crash
      (.returns fun _ t r' => t = fs ∧ Safe source fs r') fs r := by
  have hcovers : r.Covers := fun key buf hlookup => (h.faithful key buf hlookup).accounted
  refine (Reassembler.holds_enforcePendingBudget env fs fuel n r hcovers hfuel).imp_returns ?_
  rintro - t r' ⟨rfl, -, rs, hevicts, -⟩
  exact ⟨rfl, (hevicts.invariant (fun _ _ _ hr hevict => hr.evictOnce hevict) h).1⟩

theorem Safe.holds_entry (h : Safe source fs r) (hopens : env.opens = true) :
    (Reassembler.entry env key.1 key.2).Holds (Prefixes source)
      (.returns fun buf t r' => Safe source t r' ∧ r'.segments.lookup key = some buf) fs r := by
  refine SovProbe.holds_entry (fun buf hlookup => ⟨h, hlookup⟩) fun _ => ?_
  refine (h.holds_openBuf hopens).imp_returns ?_
  rintro buf t r' ⟨rfl, hsafe, hbuf⟩
  exact ⟨hsafe.insert hbuf, AList.lookup_insert _⟩

/-- **`place_raw`** of a chunk of the source. -/
theorem Safe.holds_placeRaw {offset : Nat} {plaintext : List UInt8} (h : Safe source fs r)
    (hopens : env.opens = true) (hwrites : ∀ n, env.writes n = none)
    (hchunk : IsChunk (source key) offset plaintext) :
    (Reassembler.placeRaw env key.1 key.2 offset plaintext).Holds (Prefixes source)
      (.returns fun _ t r' => Safe source t r') fs r := by
  unfold Reassembler.placeRaw
  rw [holds_modify_bind]
  have hcounted : Safe source fs { r with totalBytes := r.totalBytes + plaintext.length } :=
    { h with }
  refine Holds.bind (hcounted.holds_entry hopens) ?_
  rintro buf t r' ⟨hsafe, hlookup⟩
  have hbuf := hsafe.faithful key buf hlookup
  have hplace := hbuf.holds_place ⟨rfl, fun _ _ => rfl, hsafe.prefixes key⟩ hwrites hchunk
  have hcut := hplace.imp (fun u hu => hu.prefixes hsafe.prefixes) fun _ _ _ h => h
  refine Holds.bind (holds_onSegment hlookup hcut) ?_
  rintro - u r₁ ⟨buf', ⟨hext, hbuf', -⟩, rfl⟩
  rw [holds_get_bind]
  refine ((hsafe.extend hext hbuf').holds_enforcePendingBudget _ 0 _
    (Nat.lt_succ_self _)).imp_returns ?_
  rintro - u r₂ ⟨rfl, hsafe'⟩
  exact hsafe'

theorem Faithful.holds_countRecords {S : List UInt8} {name : FileName}
    (h : Faithful S name fs buf) (crc32 : List UInt8 → UInt32) :
    (SegmentBuf.countRecords crc32).Holds crash
      (.returns fun _ t buf' => t = fs ∧ Faithful S name fs buf') fs buf := by
  have hfile : fs.file? buf.path = some (S.take buf.nextExpected) := by rw [h.path, h.content]
  unfold SegmentBuf.countRecords
  simp only [holds_bind, holds_get, holds_read, hfile, WalRecord.decodeStream_eq, holds_modify]
  exact ⟨rfl, { h with }⟩

/-- A seal finds missing what lies between the end of the file and the sealed size. -/
theorem Faithful.holds_onSeal {S : List UInt8} {name : FileName} (h : Faithful S name fs buf)
    (crc32 : List UInt8 → UInt32) (sealedSize : Nat) :
    (SegmentBuf.onSeal crc32 sealedSize).Holds crash
      (.returns fun missing t buf' => t = fs ∧ missing = sealedSize - buf.nextExpected ∧
        Faithful S name fs buf') fs buf := by
  unfold SegmentBuf.onSeal
  rw [holds_get_bind, holds_modify_bind]
  have hsealed : Faithful S name fs { buf with
      sealed := true
      missingOnSeal := sealedSize - buf.nextExpected } := { h with }
  refine (hsealed.holds_countRecords crc32).bind ?_
  rintro - t buf' ⟨rfl, hbuf'⟩
  exact (holds_pure _).mpr ⟨rfl, rfl, hbuf'⟩

/-- **`on_seal_frame`** touches no file. -/
theorem Safe.holds_onSealFrame (h : Safe source fs r) (crc32 : List UInt8 → UInt32)
    (sealedSize : Nat) :
    (Reassembler.onSealFrame crc32 key.1 key.2 sealedSize).Holds crash
      (.returns fun _ t r' => t = fs ∧ Safe source fs r') fs r := by
  unfold Reassembler.onSealFrame
  rw [holds_modify_bind, holds_get_bind]
  have hcounted : Safe source fs { r with sealedSegments := r.sealedSegments + 1 } := { h with }
  cases hlookup : r.segments.lookup key with
  | none =>
    exact (holds_pure _).mpr ⟨rfl, hcounted⟩
  | some buf =>
    refine Holds.bind (holds_onSegment hlookup
      ((h.faithful key buf hlookup).holds_onSeal crc32 sealedSize)) ?_
    rintro missing t r' ⟨buf', ⟨rfl, -, hbuf'⟩, rfl⟩
    have hsealed := hcounted.insert hbuf'
    by_cases hmissing : missing > 0
    · rw [if_pos hmissing, holds_modify_bind]
      by_cases hnext : buf.nextExpected > 0
      · rw [if_pos hnext]
        exact (holds_pure _).mpr ⟨rfl, { hsealed with }⟩
      · rw [if_neg hnext]
        exact (holds_pure _).mpr ⟨rfl, { hsealed with }⟩
    · rw [if_neg hmissing]
      exact (holds_pure _).mpr ⟨rfl, hsealed⟩

theorem Safe.holds_removeSegment (h : Safe source fs r) (key : SegmentKey) :
    (Reassembler.removeSegment key.1 key.2).Holds crash
      (.returns fun _ t r' => t = fs ∧ Safe source fs r') fs r := by
  refine (holds_modify _).mpr ⟨rfl, ?_, h.prefixes⟩
  exact fun key' buf hlookup => h.faithful key' buf (AList.lookup_erase_eq_some.mp hlookup).2

/-! ## Runs -/

/-- What is asked of the receiver. -/
inductive Call where
  | placeRaw (env : Environment) (key : SegmentKey) (offset : Nat) (plaintext : List UInt8)
  | sealFrame (key : SegmentKey) (sealedSize : Nat)
  | remove (key : SegmentKey)

namespace Call

/-- The call, as the receiver makes it. -/
def perform (crc32 : List UInt8 → UInt32) : Call → Process FileSystem Reassembler Unit
  | placeRaw env key offset plaintext => Reassembler.placeRaw env key.1 key.2 offset plaintext
  | sealFrame key sealedSize => do
    let _ ← Reassembler.onSealFrame crc32 key.1 key.2 sealedSize
  | remove key => Reassembler.removeSegment key.1 key.2

/-- A chunk placed is a part of the source, and the file operations succeed. -/
def Admissible (source : SegmentKey → List UInt8) : Call → Prop
  | placeRaw env key offset plaintext =>
    env.opens = true ∧ (∀ n, env.writes n = none) ∧ IsChunk (source key) offset plaintext
  | _ => True

end Call

/-- A run of the receiver. -/
def receive (crc32 : List UInt8 → UInt32) (calls : List Call) :
    Process FileSystem Reassembler Unit := calls.forM (Call.perform crc32)

/-- **One call.** -/
theorem Safe.holds_perform (h : Safe source fs r) (crc32 : List UInt8 → UInt32) {c : Call}
    (hc : c.Admissible source) :
    (c.perform crc32).Holds (Prefixes source) (.returns fun _ t r' => Safe source t r') fs r := by
  cases c with
  | placeRaw env key offset plaintext =>
    obtain ⟨hopens, hwrites, hchunk⟩ := hc
    exact h.holds_placeRaw hopens hwrites hchunk
  | sealFrame key sealedSize =>
    refine Holds.bind (h.holds_onSealFrame crc32 sealedSize) ?_
    rintro - t r' ⟨rfl, hsafe⟩
    exact (holds_pure _).mpr hsafe
  | remove key =>
    refine (h.holds_removeSegment key).imp_returns ?_
    rintro - t r' ⟨rfl, hsafe⟩
    exact hsafe

/-- **The invariant of runs.** -/
theorem safe_run (crc32 : List UInt8 → UInt32) {start : FileSystem} {calls : List Call}
    (hstart : Prefixes source start) (hcalls : ∀ c ∈ calls, c.Admissible source) :
    (receive crc32 calls).Holds (Prefixes source)
      (.returns fun _ t r => Safe source t r) start .new := by
  have hnew : Safe source start .new := ⟨nofun, hstart⟩
  refine holds_forM (fun _ t r => Safe source t r) (fun pre c hpre t r hsafe => ?_) hnew
  have hmem : c ∈ calls := hpre.subset (List.mem_append_right _ List.mem_cons_self)
  exact hsafe.holds_perform crc32 (hcalls c hmem)

/-- **The receiver never writes a wrong byte and never hides a loss.**  After any calls
each segment that has a buffer has a file of its own, which holds exactly the first
`next_expected` bytes of the source; sealed at the size of the source it finds nothing
missing if and only if the file is the source.  No other segment file and no state of
the disk on the way is more than a prefix. -/
theorem reassembly_safe (crc32 : List UInt8 → UInt32) {source : SegmentKey → List UInt8}
    {start : FileSystem} {calls : List Call} (hstart : Prefixes source start)
    (hcalls : ∀ c ∈ calls, c.Admissible source) :
    (∃ t r, (receive crc32 calls start .new).outcome = .done () t r ∧
      Prefixes source t ∧
      (∀ key buf, r.segments.lookup key = some buf →
        buf.path = segmentName key ∧
        t.file? (segmentName key) = some ((source key).take buf.nextExpected) ∧
        buf.nextExpected ≤ (source key).length ∧
        ∃ missing t' buf', (SegmentBuf.onSeal crc32 (source key).length t buf).outcome =
            .done missing t' buf' ∧
          (missing = 0 ↔ t.file? (segmentName key) = some (source key))) ∧
      ∀ key key' buf buf', r.segments.lookup key = some buf → r.segments.lookup key' = some buf' →
        key ≠ key' → buf.path ≠ buf'.path ∧ buf.file ≠ buf'.file) ∧
    ∀ t ∈ (receive crc32 calls start .new).trace, Prefixes source t := by
  have hrun := safe_run crc32 hstart hcalls
  refine ⟨?_, hrun.1⟩
  obtain ⟨⟨⟩, t, r, hdone, hsafe⟩ := hrun.returned
  refine ⟨t, r, hdone, hsafe.prefixes, ?_, ?_⟩
  · intro key buf hlookup
    have hbuf := hsafe.faithful key buf hlookup
    refine ⟨hbuf.path, hbuf.content, hbuf.within, ?_⟩
    have hseal : (SegmentBuf.onSeal crc32 (source key).length).Holds (fun _ => True) _ t buf :=
      hbuf.holds_onSeal crc32 (source key).length
    obtain ⟨missing, t', buf', hmissing, rfl, rfl, -⟩ := hseal.returned
    refine ⟨_, t', buf', hmissing, ?_⟩
    rw [hbuf.content, Option.some.injEq, List.take_eq_self_iff, Nat.sub_eq_zero_iff_le]
  · intro key key' buf buf' hlookup hlookup' hne
    have hbuf := hsafe.faithful key buf hlookup
    have hbuf' := hsafe.faithful key' buf' hlookup'
    have hname := segmentName_injective.ne hne
    rw [hbuf.path, hbuf'.path]
    refine ⟨hname, fun hfile => hname ?_⟩
    obtain ⟨i, hi, hdir⟩ := hbuf.file
    obtain ⟨j, hj, hdir'⟩ := hbuf'.file
    rw [hi, hj] at hfile
    exact t.inode_inj hdir (Option.some.inj hfile ▸ hdir')

/-- Two segments of the same number. -/
def sampleSource (key : SegmentKey) : List UInt8 :=
  if key = (1, 0) then [1, 2, 3] else if key = (2, 0) then [7] else []

/-- File operations that succeed. -/
def working : Environment := ⟨true, fun _ => none, fun _ _ => 0⟩

/-- Chunks out of order and of two devices, a seal, a removal and a repetition. -/
def sampleCalls : List Call :=
  [.placeRaw working (1, 0) 2 [3], .placeRaw working (2, 0) 0 [7],
    .placeRaw working (1, 0) 0 [1, 2], .sealFrame (1, 0) 3, .remove (1, 0),
    .placeRaw working (1, 0) 0 [1, 2]]

theorem reassembly_safe_sample : ∃ t r,
    (receive Crc.ieee sampleCalls FileSystem.empty .new).outcome = .done () t r ∧
      Prefixes sampleSource t := by
  have hstart : Prefixes sampleSource FileSystem.empty := nofun
  have hcalls : ∀ c ∈ sampleCalls, c.Admissible sampleSource := by
    intro c hc
    simp only [sampleCalls, List.mem_cons, List.not_mem_nil, or_false] at hc
    rcases hc with rfl | rfl | rfl | rfl | rfl | rfl
    · exact ⟨rfl, fun _ => rfl, by decide, by decide⟩
    · exact ⟨rfl, fun _ => rfl, by decide, by decide⟩
    · exact ⟨rfl, fun _ => rfl, by decide, by decide⟩
    · trivial
    · trivial
    · exact ⟨rfl, fun _ => rfl, by decide, by decide⟩
  obtain ⟨⟨t, r, hdone, hprefixes, -⟩, -⟩ := reassembly_safe Crc.ieee hstart hcalls
  exact ⟨t, r, hdone, hprefixes⟩

end SovProbe
