import SovProbe.PendingAccounting

/-! # Requests for what is missing

A seal says how large its segment is, and if something of it is missing the receiver is to
ask for it, from the end of what it has written in one piece.  It asks only behind a
beginning: a seal of a segment whose first bytes have not come is counted, and nothing is
asked for.  So every gap is asked for exactly where the beginning has come, or nothing is
missing (`Call.gap_request_iff`).

What is written in one piece is what is in the file, as long as files can be opened and
written (`Stored`).
-/

namespace SovProbe
open Process

/-- The buffer writes to the file of this name, and counts what is in it. -/
structure SegmentBuf.Stored (fs : FileSystem) (name : FileName) (buf : SegmentBuf) : Prop where
  path : buf.path = name
  file : ∃ i, buf.file = some i ∧ fs.dir.lookup name = some i
  size : buf.nextExpected = fileSize fs name

namespace SegmentBuf
variable {fs t : FileSystem} {name : FileName} {buf buf' : SegmentBuf}

theorem Stored.tied (h : buf.Stored fs name) : Tied name fs buf where
  path := h.path
  file i hi := by
    obtain ⟨j, hj, hlookup⟩ := h.file
    rwa [Option.some.inj (hi.symm.trans hj)]

theorem Stored.congr (h : buf.Stored fs name) (hdata : buf'.data = buf.data) :
    buf'.Stored fs name := by
  simp only [data, Prod.mk.injEq] at hdata
  obtain ⟨hfile, hpath, hnext, -⟩ := hdata
  exact ⟨hpath.trans h.path, hfile ▸ h.file, hnext.trans h.size⟩

/-- Something happens to other files. -/
theorem Stored.frame (h : buf.Stored fs name)
    (hlookup : ∀ i, fs.dir.lookup name = some i → t.dir.lookup name = some i)
    (hfile : t.file? name = fs.file? name) : buf.Stored t name where
  path := h.path
  file := by
    obtain ⟨i, hi, hname⟩ := h.file
    exact ⟨i, hi, hlookup i hname⟩
  size := by rw [h.size, fileSize, fileSize, hfile]

/-- What is written reaches the file. -/
theorem Stored.wrote {env : Environment} {n : Nat} {bs : List (List UInt8)}
    (h : buf.Stored fs name) (hworks : ∀ n, env.writes n = none)
    (hwrote : Wrote env n bs fs t buf buf') : buf'.Stored t name := by
  obtain ⟨i, hi, hlookup⟩ := h.file
  have hreached : reached env buf.file n bs = bs.flatten.length := by
    refine (reached_eq_iff env buf.file bs n).mpr fun j b _ => ?_
    rw [hi, hworks]
    rfl
  refine ⟨hwrote.path.trans h.path, ⟨i, hwrote.file.trans hi, ?_⟩, ?_⟩
  · rwa [hwrote.dir]
  · rw [hwrote.nextExpected, hwrote.size name h.tied, hreached, h.size]

end SegmentBuf

namespace Reassembler

/-- Every buffer counts what is in the file of its segment. -/
def Stored (fs : FileSystem) (self : Reassembler) : Prop :=
  ∀ key buf, self.segments.lookup key = some buf → buf.Stored fs (segmentName key)

variable {fs t : FileSystem} {r r' : Reassembler} {key : SegmentKey} {buf : SegmentBuf}
  {env : Environment}

theorem Stored.new (fs : FileSystem) : Stored fs .new := nofun

theorem Stored.sameData (h : r.Stored fs) (hsame : SameData r r') : r'.Stored fs := by
  intro key buf hlookup
  obtain ⟨buf₀, hlookup₀, hdata⟩ := hsame.lookup hlookup
  exact (h key buf₀ hlookup₀).congr hdata

/-- One buffer is put in, and the files of the other segments are left alone. -/
theorem Stored.insert (hothers : ∀ key' buf', key' ≠ key → r.segments.lookup key' = some buf' →
      buf'.Stored t (segmentName key')) (hbuf : buf.Stored t (segmentName key)) :
    Stored t { r with segments := r.segments.insert key buf } := by
  intro key' buf' hlookup
  rcases AList.lookup_insert_eq_some.mp hlookup with ⟨rfl, rfl⟩ | ⟨hkey, hother⟩
  · exact hbuf
  · exact hothers key' buf' hkey hother

/-- An eviction touches no file. -/
theorem Stored.evictOnce {position : SegmentKey → Nat} {u : Reassembler} (h : r.Stored fs)
    (hevict : r.evictOnce position = some u) : u.Stored fs := by
  obtain ⟨key, buf, o, bytes, -, hlookup, -, rfl⟩ := evictOnce_eq_some.mp hevict
  have hbuf := h key buf hlookup
  exact Stored.insert (fun key' buf' _ hlookup' => h key' buf' hlookup')
    ⟨hbuf.path, hbuf.file, hbuf.size⟩

theorem Stored.holds_entry (h : r.Stored fs) (hcounted : r.Counted) (hopens : env.opens = true) :
    (entry env key.1 key.2).Holds (fun _ => True)
      (.returns fun buf t r' => r'.segments.lookup key = some buf ∧ r'.Stored t ∧ r'.Counted)
      fs r := by
  refine SovProbe.holds_entry (fun buf hlookup => ⟨hlookup, h, hcounted⟩) fun _ => ?_
  refine (SovProbe.holds_openBuf rfl hopens fun _ _ => trivial).imp_returns ?_
  rintro buf t r' ⟨rfl, hopened, i, hi, rfl⟩
  refine ⟨AList.lookup_insert _, Stored.insert ?_ ⟨rfl, ⟨i, rfl, hi⟩, ?_⟩,
    hcounted.insert (SegmentBuf.Counted.fresh _ _ _)⟩
  · intro key' buf' hkey hlookup'
    refine (h key' buf' hlookup').frame (hopened.lookup _) ?_
    exact hopened.others _ (segmentName_injective.ne hkey)
  · rw [fileSize, segmentName, hopened.file, Option.getD_some]
    rfl

/-- **`place_raw`** where files can be opened and written. -/
theorem Stored.holds_placeRaw {offset : Nat} {plaintext : List UInt8} (h : r.Stored fs)
    (hcounted : r.Counted) (hopens : env.opens = true) (hworks : ∀ n, env.writes n = none) :
    (placeRaw env key.1 key.2 offset plaintext).Holds (fun _ => True)
      (.returns fun _ t r' => r'.Stored t ∧ r'.Counted) fs r := by
  unfold placeRaw
  rw [holds_modify_bind]
  have htotal : Stored fs { r with totalBytes := r.totalBytes + plaintext.length } := h
  refine Holds.bind (htotal.holds_entry hcounted hopens) ?_
  rintro buf t r₁ ⟨hlookup, hstored, hr₁⟩
  refine Holds.bind (holds_onSegment hlookup
    (SegmentBuf.holds_place env offset plaintext t (hr₁ key buf hlookup))) ?_
  rintro - u r₂ ⟨buf', ⟨hwrote, -, hbuf', -⟩, rfl⟩
  have hbuf := hstored key buf hlookup
  have hr₂ : Counted { r₁ with segments := r₁.segments.insert key buf' } := hr₁.insert hbuf'
  have hstored₂ : Stored u { r₁ with segments := r₁.segments.insert key buf' } := by
    refine Stored.insert (fun key' buf'' hkey hlookup' => ?_) (hbuf.wrote hworks hwrote)
    refine (hstored key' buf'' hlookup').frame (fun i hi => hwrote.dir ▸ hi) ?_
    exact hwrote.others _ _ hbuf.tied (segmentName_injective.ne hkey)
  rw [holds_get_bind]
  refine (holds_enforcePendingBudget env u _ 0 _ hr₂.covers (Nat.lt_succ_self _)).imp_returns ?_
  rintro - v r₃ ⟨rfl, -, rs, hevicts, -⟩
  refine ⟨(hevicts.invariant (fun _ _ _ hs hevict => hs.evictOnce hevict) hstored₂).1, ?_⟩
  exact (hr₂.evicts hevicts).1.1

end Reassembler

/-! ## Runs -/

namespace Call
open Reassembler

/-- The file operations of the call succeed. -/
def Works : Call → Prop
  | placeRaw env _ _ _ => env.opens = true ∧ ∀ n, env.writes n = none
  | _ => True

variable {s t : FileSystem × Reassembler} {crc32 : List UInt8 → UInt32} {calls : List Call}

/-- **One call** leaves the buffers counting what is in their files. -/
theorem step_stored (h : s.2.Stored s.1) (hcounted : s.2.Counted) {c : Call} (hworks : c.Works)
    (hstep : c.step crc32 s = some t) : t.2.Stored t.1 ∧ t.2.Counted := by
  have hperform : (c.perform crc32).Holds (fun _ => True)
      (.returns fun _ t r => r.Stored t ∧ r.Counted) s.1 s.2 := by
    cases c with
    | placeRaw env key offset plaintext => exact h.holds_placeRaw hcounted hworks.1 hworks.2
    | sealFrame key sealedSize =>
      refine (holds_onSealFrame crc32 key sealedSize s.1 s.2).bind ?_
      rintro _ t r ⟨rfl, -, hsame⟩
      exact (holds_pure _).mpr ⟨h.sameData hsame, (hcounted.sameData hsame).1⟩
    | remove key =>
      refine (holds_removeSegment key s.1 s.2).imp_returns ?_
      rintro - t r ⟨rfl, rfl⟩
      refine ⟨fun key' buf hlookup => ?_, hcounted.erase key⟩
      exact h key' buf (AList.lookup_erase_eq_some.mp hlookup).2
  obtain ⟨u, hu, -, hinv⟩ := hperform.state?
  exact Option.some.inj (hu.symm.trans hstep) ▸ hinv

/-- **Runs** whose file operations succeed. -/
theorem stored_of_run {start : FileSystem} (hworks : ∀ c ∈ calls, c.Works)
    (hrun : Transition.run (step crc32) (start, .new) calls = some s) : s.2.Stored s.1 := by
  have hguarded : Transition.Guarded (step crc32) (fun _ c => c.Works) (start, .new) calls :=
    fun xs c hpre _ _ => hworks c (hpre.subset (List.mem_append_right _ List.mem_cons_self))
  have hstep : ∀ (s : FileSystem × Reassembler) (c : Call) (t : FileSystem × Reassembler),
      s.2.Stored s.1 ∧ s.2.Counted → c.Works → step crc32 s c = some t →
      t.2.Stored t.1 ∧ t.2.Counted := fun s c t hs hc ht => step_stored hs.1 hs.2 hc ht
  have hnew : (start, Reassembler.new).2.Stored start ∧ (start, Reassembler.new).2.Counted :=
    ⟨Stored.new start, Counted.new⟩
  exact (Transition.run_invariant_of_guarded hstep hnew hguarded hrun).1

/-- A seal is answered as documented: it returns, it asks for what is missing if what has
been written from the beginning of the segment on is less than the sealed size, and for
nothing otherwise, and the request names the segment and starts where that ends. -/
def AsksForGap (crc32 : List UInt8 → UInt32) (s : FileSystem × Reassembler) (key : SegmentKey)
    (sealedSize : Nat) : Prop :=
  ∃ request t r, (onSealFrame crc32 key.1 key.2 sealedSize s.1 s.2).outcome = .done request t r ∧
    (request.isSome ↔ s.2.contiguous key < sealedSize) ∧
    ∀ gq, request = some gq → gq.devId = key.1 ∧ gq.segmentSeq = key.2 ∧
      gq.startOffset = s.2.contiguous key

/-- **Requests for what is missing.**  After any calls, in any environment, a seal returns,
and it asks for the rest of its segment if and only if something of the segment has been
written from its beginning on, and less than the sealed size; the request names the
segment and starts where what has been written ends.  So the seal is answered as documented
if and only if something has been written from the beginning on, or the sealed size is 0.
Where files can be opened and written, what has been written ends at the end of the segment's
file if it has a buffer. -/
theorem gap_request_iff (crc32 : List UInt8 → UInt32) (start : FileSystem) (calls : List Call) :
    ∃ s, Transition.run (step crc32) (start, .new) calls = some s ∧
      (∀ key sealedSize, ∃ request t r,
        (onSealFrame crc32 key.1 key.2 sealedSize s.1 s.2).outcome = .done request t r ∧
        (request.isSome ↔ 0 < s.2.contiguous key ∧ s.2.contiguous key < sealedSize) ∧
        ∀ gq, request = some gq → gq.devId = key.1 ∧ gq.segmentSeq = key.2 ∧
          gq.startOffset = s.2.contiguous key) ∧
      (∀ key sealedSize, AsksForGap crc32 s key sealedSize ↔
        0 < s.2.contiguous key ∨ sealedSize = 0) ∧
      ((∀ c ∈ calls, c.Works) → ∀ key, s.2.contiguous key =
        if key ∈ s.2.segments then fileSize s.1 (segmentName key) else 0) := by
  have hnew : (start, Reassembler.new).2.Counted := Counted.new
  obtain ⟨s, hs, -⟩ := Transition.exists_run (counted_steps crc32) calls hnew
  have hasks : ∀ key sealedSize, ∃ request t r,
      (onSealFrame crc32 key.1 key.2 sealedSize s.1 s.2).outcome = .done request t r ∧
      (request.isSome ↔ 0 < s.2.contiguous key ∧ s.2.contiguous key < sealedSize) ∧
      ∀ gq, request = some gq → gq.devId = key.1 ∧ gq.segmentSeq = key.2 ∧
        gq.startOffset = s.2.contiguous key := by
    intro key sealedSize
    obtain ⟨_, t, r, hdone, -, rfl, -⟩ :=
      (holds_onSealFrame crc32 key sealedSize s.1 s.2).returned
    refine ⟨_, t, r, hdone, ?_, fun gq hgq => ?_⟩
    · unfold gapRequest
      split
      · exact iff_of_true rfl ‹_›
      · exact iff_of_false Bool.false_ne_true ‹_›
    · unfold gapRequest at hgq
      split at hgq
      · rw [← Option.some.inj hgq]
        exact ⟨rfl, rfl, rfl⟩
      · cases hgq
  refine ⟨s, hs, hasks, fun key sealedSize => ?_, fun hworks key => ?_⟩
  · obtain ⟨request, t, r, hdone, hiff, hnames⟩ := hasks key sealedSize
    constructor
    · rintro ⟨request', t', r', hdone', hiff', -⟩
      obtain ⟨rfl, -, -⟩ := Outcome.done.inj (hdone.symm.trans hdone')
      rw [hiff] at hiff'
      omega
    · intro hbeginning
      refine ⟨request, t, r, hdone, hiff.trans ?_, hnames⟩
      omega
  · cases hlookup : s.2.segments.lookup key with
    | none =>
      rw [if_neg (AList.lookup_eq_none.mp hlookup), contiguous, hlookup]
      rfl
    | some buf =>
      have hmem : key ∈ s.2.segments := AList.lookup_isSome.mp (by rw [hlookup]; rfl)
      rw [if_pos hmem, contiguous, hlookup]
      exact (stored_of_run hworks hs key buf hlookup).size

/-- **Not every gap is asked for**: the first chunk of a segment is lost, the one behind it
waits, and the seal asks for nothing. -/
theorem lost_beginning_not_requested :
    ¬ ∀ (crc32 : List UInt8 → UInt32) (start : FileSystem) (calls : List Call)
        (s : FileSystem × Reassembler) (key : SegmentKey) (sealedSize : Nat),
        Transition.run (step crc32) (start, .new) calls = some s →
        AsksForGap crc32 s key sealedSize := by
  intro h
  have hlate : (Transition.run (step Crc.ieee) (FileSystem.empty, .new)
      [placeRaw working (1, 0) 5 [7]]).map (fun s => s.2.contiguous (1, 0)) = some 0 := by
    decide +kernel
  obtain ⟨s, hrun, hzero⟩ := Option.map_eq_some_iff.mp hlate
  obtain ⟨request, t, r, hdone, hiff, -⟩ := h Crc.ieee FileSystem.empty _ s (1, 0) 6 hrun
  obtain ⟨_, _, _, hdone', -, rfl, -⟩ :=
    (holds_onSealFrame Crc.ieee (1, 0) 6 s.1 s.2).returned
  obtain ⟨rfl, -, -⟩ := Outcome.done.inj (hdone.symm.trans hdone')
  rw [gapRequest, hzero] at hiff
  exact Bool.false_ne_true (hiff.mpr (by decide))

end Call
end SovProbe
