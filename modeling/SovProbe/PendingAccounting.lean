import SovProbe.PlacementEffects
import SovProbe.ReassemblySafety
import SovProbe.Transition

/-! # The account of the waiting bytes

The eviction loop goes by `pending_bytes`, not by the map.  Each eviction and each
refill takes off exactly what leaves the map, so that the drift of a segment's account
is what `place` put there: the length of every waiting chunk that another one replaced.
The account is exact as long as none is replaced (`pending_exact_iff`), and then chunks
are evicted only while more bytes are held than the budget.
-/

namespace SovProbe
open Process

namespace Reassembler

variable {env : Environment} {fs t : FileSystem} {r r' u : Reassembler} {key : SegmentKey}
  {buf : SegmentBuf} {offset n : Nat} {plaintext : List UInt8} {rs : List Reassembler}

/-! ## The account -/

/-- The bytes held in the maps of all segments. -/
def heldBytes (self : Reassembler) : Nat := self.segments.total SegmentBuf.heldBytes

/-- `pending_bytes` is the sum of the lengths of the chunks that wait, in every segment. -/
def Exact (self : Reassembler) : Prop :=
  ∀ key buf, self.segments.lookup key = some buf → buf.pendingBytes = buf.heldBytes

/-- Each buffer counts what waits in it. -/
def Counted (self : Reassembler) : Prop :=
  ∀ key buf, self.segments.lookup key = some buf → buf.Counted

/-- The drift of a segment's account, 0 if there is none. -/
def drift (self : Reassembler) (key : SegmentKey) : Nat :=
  ((self.segments.lookup key).map SegmentBuf.drift).getD 0

/-- The length of the waiting chunk that a call of `place_raw` replaces. -/
def replaced (self : Reassembler) (key : SegmentKey) (offset : Nat) (plaintext : List UInt8) :
    Nat := ((self.segments.lookup key).map fun buf => buf.replaced offset plaintext).getD 0

theorem Counted.new : Counted .new := nofun

theorem Counted.exact_iff (h : r.Counted) : r.Exact ↔ ∀ key, r.drift key = 0 := by
  constructor
  · intro hexact key
    unfold drift
    cases hlookup : r.segments.lookup key with
    | none => rfl
    | some buf =>
      show buf.pendingBytes - buf.heldBytes = 0
      rw [hexact key buf hlookup, Nat.sub_self]
  · intro hdrift key buf hlookup
    have hheld := (h key buf hlookup).held
    have hzero : buf.pendingBytes - buf.heldBytes = 0 := by
      have := hdrift key
      rwa [drift, hlookup] at this
    omega

/-- With an exact account the loop goes by the bytes held. -/
theorem Exact.pendingTotal (h : r.Exact) : r.pendingTotal = r.heldBytes := by
  refine congrArg List.sum (List.map_congr_left fun e he => ?_)
  exact h e.1 e.2 (AList.mem_lookup_iff.mpr he)

/-- A buffer is put in for a segment. -/
theorem Counted.insert (h : r.Counted) (hbuf : buf.Counted) :
    Counted { r with segments := r.segments.insert key buf } := by
  intro key' buf' hlookup
  rcases AList.lookup_insert_eq_some.mp hlookup with ⟨rfl, rfl⟩ | ⟨-, hother⟩
  · exact hbuf
  · exact h key' buf' hother

theorem drift_insert (r : Reassembler) (key : SegmentKey) (buf : SegmentBuf) (key' : SegmentKey) :
    drift { r with segments := r.segments.insert key buf } key' =
      if key' = key then buf.drift else r.drift key' := by
  unfold drift
  by_cases hkey : key' = key
  · rw [if_pos hkey, hkey, AList.lookup_insert]
    rfl
  · rw [if_neg hkey, AList.lookup_insert_ne hkey]

theorem drift_of_lookup (h : r.segments.lookup key = some buf) : r.drift key = buf.drift := by
  rw [drift, h]
  rfl

/-- An eviction keeps the account as it is. -/
theorem Counted.evictOnce {position : SegmentKey → Nat} (h : r.Counted)
    (hevict : r.evictOnce position = some u) :
    u.Counted ∧ ∀ key, u.drift key = r.drift key := by
  obtain ⟨key, buf, o, bytes, -, hlookup, hfirst, rfl⟩ := evictOnce_eq_some.mp hevict
  obtain ⟨-, hcounted, hdrift, -⟩ :=
    (h key buf hlookup).take (AList.first?_eq_some.mp hfirst).1
  refine ⟨h.insert hcounted, fun key' => (drift_insert r key _ key').trans ?_⟩
  by_cases hkey : key' = key
  · rw [if_pos hkey, hdrift, hkey, drift_of_lookup hlookup]
  · rw [if_neg hkey]

/-- And so do any number of them. -/
theorem Counted.evicts (hr : r.Counted) (h : Evicts env n r rs r') :
    (r'.Counted ∧ ∀ key, r'.drift key = r.drift key) ∧
      ∀ u ∈ rs, u.Counted ∧ ∀ key, u.drift key = r.drift key := by
  refine h.invariant (I := fun u => u.Counted ∧ ∀ key, u.drift key = r.drift key)
    (fun position u v hu hevict => ?_) ⟨hr, fun _ => rfl⟩
  obtain ⟨hv, hdrift⟩ := hu.1.evictOnce hevict
  exact ⟨hv, fun key => (hdrift key).trans (hu.2 key)⟩

theorem Counted.covers (h : r.Counted) : r.Covers := fun key buf hlookup => (h key buf hlookup).held

/-! ## The calls -/

/-- `place_raw` up to the eviction loop. -/
def placeChunk (env : Environment) (devId segmentSeq : UInt32) (offset : Nat)
    (plaintext : List UInt8) : Process FileSystem Reassembler Bool := do
  modify fun self => { self with totalBytes := self.totalBytes + plaintext.length }
  let buf ← entry env devId segmentSeq
  onSegment (devId, segmentSeq) buf (SegmentBuf.place env offset plaintext)

theorem placeRaw_eq (env : Environment) (devId segmentSeq : UInt32) (offset : Nat)
    (plaintext : List UInt8) : placeRaw env devId segmentSeq offset plaintext = (do
      let _ ← placeChunk env devId segmentSeq offset plaintext
      enforcePendingBudget env ((← get).pendingCount + 1) 0) := by
  simp only [placeRaw, placeChunk, bind_assoc]

/-- The buffer of a segment; a new one has nothing that waits. -/
theorem Counted.holds_entry (h : r.Counted) (env : Environment) (key : SegmentKey) :
    (entry env key.1 key.2).Holds (fun _ => True)
      (.returns fun buf _ r' => r'.segments.lookup key = some buf ∧ r'.Counted ∧
        (∀ key', r'.drift key' = r.drift key') ∧
        ∀ offset plaintext, buf.replaced offset plaintext = r.replaced key offset plaintext)
      fs r := by
  refine SovProbe.holds_entry (fun buf hlookup => ?_) fun hlookup => ?_
  · refine ⟨hlookup, h, fun _ => rfl, fun offset plaintext => ?_⟩
    rw [replaced, hlookup]
    rfl
  · refine (SegmentBuf.holds_openBuf env key.1 key.2 fs r).imp_returns ?_
    rintro buf t r' ⟨rfl, file, hfresh, -⟩
    refine ⟨AList.lookup_insert _, ?_, fun key' => ?_, fun offset plaintext => ?_⟩
    · exact h.insert (hfresh ▸ SegmentBuf.Counted.fresh _ _ _)
    · refine (drift_insert r' key buf key').trans ?_
      by_cases hkey : key' = key
      · rw [if_pos hkey, hkey, drift, hlookup, hfresh, SegmentBuf.drift_fresh]
        rfl
      · rw [if_neg hkey]
    · rw [replaced, hlookup, hfresh, SegmentBuf.replaced_fresh]
      rfl

/-- A chunk is placed: the account of its segment drifts by the length of the waiting chunk
it replaces. -/
theorem Counted.holds_placeChunk (h : r.Counted) (env : Environment) (key : SegmentKey)
    (offset : Nat) (plaintext : List UInt8) :
    (placeChunk env key.1 key.2 offset plaintext).Holds (fun _ => True)
      (.returns fun _ _ r' => r'.Counted ∧ ∀ key', r'.drift key' =
        r.drift key' + if key' = key then r.replaced key offset plaintext else 0) fs r := by
  unfold placeChunk
  rw [holds_modify_bind]
  have hcounted : Counted { r with totalBytes := r.totalBytes + plaintext.length } := h
  refine Holds.bind (hcounted.holds_entry env key) ?_
  rintro buf t r' ⟨hlookup, hr', hdrift, hreplaced⟩
  refine (holds_onSegment hlookup
    (SegmentBuf.holds_place env offset plaintext t (hr' key buf hlookup))).imp_returns ?_
  rintro - u r'' ⟨buf', ⟨-, -, hbuf', hdrift'⟩, rfl⟩
  refine ⟨hr'.insert hbuf', fun key' => (drift_insert r' key buf' key').trans ?_⟩
  by_cases hkey : key' = key
  · rw [if_pos hkey, if_pos hkey, hdrift', hreplaced, hkey, ← drift_of_lookup hlookup, hdrift]
    rfl
  · rw [if_neg hkey, if_neg hkey, hdrift, Nat.add_zero]
    rfl

/-- **`place_raw`**. -/
theorem Counted.holds_placeRaw (h : r.Counted) (env : Environment) (key : SegmentKey)
    (offset : Nat) (plaintext : List UInt8) (fs : FileSystem) :
    (placeRaw env key.1 key.2 offset plaintext).Holds (fun _ => True)
      (.returns fun _ _ r' => r'.Counted ∧ r'.Within ∧ ∀ key', r'.drift key' =
        r.drift key' + if key' = key then r.replaced key offset plaintext else 0) fs r := by
  rw [placeRaw_eq]
  refine (h.holds_placeChunk env key offset plaintext).bind ?_
  rintro - t r' ⟨hr', hdrift⟩
  rw [holds_get_bind]
  refine (holds_enforcePendingBudget env t _ 0 r' hr'.covers (Nat.lt_succ_self _)).imp_returns ?_
  rintro - t r'' ⟨rfl, hwithin, rs, hevicts, -⟩
  obtain ⟨⟨hcounted, hsame⟩, -⟩ := hr'.evicts hevicts
  exact ⟨hcounted, hwithin, fun key' => (hsame key').trans (hdrift key')⟩

/-- A seal leaves the maps and the accounts alone. -/
theorem Counted.sameData (h : r.Counted) (hsame : SameData r r') :
    r'.Counted ∧ ∀ key, r'.drift key = r.drift key := by
  refine ⟨fun key buf hlookup => ?_, fun key => ?_⟩
  · obtain ⟨buf₀, hlookup₀, hdata⟩ := hsame.lookup hlookup
    exact (h key buf₀ hlookup₀).congr hdata
  · cases hlookup : r'.segments.lookup key with
    | none =>
      have hnone : r.segments.lookup key = none := by
        have hkey := hsame key
        rw [hlookup] at hkey
        exact Option.map_eq_none_iff.mp hkey.symm
      rw [drift, drift, hlookup, hnone]
    | some buf =>
      obtain ⟨buf₀, hlookup₀, hdata⟩ := hsame.lookup hlookup
      rw [drift_of_lookup hlookup, drift_of_lookup hlookup₀, SegmentBuf.drift_congr hdata]

/-- A segment is dropped with its account. -/
theorem Counted.erase (h : r.Counted) (key : SegmentKey) :
    Counted { r with segments := r.segments.erase key } :=
  fun key' buf hlookup => h key' buf (AList.lookup_erase_eq_some.mp hlookup).2

theorem Exact.erase (h : r.Exact) (key : SegmentKey) :
    Exact { r with segments := r.segments.erase key } :=
  fun key' buf hlookup => h key' buf (AList.lookup_erase_eq_some.mp hlookup).2

end Reassembler

/-! ## Runs -/

namespace Call
open Reassembler

/-- A chunk that is to wait finds its place free. -/
def FindsFree (s : FileSystem × Reassembler) : Call → Prop
  | placeRaw _ key offset plaintext => ∀ buf, s.2.segments.lookup key = some buf →
    plaintext ≠ [] → buf.nextExpected < offset → buf.pending.lookup offset = none
  | _ => True

/-- The eviction loop of the call removes chunks only in states in which more bytes are
held than the budget. -/
def EvictsUnderPressure (s : FileSystem × Reassembler) : Call → Prop
  | placeRaw env key offset plaintext => ∀ placed t r,
    (placeChunk env key.1 key.2 offset plaintext s.1 s.2).outcome = .done placed t r →
    ∃ r' rs, (enforcePendingBudget env (r.pendingCount + 1) 0 t r).outcome = .done () t r' ∧
      Evicts env 0 r rs r' ∧ ∀ u ∈ rs, u.heldBytes > pendingBudget
  | _ => True

/-- A call that returns. -/
def step (crc32 : List UInt8 → UInt32) (s : FileSystem × Reassembler) (c : Call) :
    Option (FileSystem × Reassembler) := (c.perform crc32 s.1 s.2).outcome.state?

variable {s : FileSystem × Reassembler} {crc32 : List UInt8 → UInt32}

theorem findsFree_iff (h : s.2.Counted) {env : Environment} {key : SegmentKey} {offset : Nat}
    {plaintext : List UInt8} : (placeRaw env key offset plaintext).FindsFree s ↔
      s.2.replaced key offset plaintext = 0 := by
  rw [FindsFree, replaced]
  cases hlookup : s.2.segments.lookup key with
  | none => exact iff_of_true nofun rfl
  | some buf =>
    refine Iff.trans ?_ (h key buf hlookup).replaced_eq_zero.symm
    constructor
    · intro hfree
      exact hfree buf rfl
    · rintro hfree buf' ⟨⟩
      exact hfree

/-- **One call** keeps the account exact if and only if no waiting chunk is replaced. -/
theorem step_counted (h : s.2.Counted) (crc32 : List UInt8 → UInt32) (c : Call) :
    ∃ t, c.step crc32 s = some t ∧ t.2.Counted ∧ (s.2.Exact → (t.2.Exact ↔ c.FindsFree s)) := by
  cases c with
  | placeRaw env key offset plaintext =>
    obtain ⟨t, hstep, -, hcounted, -, hdrift⟩ :=
      (h.holds_placeRaw env key offset plaintext s.1).state?
    refine ⟨t, hstep, hcounted, fun hexact => ?_⟩
    have hzero : t.2.Exact ↔ s.2.replaced key offset plaintext = 0 := by
      rw [hcounted.exact_iff]
      constructor
      · intro hall
        have hkey := hall key
        rwa [hdrift, if_pos rfl, h.exact_iff.mp hexact, Nat.zero_add] at hkey
      · intro hnone key'
        rw [hdrift, h.exact_iff.mp hexact, hnone, ite_self]
    rw [hzero, findsFree_iff h]
  | sealFrame key sealedSize =>
    have hperform : ((sealFrame key sealedSize).perform crc32).Holds (fun _ => True)
        (.returns fun _ _ r' => r'.Counted ∧ ∀ key', r'.drift key' = s.2.drift key') s.1 s.2 := by
      refine (holds_onSealFrame crc32 key sealedSize s.1 s.2).bind ?_
      rintro _ t r' ⟨-, -, hsame⟩
      exact (holds_pure _).mpr (h.sameData hsame)
    obtain ⟨t, hstep, -, hcounted, hdrift⟩ := hperform.state?
    refine ⟨t, hstep, hcounted, fun hexact => iff_of_true ?_ trivial⟩
    exact hcounted.exact_iff.mpr fun key' => (hdrift key').trans (h.exact_iff.mp hexact key')
  | remove key =>
    have hremove : (removeSegment key.1 key.2).Holds (fun _ => True) _ s.1 s.2 :=
      holds_removeSegment key s.1 s.2
    obtain ⟨t, hstep, -, -, hlast⟩ := hremove.state?
    refine ⟨t, hstep, hlast ▸ h.erase key, fun hexact => iff_of_true ?_ trivial⟩
    exact hlast ▸ hexact.erase key

theorem counted_steps (crc32 : List UInt8 → UInt32) (s : FileSystem × Reassembler) (c : Call)
    (h : s.2.Counted) : ∃ t, step crc32 s c = some t ∧ t.2.Counted := by
  obtain ⟨t, ht, hcounted, -⟩ := step_counted h crc32 c
  exact ⟨t, ht, hcounted⟩

/-- Where the account is exact and stays so, the loop goes by the bytes held. -/
theorem evictsUnderPressure (h : s.2.Counted) (hexact : s.2.Exact) {c : Call}
    (hfree : c.FindsFree s) : c.EvictsUnderPressure s := by
  cases c with
  | placeRaw env key offset plaintext =>
    intro placed t r hplaced
    obtain ⟨hcounted, hdrift⟩ := (h.holds_placeChunk env key offset plaintext).done hplaced
    have hzero : ∀ key', r.drift key' = 0 := by
      intro key'
      rw [hdrift, h.exact_iff.mp hexact, (findsFree_iff h).mp hfree, ite_self]
    have hevict : (enforcePendingBudget env (r.pendingCount + 1) 0).Holds (fun _ => True) _ t r :=
      holds_enforcePendingBudget env t _ 0 r hcounted.covers (Nat.lt_succ_self _)
    obtain ⟨⟨⟩, _, r', hloop, rfl, -, rs, hevicts, hover⟩ := hevict.returned
    refine ⟨r', rs, hloop, hevicts, fun u hu => ?_⟩
    obtain ⟨hcounted', hsame⟩ := (hcounted.evicts hevicts).2 u hu
    have hexact' : u.Exact := hcounted'.exact_iff.mpr fun key' => (hsame key').trans (hzero key')
    rw [← hexact'.pendingTotal]
    exact hover u hu
  | sealFrame key sealedSize => trivial
  | remove key => trivial

/-- **The account of the waiting bytes** is exact after every call, and chunks are evicted
only for want of memory, exactly when every chunk that is to wait finds its place free. -/
theorem pending_exact_iff (crc32 : List UInt8 → UInt32) (start : FileSystem) (calls : List Call) :
    (∃ s, Transition.run (step crc32) (start, .new) calls = some s) ∧
    (((∀ pre s, pre <+: calls → Transition.run (step crc32) (start, .new) pre = some s →
        s.2.Exact) ∧
      ∀ pre c s, pre ++ [c] <+: calls → Transition.run (step crc32) (start, .new) pre = some s →
        c.EvictsUnderPressure s) ↔
      Transition.Guarded (step crc32) FindsFree (start, .new) calls) := by
  have hnew : (start, Reassembler.new).2.Counted := Counted.new
  have hcounted : ∀ pre s, Transition.run (step crc32) (start, .new) pre = some s →
      s.2.Counted := fun _ _ hs => Transition.inv_of_run (counted_steps crc32) hnew hs
  have hexact : (∀ pre s, pre <+: calls → Transition.run (step crc32) (start, .new) pre = some s →
      s.2.Exact) ↔ Transition.Guarded (step crc32) FindsFree (start, .new) calls := by
    have hstart : (start, Reassembler.new).2.Exact := nofun
    refine Transition.forall_prefix_iff_guarded (P := fun s : FileSystem × Reassembler => s.2.Exact)
      hstart ?_
    intro pre c u _ hu
    obtain ⟨t, ht, -, hiff⟩ := step_counted (hcounted pre u hu) crc32 c
    exact ⟨t, ht, hiff⟩
  refine ⟨?_, Iff.trans (and_iff_left_of_imp fun hall pre c s hpre hs => ?_) hexact⟩
  · obtain ⟨s, hs, -⟩ := Transition.exists_run (counted_steps crc32) calls hnew
    exact ⟨s, hs⟩
  · exact evictsUnderPressure (hcounted pre s hs)
      (hall pre s ((List.prefix_append pre [c]).trans hpre) hs) (hexact.mp hall pre c hpre s hs)

/-- **The account drifts**: the same chunk comes twice while it waits, and counts twice. -/
theorem pending_counted_twice :
    ¬ ∀ (crc32 : List UInt8 → UInt32) (start : FileSystem) (calls : List Call)
        (s : FileSystem × Reassembler),
        (∀ c ∈ calls, ∃ env key offset plaintext, c = placeRaw env key offset plaintext) →
        Transition.run (step crc32) (start, .new) calls = some s → s.2.Exact := by
  intro h
  have htwice : (Transition.run (step Crc.ieee) (FileSystem.empty, .new)
      [placeRaw working (1, 0) 5 [7], placeRaw working (1, 0) 5 [7]]).map
        (fun s => (s.2.segments.lookup (1, 0)).map fun buf => (buf.pendingBytes, buf.heldBytes)) =
      some (some (2, 1)) := by decide +kernel
  obtain ⟨s, hrun, hpair⟩ := Option.map_eq_some_iff.mp htwice
  obtain ⟨buf, hlookup, hcounts⟩ := Option.map_eq_some_iff.mp hpair
  obtain ⟨hbytes, hheld⟩ := Prod.mk.inj hcounts
  have hcalls : ∀ c ∈ [placeRaw working (1, 0) 5 [7], placeRaw working (1, 0) 5 [7]],
      ∃ env key offset plaintext, c = placeRaw env key offset plaintext := by
    intro c hc
    rcases List.mem_pair.mp hc with rfl | rfl <;> exact ⟨_, _, _, _, rfl⟩
  have hexact := h Crc.ieee FileSystem.empty _ s hcalls hrun (1, 0) buf hlookup
  rw [hbytes, hheld] at hexact
  exact absurd hexact (by decide)

end Call
end SovProbe
