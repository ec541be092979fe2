import SovProbe.SegmentPlacement

/-! # The eviction loop

`enforce_pending_budget` removes the first waiting chunk of a victim, over and over,
while the accounts of the segments add up to more than the budget.  As each account
covers what waits, a removal never takes off more than there is, and the loop ends.
What every removal keeps, the loop keeps (`Evicts.invariant`).
-/

namespace SovProbe
open Process

/-- The bytes held in the map. -/
def SegmentBuf.heldBytes (self : SegmentBuf) : Nat := self.pending.total List.length

variable {env : Environment} {fs : FileSystem} {r r' u : Reassembler} {key : SegmentKey}
  {buf : SegmentBuf} {n : Nat} {rs : List Reassembler} {crash : FileSystem → Prop}

/-- The buffer of a segment, whether it was there or is opened now. -/
theorem holds_entry {P : SegmentBuf → FileSystem → Reassembler → Prop}
    (hfound : ∀ buf, r.segments.lookup key = some buf → P buf fs r)
    (hopened : r.segments.lookup key = none →
      (SegmentBuf.openBuf env key.1 key.2).Holds crash (.returns fun buf t r' =>
        P buf t { r' with segments := r'.segments.insert key buf }) fs r) :
    (Reassembler.entry env key.1 key.2).Holds crash (.returns P) fs r := by
  unfold Reassembler.entry
  rw [holds_get_bind]
  cases hlookup : r.segments.lookup key with
  | some buf => exact (holds_pure _).mpr (hfound buf hlookup)
  | none =>
    refine Holds.bind (hopened hlookup) fun buf t r' hP => ?_
    rw [holds_modify_bind]
    exact (holds_pure _).mpr hP

/-- Working on one buffer. -/
theorem holds_onSegment {α : Type} {x : Process FileSystem SegmentBuf α}
    {P : α → FileSystem → SegmentBuf → Prop} (hlookup : r.segments.lookup key = some buf)
    (h : x.Holds crash (.returns P) fs buf) :
    (Reassembler.onSegment key buf x).Holds crash
      (.returns fun a t r' => ∃ buf', P a t buf' ∧
        r' = { r with segments := r.segments.insert key buf' }) fs r := by
  unfold Reassembler.onSegment
  rw [holds_zoom, hlookup, Option.getD_some]
  exact h.imp_returns fun a t buf' hP => ⟨buf', hP, rfl⟩

/-- What `refill_segment` does in the end touches no file and no other buffer. -/
theorem holds_removeSegment (key : SegmentKey) (fs : FileSystem) (r : Reassembler) :
    (Reassembler.removeSegment key.1 key.2).Holds crash
      (.returns fun _ t r' => t = fs ∧ r' = { r with segments := r.segments.erase key }) fs r :=
  (holds_modify _).mpr ⟨rfl, rfl⟩

/-- The iteration comes to the first waiting chunk of each segment. -/
theorem mem_waiting {position : SegmentKey → Nat} {o : Nat} : (key, o) ∈ r.waiting position ↔
    ∃ buf b, r.segments.lookup key = some buf ∧ buf.pending.first? = some (o, b) := by
  constructor
  · intro h
    obtain ⟨⟨key', buf⟩, hmem, hfirst⟩ := List.mem_filterMap.mp h
    obtain ⟨⟨o', b⟩, hchunk, heq⟩ := Option.map_eq_some_iff.mp hfirst
    obtain ⟨rfl, rfl⟩ := Prod.mk.inj heq
    exact ⟨buf, b, AList.mem_lookup_iff.mpr (List.mem_mergeSort.mp hmem), hchunk⟩
  · rintro ⟨buf, b, hlookup, hfirst⟩
    refine List.mem_filterMap.mpr ⟨⟨key, buf⟩, ?_, ?_⟩
    · exact List.mem_mergeSort.mpr (AList.mem_lookup_iff.mp hlookup)
    · rw [hfirst]
      rfl

/-- The victim has a chunk to lose. -/
theorem victim_spec {position : SegmentKey → Nat} (h : r.victim position = some key) :
    ∃ buf o b, r.segments.lookup key = some buf ∧ buf.pending.first? = some (o, b) := by
  obtain ⟨⟨key', o⟩, hmin, rfl⟩ := Option.map_eq_some_iff.mp h
  obtain ⟨buf, b, hlookup, hfirst⟩ := mem_waiting.mp (List.argmin_mem hmin)
  exact ⟨buf, o, b, hlookup, hfirst⟩

/-- Without a victim nothing waits. -/
theorem eq_empty_of_victim {position : SegmentKey → Nat} (h : r.victim position = none)
    (hlookup : r.segments.lookup key = some buf) : buf.pending = ∅ := by
  have hwaiting := List.argmin_eq_none.mp (Option.map_eq_none_iff.mp h)
  cases hfirst : buf.pending.first? with
  | none => exact AList.eq_empty_of_forall_notMem (AList.first?_eq_none.mp hfirst)
  | some chunk =>
    have hmem : (key, chunk.1) ∈ r.waiting position :=
      mem_waiting.mpr ⟨buf, chunk.2, hlookup, hfirst⟩
    rw [hwaiting] at hmem
    cases hmem

/-- A waiting chunk is taken out of a map and of an account that covers it. -/
theorem SegmentBuf.covers_take {o : Nat} {b : List UInt8} (h : buf.heldBytes ≤ buf.pendingBytes)
    (hb : buf.pending.lookup o = some b) :
    b.length ≤ buf.pendingBytes ∧
      (buf.pending.erase o).total List.length ≤ buf.pendingBytes - b.length ∧
      buf.pendingBytes - b.length - (buf.pending.erase o).total List.length =
        buf.pendingBytes - buf.heldBytes ∧
      (buf.pending.erase o).total (fun _ => 1) + 1 = buf.pendingCount := by
  have hbytes : (buf.pending.erase o).total List.length + b.length = buf.heldBytes :=
    AList.total_erase hb
  refine ⟨?_, ?_, ?_, AList.total_erase hb⟩ <;> omega

namespace Reassembler

/-- Every account covers what waits in its segment. -/
def Covers (self : Reassembler) : Prop :=
  ∀ key buf, self.segments.lookup key = some buf → buf.heldBytes ≤ buf.pendingBytes

/-- No chunk waits in any segment. -/
def Idle (self : Reassembler) : Prop :=
  ∀ key buf, self.segments.lookup key = some buf → buf.pending = ∅

/-- The eviction loop has nothing to do. -/
def Within (self : Reassembler) : Prop := self.pendingTotal ≤ pendingBudget ∨ self.Idle

/-- What an iteration of the eviction loop makes of the state, if it finds a victim. -/
def evictOnce (self : Reassembler) (position : SegmentKey → Nat) : Option Reassembler := do
  let key ← self.victim position
  let buf ← self.segments.lookup key
  let (o, bytes) ← buf.pending.first?
  return { self with
    segments := self.segments.insert key { buf with
      pending := buf.pending.erase o
      pendingBytes := buf.pendingBytes - bytes.length }
    pendDropped := self.pendDropped + 1 }

/-- From its iteration `n` on the loop removes a chunk in each of the states `rs`, and ends
in the last one. -/
inductive Evicts (env : Environment) : Nat → Reassembler → List Reassembler → Reassembler → Prop
  | stop {n : Nat} {r : Reassembler} : Evicts env n r [] r
  | evict {n : Nat} {r u t : Reassembler} {rs : List Reassembler} :
      r.evictOnce (env.position n) = some u → Evicts env (n + 1) u rs t → Evicts env n r (r :: rs) t

theorem evictOnce_eq_some {position : SegmentKey → Nat} :
    r.evictOnce position = some u ↔ ∃ key buf o bytes, r.victim position = some key ∧
      r.segments.lookup key = some buf ∧ buf.pending.first? = some (o, bytes) ∧
      u = { r with
        segments := r.segments.insert key { buf with
          pending := buf.pending.erase o
          pendingBytes := buf.pendingBytes - bytes.length }
        pendDropped := r.pendDropped + 1 } := by
  constructor
  · intro h
    obtain ⟨key, hkey, h⟩ := Option.bind_eq_some_iff.mp h
    obtain ⟨buf, hbuf, h⟩ := Option.bind_eq_some_iff.mp h
    obtain ⟨⟨o, bytes⟩, hfirst, h⟩ := Option.bind_eq_some_iff.mp h
    exact ⟨key, buf, o, bytes, hkey, hbuf, hfirst, (Option.some.inj h).symm⟩
  · rintro ⟨key, buf, o, bytes, hkey, hbuf, hfirst, rfl⟩
    refine Option.bind_eq_some_iff.mpr ⟨key, hkey, ?_⟩
    refine Option.bind_eq_some_iff.mpr ⟨buf, hbuf, ?_⟩
    exact Option.bind_eq_some_iff.mpr ⟨(o, bytes), hfirst, rfl⟩

/-- One chunk fewer waits, and the accounts still cover the rest. -/
theorem Covers.evictOnce {position : SegmentKey → Nat} (h : r.Covers)
    (hevict : r.evictOnce position = some u) :
    u.Covers ∧ u.pendingCount + 1 = r.pendingCount := by
  obtain ⟨key, buf, o, bytes, -, hlookup, hfirst, rfl⟩ := evictOnce_eq_some.mp hevict
  obtain ⟨-, hheld, -, hcount⟩ :=
    SegmentBuf.covers_take (h key buf hlookup) (AList.first?_eq_some.mp hfirst).1
  refine ⟨fun key' buf' hlookup' => ?_, ?_⟩
  · rcases AList.lookup_insert_eq_some.mp hlookup' with ⟨rfl, rfl⟩ | ⟨-, hother⟩
    · exact hheld
    · exact h key' buf' hother
  · have hothers := AList.total_erase (w := SegmentBuf.pendingCount) hlookup
    show (r.segments.insert key _).total SegmentBuf.pendingCount + 1 = _
    rw [AList.total_insert]
    show (buf.pending.erase o).total (fun _ => 1) +
      (r.segments.erase key).total SegmentBuf.pendingCount + 1 = r.pendingCount
    unfold pendingCount
    omega

/-- **What every eviction keeps** holds in all states the loop removes a chunk in, and in
the last one. -/
theorem Evicts.invariant {I : Reassembler → Prop}
    (hstep : ∀ position r u, I r → r.evictOnce position = some u → I u)
    (h : Evicts env n r rs r') (hr : I r) : I r' ∧ ∀ u ∈ rs, I u := by
  induction h with
  | stop => exact ⟨hr, fun u hu => absurd hu List.not_mem_nil⟩
  | evict hevict _ ih =>
    obtain ⟨hlast, hrs⟩ := ih (hstep _ _ _ hr hevict)
    refine ⟨hlast, fun v hv => ?_⟩
    rcases List.mem_cons.mp hv with rfl | hmem
    · exact hr
    · exact hrs v hmem

/-- **The eviction loop** ends with the accounts within the budget or with nothing waiting,
and removes a chunk only in states in which they add up to more than the budget. -/
theorem holds_enforcePendingBudget (env : Environment) (fs : FileSystem) (fuel : Nat) :
    ∀ (n : Nat) (r : Reassembler), r.Covers → r.pendingCount < fuel →
    (enforcePendingBudget env fuel n).Holds crash
      (.returns fun _ t r' => t = fs ∧ r'.Within ∧ ∃ rs, Evicts env n r rs r' ∧
        ∀ u ∈ rs, u.pendingTotal > pendingBudget) fs r := by
  induction fuel with
  | zero => intro n r _ hfuel; exact absurd hfuel (Nat.not_lt_zero _)
  | succ fuel ih =>
    intro n r h hfuel
    unfold enforcePendingBudget
    rw [holds_get_bind]
    by_cases hover : r.pendingTotal > pendingBudget
    · rw [if_pos hover]
      cases hvictim : r.victim (env.position n) with
      | none =>
        refine (holds_pure _).mpr ⟨rfl, Or.inr fun key buf hlookup => ?_, [], Evicts.stop, ?_⟩
        · exact eq_empty_of_victim hvictim hlookup
        · exact fun u hu => absurd hu List.not_mem_nil
      | some key =>
        obtain ⟨buf, o, bytes, hlookup, hfirst⟩ := victim_spec hvictim
        have hevict := evictOnce_eq_some.mpr ⟨key, buf, o, bytes, hvictim, hlookup, hfirst, rfl⟩
        obtain ⟨hcovers, hcount⟩ := h.evictOnce hevict
        obtain ⟨hlen, -⟩ :=
          SegmentBuf.covers_take (h key buf hlookup) (AList.first?_eq_some.mp hfirst).1
        have hremove : (do
            modify fun buf : SegmentBuf => { buf with pending := buf.pending.erase o }
            SegmentBuf.releaseBytes bytes.length : Process FileSystem SegmentBuf Unit).Holds
              crash (.returns fun _ t buf' => t = fs ∧ buf' = { buf with
                pending := buf.pending.erase o
                pendingBytes := buf.pendingBytes - bytes.length }) fs buf := by
          rw [holds_modify_bind]
          exact SegmentBuf.holds_releaseBytes hlen
        simp only [hlookup, hfirst]
        refine Holds.bind (holds_onSegment hlookup hremove) ?_
        rintro - t r' ⟨buf', ⟨rfl, rfl⟩, rfl⟩
        rw [holds_modify_bind]
        refine (ih (n + 1) _ hcovers (by omega)).imp_returns ?_
        rintro - u r' ⟨rfl, hwithin, rs, hevicts, hrs⟩
        refine ⟨rfl, hwithin, r :: rs, hevicts.evict hevict, fun v hv => ?_⟩
        rcases List.mem_cons.mp hv with rfl | hmem
        · exact hover
        · exact hrs v hmem
    · rw [if_neg hover]
      refine (holds_pure _).mpr ⟨rfl, Or.inl (Nat.not_lt.mp hover), [], Evicts.stop, ?_⟩
      exact fun u hu => absurd hu List.not_mem_nil

/-! ## Ties -/

section
variable {position : SegmentKey → Nat}

theorem position_trans (a b c : Sigma fun _ : SegmentKey => SegmentBuf)
    (hab : decide (position a.1 ≤ position b.1) = true)
    (hbc : decide (position b.1 ≤ position c.1) = true) :
    decide (position a.1 ≤ position c.1) = true :=
  decide_eq_true (Nat.le_trans (of_decide_eq_true hab) (of_decide_eq_true hbc))

theorem position_total (a b : Sigma fun _ : SegmentKey => SegmentBuf) :
    (decide (position a.1 ≤ position b.1) || decide (position b.1 ≤ position a.1)) = true := by
  rw [Bool.or_eq_true, decide_eq_true_iff, decide_eq_true_iff]
  exact Nat.le_total _ _

/-- The iteration comes to the segments by their position. -/
theorem waiting_sorted : (r.waiting position).Pairwise fun x y => position x.1 ≤ position y.1 := by
  refine List.Pairwise.filterMap _ ?_
    (List.pairwise_mergeSort position_trans position_total r.segments.entries)
  intro e e' hle x hx y hy
  obtain ⟨_, -, rfl⟩ := Option.map_eq_some_iff.mp hx
  obtain ⟨_, -, rfl⟩ := Option.map_eq_some_iff.mp hy
  exact of_decide_eq_true hle

/-- And to each once. -/
theorem waiting_nodup : (r.waiting position).Nodup := by
  have hkeys : (r.segments.entries.mergeSort fun a b =>
      decide (position a.1 ≤ position b.1)).Pairwise fun x y => x.1 ≠ y.1 := by
    refine (List.mergeSort_perm _ _).symm.pairwise ?_ fun h => h.symm
    exact List.pairwise_map.mp r.segments.nodupKeys
  refine List.Pairwise.filterMap _ ?_ hkeys
  intro e e' hne x hx y hy heq
  obtain ⟨_, -, rfl⟩ := Option.map_eq_some_iff.mp hx
  obtain ⟨_, -, rfl⟩ := Option.map_eq_some_iff.mp hy
  exact hne (congrArg Prod.fst heq)

/-- Of two segments that lose a chunk at the same offset the first one in the iteration is
the victim; a buffer that has just been put in comes first at its position. -/
theorem victim_ne_of_tie {key' : SegmentKey} {buf' : SegmentBuf} {o : Nat} {b b' : List UInt8}
    (hkey : key' ≠ key) (hlookup : r.segments.lookup key' = some buf')
    (hfirst : buf.pending.first? = some (o, b)) (hfirst' : buf'.pending.first? = some (o, b'))
    (hposition : position key ≤ position key') :
    (({ r with segments := r.segments.insert key buf } : Reassembler).waiting position).argmin
      Prod.snd ≠ some (key', o) := by
  have hrest : (r.segments.erase key).lookup key' = some buf' := by
    rwa [AList.lookup_erase_ne hkey]
  have hentries : List.Sublist [⟨key, buf⟩, ⟨key', buf'⟩] (r.segments.insert key buf).entries := by
    rw [AList.entries_insert]
    exact List.Sublist.cons_cons _ (List.singleton_sublist.mpr (AList.mem_lookup_iff.mp hrest))
  have hpair := (List.pair_sublist_mergeSort position_trans position_total
    (decide_eq_true hposition) hentries).filterMap fun e =>
      e.2.pending.first?.map fun chunk => (e.1, chunk.1)
  simp only [List.filterMap_cons, hfirst, hfirst', Option.map_some, List.filterMap_nil] at hpair
  exact List.argmin_ne_of_sublist waiting_nodup hpair (Nat.le_refl _)

/-- **The victim** is the segment that got a buffer just now, if no chunk that waits in
another one comes before its first: at a smaller offset, or at the same one and earlier in
the iteration. -/
theorem victim_insert_iff {o : Nat} {b : List UInt8} (hfirst : buf.pending.first? = some (o, b)) :
    ({ r with segments := r.segments.insert key buf } : Reassembler).victim position = some key ↔
      ∀ key' buf', key' ≠ key → r.segments.lookup key' = some buf' → ∀ o' ∈ buf'.pending,
        o < o' ∨ o = o' ∧ position key ≤ position key' := by
  have hself : (key, o) ∈ ({ r with segments := r.segments.insert key buf } : Reassembler).waiting
      position := mem_waiting.mpr ⟨buf, b, AList.lookup_insert _, hfirst⟩
  have hother : ∀ key' o', key' ≠ key →
      ((key', o') ∈ ({ r with segments := r.segments.insert key buf } : Reassembler).waiting
        position ↔ ∃ buf' b', r.segments.lookup key' = some buf' ∧
          buf'.pending.first? = some (o', b')) := by
    intro key' o' hkey
    rw [mem_waiting, AList.lookup_insert_ne hkey]
  constructor
  · intro h key' buf' hkey hlookup o' ho'
    obtain ⟨⟨_, least⟩, hmin, rfl⟩ := Option.map_eq_some_iff.mp h
    obtain ⟨buf₀, b₀, hbuf₀, hfirst₀⟩ := mem_waiting.mp (List.argmin_mem hmin)
    obtain rfl := Option.some.inj ((AList.lookup_insert _).symm.trans hbuf₀)
    obtain ⟨rfl, rfl⟩ := Prod.mk.inj (Option.some.inj (hfirst₀.symm.trans hfirst))
    cases hfirst' : buf'.pending.first? with
    | none => exact absurd ho' (AList.first?_eq_none.mp hfirst' o')
    | some chunk =>
      obtain ⟨o₁, b₁⟩ := chunk
      have hleast : o₁ ≤ o' := (AList.first?_eq_some.mp hfirst').2 o' ho'
      have hwaits := (hother key' o₁ hkey).mpr ⟨buf', b₁, hlookup, hfirst'⟩
      have hle : least ≤ o₁ := List.le_of_mem_argmin hwaits hmin
      rcases Nat.lt_or_eq_of_le (Nat.le_trans hle hleast) with hlt | heq
      · exact Or.inl hlt
      · refine Or.inr ⟨heq, ?_⟩
        have hback : o₁ ≤ least := by omega
        rcases List.argmin_first waiting_sorted hmin hwaits hback with hsame | hposition
        · exact absurd (congrArg Prod.fst hsame) hkey
        · exact hposition
  · intro h
    cases hmin : (({ r with segments := r.segments.insert key buf } : Reassembler).waiting
        position).argmin Prod.snd with
    | none =>
      rw [List.argmin_eq_none.mp hmin] at hself
      cases hself
    | some m =>
      obtain ⟨key', o'⟩ := m
      rw [victim, hmin, Option.map_some]
      by_cases hkey : key' = key
      · rw [hkey]
      obtain ⟨buf', b', hlookup, hfirst'⟩ := (hother key' o' hkey).mp (List.argmin_mem hmin)
      have hle : o' ≤ o := List.le_of_mem_argmin hself hmin
      have hwaits : o' ∈ buf'.pending :=
        AList.lookup_isSome.mp (by rw [(AList.first?_eq_some.mp hfirst').1]; rfl)
      rcases h key' buf' hkey hlookup o' hwaits with hlt | ⟨rfl, hposition⟩
      · exact absurd hle (Nat.not_le_of_gt hlt)
      · exact absurd hmin (victim_ne_of_tie hkey hlookup hfirst hfirst' hposition)

end

end Reassembler
end SovProbe
