import SovProbe.Resume

/-! # Reassembly is complete

The chunks of several segments arrive interleaved, in any order and any number of times.
As long as all that arrives fits the budget nothing is evicted, and a receiver that
starts with an empty directory ends with every file complete.
-/

namespace SovProbe
open Process Chunking Reordering

/-- The call of the receiver for a chunk of a segment. -/
def Delivery.call (d : SegmentKey × Delivery) : Call :=
  .placeRaw d.2.env d.1 d.2.offset d.2.bytes

/-- The chunks of one segment among those delivered. -/
def chunksOf (key : SegmentKey) (D : List (SegmentKey × Delivery)) : List (Nat × List UInt8) :=
  (D.filter fun d => d.1 = key).map fun d => d.2.chunk

/-- The bytes delivered. -/
def deliveredBytes (D : List (SegmentKey × Delivery)) : Nat :=
  (D.map fun d => d.2.bytes.length).sum

theorem mem_chunksOf {key : SegmentKey} {D : List (SegmentKey × Delivery)}
    {x : Nat × List UInt8} : x ∈ chunksOf key D ↔ ∃ d, (key, d) ∈ D ∧ d.chunk = x := by
  rw [chunksOf, List.mem_map]
  constructor
  · rintro ⟨⟨key', d⟩, hd, rfl⟩
    obtain ⟨hmem, hkey⟩ := List.mem_filter.mp hd
    obtain rfl : key' = key := of_decide_eq_true hkey
    exact ⟨d, hmem, rfl⟩
  · rintro ⟨d, hmem, rfl⟩
    exact ⟨(key, d), List.mem_filter.mpr ⟨hmem, decide_eq_true rfl⟩, rfl⟩

theorem chunksOf_append_self (key : SegmentKey) (D : List (SegmentKey × Delivery)) (d : Delivery) :
    chunksOf key (D ++ [(key, d)]) = chunksOf key D ++ [d.chunk] := by
  simp [chunksOf]

theorem chunksOf_append_ne {key key' : SegmentKey} (h : key' ≠ key)
    (D : List (SegmentKey × Delivery)) (d : Delivery) :
    chunksOf key' (D ++ [(key, d)]) = chunksOf key' D := by
  simp [chunksOf, h.symm]

theorem deliveredBytes_append (D D' : List (SegmentKey × Delivery)) :
    deliveredBytes (D ++ D') = deliveredBytes D + deliveredBytes D' := by
  rw [deliveredBytes, List.map_append, List.sum_append]
  rfl

variable {partition : SegmentKey → List (List UInt8)} {D : List (SegmentKey × Delivery)}
  {fs t : FileSystem} {r : Reassembler} {buf buf' : SegmentBuf} {key : SegmentKey} {d : Delivery}

/-- What is known after the deliveries `D`: every buffer is settled, the segments that got
a chunk have one, the others have no file, and no more bytes wait than were delivered. -/
structure Gathered (partition : SegmentKey → List (List UInt8))
    (D : List (SegmentKey × Delivery)) (fs : FileSystem) (r : Reassembler) : Prop where
  safe : Safe (fun key => (partition key).flatten) fs r
  settled : ∀ key buf, r.segments.lookup key = some buf →
    Settled (partition key) (chunksOf key D) buf.nextExpected buf.pending
  reached : ∀ key d, (key, d) ∈ D → key ∈ r.segments
  unopened : ∀ key, key ∉ r.segments → fs.file? (segmentName key) = none
  bounded : r.pendingTotal ≤ deliveredBytes D

namespace Gathered

/-- A receiver that has not got anything. -/
theorem start (h : ∀ key, fs.file? (segmentName key) = none) :
    Gathered partition [] fs .new where
  safe := ⟨nofun, fun key _ hbytes => nomatch (h key).symm.trans hbytes⟩
  settled := nofun
  reached _ _ hmem := nomatch hmem
  unopened key _ := h key
  bounded := Nat.le_refl _

/-- The first chunk of a segment opens its buffer. -/
theorem insert_fresh {i : Nat} (h : Gathered partition D fs r) (hkey : key ∉ r.segments)
    (hopened : Opened (segmentName key) fs t) (hlookup : t.dir.lookup (segmentName key) = some i) :
    Gathered partition D t { r with
      segments := r.segments.insert key
        (SegmentBuf.fresh (some i) (segmentName key)
          ((fs.file? (segmentName key)).getD []).length) } where
  safe := by
    have hsafe := h.safe.opened hopened
    have hinitial := hsafe.prefixes key _ hopened.file
    exact hsafe.insert (Faithful.fresh hlookup hopened.file hinitial)
  settled key' buf' hbuf := by
    rcases AList.lookup_insert_eq_some.mp hbuf with ⟨rfl, rfl⟩ | ⟨-, hold⟩
    · have hnone : chunksOf key' D = [] := by
        refine List.eq_nil_iff_forall_not_mem.mpr fun x hx => hkey ?_
        obtain ⟨d, hd, -⟩ := mem_chunksOf.mp hx
        exact h.reached key' d hd
      rw [hnone, h.unopened key' hkey]
      exact Settled.start (boundary_zero _)
    · exact h.settled key' buf' hold
  reached key' d hd := (AList.mem_insert _).mpr (Or.inr (h.reached key' d hd))
  unopened key' hkey' := by
    rw [AList.mem_insert, not_or] at hkey'
    rw [hopened.others _ (segmentName_injective.ne hkey'.1)]
    exact h.unopened key' hkey'.2
  bounded := by
    show (r.segments.insert key _).total SegmentBuf.pendingBytes ≤ _
    rw [AList.total_insert, AList.erase_of_notMem hkey]
    exact (Nat.zero_add _).symm ▸ h.bounded

/-- One more chunk is placed in a buffer. -/
theorem insert_placed (hcs : ∀ c ∈ partition key, c ≠ []) (h : Gathered partition D fs r)
    (hlookup : r.segments.lookup key = some buf)
    (hext : Extends (partition key).flatten (segmentName key) fs t)
    (hfaithful : Faithful (partition key).flatten (segmentName key) t buf')
    (hchunk : d.chunk ∈ located 0 (partition key))
    (hplaced : Placed buf.nextExpected buf.pending d.chunk buf'.nextExpected buf'.pending)
    (hbytes : buf'.pendingBytes ≤ buf.pendingBytes + d.bytes.length) :
    Gathered partition (D ++ [(key, d)]) t
      { r with segments := r.segments.insert key buf' } where
  safe := h.safe.extend hext hfaithful
  settled key' buf'' hbuf := by
    rcases AList.lookup_insert_eq_some.mp hbuf with ⟨rfl, rfl⟩ | ⟨hkey, hold⟩
    · rw [chunksOf_append_self]
      exact (h.settled key' buf hlookup).place hcs hchunk hplaced
    · rw [chunksOf_append_ne hkey]
      exact h.settled key' buf'' hold
  reached key' d' hd' := by
    rw [AList.mem_insert]
    rcases List.mem_append.mp hd' with hold | hnew
    · exact Or.inr (h.reached key' d' hold)
    · exact Or.inl (congrArg Prod.fst (List.mem_singleton.mp hnew))
  unopened key' hkey' := by
    rw [AList.mem_insert, not_or] at hkey'
    rw [hext.others _ (segmentName_injective.ne hkey'.1)]
    exact h.unopened key' hkey'.2
  bounded := by
    have hbefore := AList.total_erase (w := SegmentBuf.pendingBytes) hlookup
    have hbounded := h.bounded
    show (r.segments.insert key buf').total SegmentBuf.pendingBytes ≤ _
    rw [AList.total_insert, deliveredBytes_append]
    unfold Reassembler.pendingTotal at hbounded
    show buf'.pendingBytes + _ ≤ deliveredBytes D + d.bytes.length
    omega

theorem holds_entry {env : Environment} (h : Gathered partition D fs r)
    (hopens : env.opens = true) :
    (Reassembler.entry env key.1 key.2).Holds (fun _ => True)
      (.returns fun buf t r' => Gathered partition D t r' ∧ r'.segments.lookup key = some buf)
      fs r := by
  refine SovProbe.holds_entry (fun buf hlookup => ⟨h, hlookup⟩) fun hlookup => ?_
  have hkey : key ∉ r.segments := AList.lookup_eq_none.mp hlookup
  refine (SovProbe.holds_openBuf rfl hopens fun _ _ => trivial).imp_returns ?_
  rintro buf t r' ⟨rfl, hopened, i, hi, rfl⟩
  exact ⟨h.insert_fresh hkey hopened hi, AList.lookup_insert _⟩

/-- Within the budget nothing is evicted. -/
theorem holds_enforcePendingBudget {env : Environment} {fuel n : Nat}
    (hbudget : r.pendingTotal ≤ pendingBudget) :
    (Reassembler.enforcePendingBudget env (fuel + 1) n).Holds (fun _ => True)
      (.returns fun _ t r' => t = fs ∧ r' = r) fs r := by
  unfold Reassembler.enforcePendingBudget
  rw [holds_get_bind, if_neg (Nat.not_lt.mpr hbudget)]
  exact (holds_pure _).mpr ⟨rfl, rfl⟩

/-- **One delivery.** -/
theorem holds_call (crc32 : List UInt8 → UInt32) (hcs : ∀ c ∈ partition key, c ≠ [])
    (h : Gathered partition D fs r) (hworks : d.Works)
    (hchunk : d.chunk ∈ located 0 (partition key))
    (hbudget : deliveredBytes (D ++ [(key, d)]) ≤ pendingBudget) :
    ((Delivery.call (key, d)).perform crc32).Holds (fun _ => True)
      (.returns fun _ t r' => Gathered partition (D ++ [(key, d)]) t r') fs r := by
  show (Reassembler.placeRaw d.env key.1 key.2 d.offset d.bytes).Holds _ _ fs r
  unfold Reassembler.placeRaw
  rw [holds_modify_bind]
  have hcounted : Gathered partition D fs { r with totalBytes := r.totalBytes + d.bytes.length } :=
    { h with safe := { h.safe with } }
  refine Holds.bind (hcounted.holds_entry hworks.1) ?_
  rintro buf t r' ⟨hgathered, hlookup⟩
  have hbuf := hgathered.safe.faithful key buf hlookup
  have hplace := hbuf.holds_place ⟨rfl, fun _ _ => rfl, hgathered.safe.prefixes key⟩ hworks.2
    (isChunk_of_located hchunk)
  refine Holds.bind (holds_onSegment hlookup (hplace.imp (fun _ _ => trivial) fun _ _ _ h => h)) ?_
  rintro - u r₁ ⟨buf', ⟨hext, hbuf', hplaced, hbytes⟩, rfl⟩
  rw [holds_get_bind]
  have hnext := hgathered.insert_placed hcs hlookup hext hbuf' hchunk hplaced hbytes
  refine (holds_enforcePendingBudget (Nat.le_trans hnext.bounded hbudget)).imp_returns ?_
  rintro - u r₂ ⟨rfl, rfl⟩
  exact hnext

/-- **All deliveries.** -/
theorem holds_receive (crc32 : List UInt8 → UInt32) {deliveries : List (SegmentKey × Delivery)}
    (hcs : ∀ key, ∀ c ∈ partition key, c ≠ []) (h : Gathered partition [] fs .new)
    (hworks : ∀ d ∈ deliveries, d.2.Works)
    (hchunks : ∀ d ∈ deliveries, d.2.chunk ∈ located 0 (partition d.1))
    (hbudget : deliveredBytes deliveries ≤ pendingBudget) :
    (receive crc32 (deliveries.map Delivery.call)).Holds (fun _ => True)
      (.returns fun _ t r => Gathered partition deliveries t r) fs .new := by
  have hmap : ∀ ds : List (SegmentKey × Delivery), receive crc32 (ds.map Delivery.call) =
      ds.forM fun d => (Delivery.call d).perform crc32 := by
    intro ds
    induction ds with
    | nil => rfl
    | cons d ds ih =>
      show ((Delivery.call d).perform crc32 >>= fun _ => receive crc32 (ds.map Delivery.call)) = _
      rw [ih]
      rfl
  rw [hmap]
  refine holds_forM (Gathered partition) (fun D d hD t r hgathered => ?_) h
  have hd : d ∈ deliveries := hD.subset (List.mem_append_right _ List.mem_cons_self)
  refine hgathered.holds_call crc32 (hcs d.1) (hworks d hd) (hchunks d hd) ?_
  obtain ⟨rest, rfl⟩ := hD
  rw [deliveredBytes_append] at hbudget
  exact Nat.le_trans (Nat.le_add_right _ _) hbudget

/-- A segment all chunks of which were delivered is complete. -/
theorem complete (crc32 : List UInt8 → UInt32) (hcs : ∀ c ∈ partition key, c ≠ [])
    (h : Gathered partition D fs r) (hlookup : r.segments.lookup key = some buf)
    (hall : ∀ x ∈ located 0 (partition key), x ∈ chunksOf key D) :
    fs.file? (segmentName key) = some (partition key).flatten ∧ buf.pending = ∅ ∧
      ∃ t buf', (SegmentBuf.onSeal crc32 (partition key).flatten.length fs buf).outcome =
        .done 0 t buf' := by
  obtain ⟨hmark, hpending⟩ := (h.settled key buf hlookup).complete hcs hall
  have hbuf := h.safe.faithful key buf hlookup
  refine ⟨?_, hpending, ?_⟩
  · rw [hbuf.content, hmark, List.take_length]
  · have hseal : (SegmentBuf.onSeal crc32 (partition key).flatten.length).Holds
        (fun _ => True) _ fs buf := hbuf.holds_onSeal crc32 (partition key).flatten.length
    obtain ⟨missing, t, buf', hdone, -, hmissing, -⟩ := hseal.returned
    rw [hmissing, hmark, Nat.sub_self] at hdone
    exact ⟨t, buf', hdone⟩

end Gathered

/-- **The order of arrival does not matter.**  Each segment's source is cut into chunks;
every chunk is delivered at least once, in any order and interleaved with the chunks of
other segments, and all deliveries together fit the budget.  Started without segment
files, the receiver ends with every file equal to its source.  Every segment that has a
chunk has a buffer, and for every buffer nothing waits and a seal at the size of the
source finds nothing missing. -/
theorem reassembly_complete (crc32 : List UInt8 → UInt32) {start : FileSystem}
    {deliveries : List (SegmentKey × Delivery)} (hcs : ∀ key, ∀ c ∈ partition key, c ≠ [])
    (hstart : ∀ key, start.file? (segmentName key) = none)
    (hworks : ∀ d ∈ deliveries, d.2.Works)
    (hall : ∀ key x, (∃ d, (key, d) ∈ deliveries ∧ d.chunk = x) ↔ x ∈ located 0 (partition key))
    (hbudget : (deliveries.map fun d => d.2.bytes.length).sum ≤ pendingBudget) :
    ∃ t r, (receive crc32 (deliveries.map Delivery.call) start .new).outcome = .done () t r ∧
      ∀ key, (t.file? (segmentName key)).getD [] = (partition key).flatten ∧
        (partition key ≠ [] → key ∈ r.segments) ∧
        ∀ buf, r.segments.lookup key = some buf →
          buf.path = segmentName key ∧
          t.file? (segmentName key) = some (partition key).flatten ∧ buf.pending = ∅ ∧
          ∃ t' buf', (SegmentBuf.onSeal crc32 (partition key).flatten.length t buf).outcome =
            .done 0 t' buf' := by
  have hchunks : ∀ d ∈ deliveries, d.2.chunk ∈ located 0 (partition d.1) :=
    fun d hd => (hall d.1 d.2.chunk).mp ⟨d.2, hd, rfl⟩
  have hrun := (Gathered.start hstart).holds_receive crc32 hcs hworks hchunks hbudget
  obtain ⟨⟨⟩, t, r, hdone, hgathered⟩ := hrun.returned
  have hbuffers : ∀ key buf, r.segments.lookup key = some buf → _ := fun key buf hlookup =>
    hgathered.complete crc32 (hcs key) hlookup fun x hx => mem_chunksOf.mpr ((hall key x).mpr hx)
  have hreached : ∀ key, partition key ≠ [] → key ∈ r.segments := by
    intro key hne
    obtain ⟨c, cs, hcons⟩ := List.exists_cons_of_ne_nil hne
    have hfirst : (0, c) ∈ located 0 (partition key) := by
      rw [hcons]
      exact List.mem_cons_self
    obtain ⟨d, hd, -⟩ := (hall key (0, c)).mpr hfirst
    exact hgathered.reached key d hd
  refine ⟨t, r, hdone, fun key => ⟨?_, hreached key, fun buf hlookup => ?_⟩⟩
  · cases hlookup : r.segments.lookup key with
    | some buf =>
      rw [(hbuffers key buf hlookup).1, Option.getD_some]
    | none =>
      have hkey : key ∉ r.segments := AList.lookup_eq_none.mp hlookup
      rw [hgathered.unopened key hkey, not_not.mp (mt (hreached key) hkey)]
      rfl
  · exact ⟨(hgathered.safe.faithful key buf hlookup).path, hbuffers key buf hlookup⟩

/-- Two segments of the same number, one of two chunks. -/
def samplePartition (key : SegmentKey) : List (List UInt8) :=
  if key = (1, 0) then [[1, 2], [3]] else if key = (2, 0) then [[7]] else []

/-- The second chunk of a segment comes first, and again after the first. -/
def sampleDeliveries : List (SegmentKey × Delivery) :=
  [((1, 0), ⟨working, 2, [3]⟩), ((2, 0), ⟨working, 0, [7]⟩), ((1, 0), ⟨working, 0, [1, 2]⟩),
    ((1, 0), ⟨working, 2, [3]⟩)]

theorem reassembly_complete_sample : ∃ t r,
    (receive Crc.ieee (sampleDeliveries.map Delivery.call) FileSystem.empty .new).outcome =
      .done () t r ∧ (t.file? (segmentName (1, 0))).getD [] = [1, 2, 3] := by
  have hcs : ∀ key, ∀ c ∈ samplePartition key, c ≠ [] := by
    intro key c hc
    unfold samplePartition at hc
    split_ifs at hc
    · revert c
      decide
    · revert c
      decide
    · cases hc
  have hworks : ∀ d ∈ sampleDeliveries, d.2.Works := by
    intro d hd
    simp only [sampleDeliveries, List.mem_cons, List.not_mem_nil, or_false] at hd
    rcases hd with rfl | rfl | rfl | rfl <;> exact ⟨rfl, fun _ => rfl⟩
  have hall : ∀ key x, (∃ d, (key, d) ∈ sampleDeliveries ∧ d.chunk = x) ↔
      x ∈ located 0 (samplePartition key) := by
    intro key x
    rw [← mem_chunksOf]
    unfold samplePartition
    split_ifs with h1 h2
    · subst h1
      have hchunks : chunksOf (1, 0) sampleDeliveries = [(2, [3]), (0, [1, 2]), (2, [3])] := by
        decide
      have hlocated : located 0 [([1, 2] : List UInt8), [3]] = [(0, [1, 2]), (2, [3])] := rfl
      rw [hchunks, hlocated]
      simp only [List.mem_cons, List.not_mem_nil, or_false]
      constructor
      · rintro (rfl | rfl | rfl)
        · exact Or.inr rfl
        · exact Or.inl rfl
        · exact Or.inr rfl
      · rintro (rfl | rfl)
        · exact Or.inr (Or.inl rfl)
        · exact Or.inl rfl
    · subst h2
      have hchunks : chunksOf (2, 0) sampleDeliveries = [(0, [7])] := by decide
      rw [hchunks]
      rfl
    · have hchunks : chunksOf key sampleDeliveries = [] := by
        simp [chunksOf, sampleDeliveries, Ne.symm h1, Ne.symm h2]
      rw [hchunks]
      rfl
  have hstart : ∀ key, FileSystem.empty.file? (segmentName key) = none := fun _ => rfl
  obtain ⟨t, r, hdone, hfiles⟩ := reassembly_complete Crc.ieee hcs hstart hworks hall (by decide)
  exact ⟨t, r, hdone, (hfiles (1, 0)).1⟩

end SovProbe
