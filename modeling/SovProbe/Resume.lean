import SovProbe.ReassemblySafety

/-! # Resuming a segment

A receiver that is started again goes on from the size of the file it finds.  What it
finds need not end where a chunk ends: a write can be cut anywhere.  If it does, all
chunks delivered again complete the file; if it does not, the chunk the cut is in
starts before the end of the file and is dropped as a repetition.
-/

namespace SovProbe
open Process Chunking Reordering

/-- A chunk that is delivered, and the environment of the call. -/
structure Delivery where
  env : Environment
  offset : Nat
  bytes : List UInt8

namespace Delivery

/-- The chunk, with its offset. -/
def chunk (d : Delivery) : Nat × List UInt8 := (d.offset, d.bytes)

/-- The file operations of the call succeed. -/
def Works (d : Delivery) : Prop := d.env.opens = true ∧ ∀ n, d.env.writes n = none

/-- The call on the buffer of its segment. -/
def place (d : Delivery) : Process FileSystem SegmentBuf Unit := do
  let _ ← SegmentBuf.place d.env d.offset d.bytes

end Delivery

/-- The chunks of a partition, as parts of the string. -/
theorem isChunk_of_located {cs : List (List UInt8)} {x : Nat × List UInt8}
    (hx : x ∈ located 0 cs) : IsChunk cs.flatten x.1 x.2 := located_eq hx

/-- `SegmentBuf::open`, and then `place` for each delivery. -/
def SegmentBuf.resume (env : Environment) (devId seq : UInt32) (deliveries : List Delivery) :
    Process FileSystem SegmentBuf Unit := do
  let buf ← openBuf env devId seq
  modify fun _ => buf
  deliveries.forM Delivery.place

variable {cs : List (List UInt8)} {name : FileName} {fs fs₀ t : FileSystem} {buf : SegmentBuf}
  {k : Nat} {D : List (Nat × List UInt8)} {d : Delivery}

/-- A buffer that goes on from `k`: it is faithful, and its mark is settled, or stays
at `k` if no chunk starts or ends there. -/
structure Resumed (cs : List (List UInt8)) (name : FileName) (k : Nat)
    (D : List (Nat × List UInt8)) (fs : FileSystem) (buf : SegmentBuf) : Prop where
  faithful : Faithful cs.flatten name fs buf
  settled : Boundary cs k → Settled cs D buf.nextExpected buf.pending
  stalled : ¬ Boundary cs k → buf.nextExpected = k

namespace Resumed

/-- The buffer just opened. -/
theorem opened {i : Nat} (hk : k ≤ cs.flatten.length)
    (hfile : fs.file? name = some (cs.flatten.take k)) (hopened : Opened name fs t)
    (hlookup : t.dir.lookup name = some i) :
    Resumed cs name k [] t
      (SegmentBuf.fresh (some i) name ((fs.file? name).getD []).length) := by
  have hwritten : t.file? name = some (cs.flatten.take k) := by
    rw [hopened.file, hfile, Option.getD_some]
  have hlength : (cs.flatten.take k).length = k := by
    rw [List.length_take, Nat.min_eq_left hk]
  rw [hfile, Option.getD_some]
  refine ⟨Faithful.fresh hlookup hwritten (List.take_prefix _ _), fun hboundary => ?_, fun _ => ?_⟩
  · rw [hlength]
    exact Settled.start hboundary
  · exact hlength

/-- **One delivery.** -/
theorem holds_place (hcs : ∀ c ∈ cs, c ≠ []) (h : Resumed cs name k D fs buf)
    (hext : Extends cs.flatten name fs₀ fs) (hworks : ∀ n, d.env.writes n = none)
    (hchunk : d.chunk ∈ located 0 cs) :
    d.place.Holds (Extends cs.flatten name fs₀)
      (.returns fun _ t buf' => Extends cs.flatten name fs₀ t ∧
        Resumed cs name k (D ++ [d.chunk]) t buf') fs buf := by
  refine (h.faithful.holds_place hext hworks (isChunk_of_located hchunk)).bind ?_
  rintro - t buf' ⟨hext', hfaithful, hplaced, -⟩
  refine (holds_pure _).mpr ⟨hext', hfaithful, fun hboundary => ?_, fun hboundary => ?_⟩
  · exact (h.settled hboundary).place hcs hchunk hplaced
  · have hmark := h.stalled hboundary
    rw [hmark] at hplaced
    exact hplaced.stalled hboundary hchunk

/-- **All deliveries.** -/
theorem holds_deliveries {deliveries : List Delivery} (hcs : ∀ c ∈ cs, c ≠ [])
    (h : Resumed cs name k [] fs buf) (hworks : ∀ d ∈ deliveries, d.Works)
    (hchunks : ∀ x ∈ deliveries.map Delivery.chunk, x ∈ located 0 cs) :
    (deliveries.forM Delivery.place).Holds (Extends cs.flatten name fs)
      (.returns fun _ t buf => Resumed cs name k (deliveries.map Delivery.chunk) t buf) fs buf := by
  have hinitial : Extends cs.flatten name fs fs := by
    refine ⟨rfl, fun _ _ => rfl, fun bytes hbytes => ?_⟩
    rw [h.faithful.content] at hbytes
    exact Option.some.inj hbytes ▸ List.take_prefix _ _
  refine (holds_forM (fun pre t buf => Extends cs.flatten name fs t ∧
    Resumed cs name k (pre.map Delivery.chunk) t buf) ?_
      ⟨hinitial, h⟩).imp_returns fun _ _ _ h => h.2
  rintro pre d hpre t buf ⟨hext, hresumed⟩
  have hd : d ∈ deliveries := hpre.subset (List.mem_append_right _ List.mem_cons_self)
  rw [List.map_append]
  exact hresumed.holds_place hcs hext (hworks d hd).2 (hchunks _ (List.mem_map_of_mem hd))

/-- Once all chunks are delivered, the file is complete iff it could be resumed. -/
theorem complete_iff (hcs : ∀ c ∈ cs, c ≠ []) (h : Resumed cs name k D fs buf)
    (hk : k ≤ cs.flatten.length) (hall : ∀ x ∈ located 0 cs, x ∈ D) :
    (fs.file? name = some cs.flatten ∧ buf.pending = ∅) ↔ Boundary cs k := by
  constructor
  · rintro ⟨hfile, -⟩
    by_contra hboundary
    -- the file still ends at `k`, and the end of the string is a boundary
    have hcontent := h.faithful.content
    rw [h.stalled hboundary, hfile] at hcontent
    have hend := (List.take_eq_self_iff _).mp (Option.some.inj hcontent).symm
    exact hboundary (Or.inl (Nat.le_antisymm hk hend))
  · intro hboundary
    obtain ⟨hmark, hpending⟩ := (h.settled hboundary).complete hcs hall
    refine ⟨?_, hpending⟩
    rw [h.faithful.content, hmark, List.take_length]

end Resumed

/-- A segment that is opened with the first `k` bytes of the source in its file, and gets
all its chunks again. -/
theorem holds_resume {key : SegmentKey} {env : Environment} {deliveries : List Delivery}
    (hcs : ∀ c ∈ cs, c ≠ []) (hk : k ≤ cs.flatten.length)
    (hfile : fs.file? (segmentName key) = some (cs.flatten.take k))
    (hopens : env.opens = true) (hworks : ∀ d ∈ deliveries, d.Works)
    (hchunks : ∀ x ∈ deliveries.map Delivery.chunk, x ∈ located 0 cs) (before : SegmentBuf) :
    (SegmentBuf.resume env key.1 key.2 deliveries).Holds (fun _ => True)
      (.returns fun _ t buf =>
        Resumed cs (segmentName key) k (deliveries.map Delivery.chunk) t buf) fs before := by
  unfold SegmentBuf.resume
  refine Holds.bind (holds_openBuf rfl hopens fun _ _ => trivial) ?_
  rintro buf t - ⟨-, hopened, i, hlookup, rfl⟩
  rw [holds_modify_bind]
  have hfirst := Resumed.opened hk hfile hopened hlookup
  exact (hfirst.holds_deliveries hcs hworks hchunks).imp (fun _ _ => trivial) fun _ _ _ h => h

/-- **A segment can be resumed exactly at its boundaries.**  The file holds the first
`k` bytes of the source; all chunks are delivered again, in any order and any number
of times.  The calls return, and then the file is the source and nothing waits iff
a chunk starts or ends at `k`. -/
theorem resume_complete_iff {key : SegmentKey} {env : Environment} {deliveries : List Delivery}
    (hcs : ∀ c ∈ cs, c ≠ []) (hk : k ≤ cs.flatten.length)
    (hfile : fs.file? (segmentName key) = some (cs.flatten.take k))
    (hopens : env.opens = true) (hworks : ∀ d ∈ deliveries, d.Works)
    (hall : ∀ x, x ∈ deliveries.map Delivery.chunk ↔ x ∈ located 0 cs) (before : SegmentBuf) :
    ∃ t buf, (SegmentBuf.resume env key.1 key.2 deliveries fs before).outcome = .done () t buf ∧
      ((t.file? (segmentName key) = some cs.flatten ∧ buf.pending = ∅) ↔ Boundary cs k) := by
  have hrun := holds_resume hcs hk hfile hopens hworks (fun x hx => (hall x).mp hx) before
  obtain ⟨⟨⟩, t, buf, hdone, hresumed⟩ := hrun.returned
  exact ⟨t, buf, hdone, hresumed.complete_iff hcs hk fun x hx => (hall x).mpr hx⟩

/-- A segment of two chunks, of which the first is on disk. -/
def halfDir : FileSystem := (FileSystem.empty.link (segmentName (1, 0))).append 0 [1, 2]

/-- Both chunks, the second one first and twice. -/
def bothAgain : List Delivery := [⟨working, 2, [3]⟩, ⟨working, 0, [1, 2]⟩, ⟨working, 2, [3]⟩]

theorem resume_complete_iff_half : ∃ t buf,
    (SegmentBuf.resume working 1 0 bothAgain halfDir (SegmentBuf.fresh none [] 0)).outcome =
      .done () t buf ∧
    ((t.file? (segmentName (1, 0)) = some [1, 2, 3] ∧ buf.pending = ∅) ↔
      Boundary ([[1, 2], [3]] : List (List UInt8)) 2) := by
  have hcs : ∀ c ∈ ([[1, 2], [3]] : List (List UInt8)), c ≠ [] := by decide
  have hfile : halfDir.file? (segmentName (1, 0)) =
      some (([[1, 2], [3]] : List (List UInt8)).flatten.take 2) := by decide
  have hworks : ∀ d ∈ bothAgain, d.Works := by
    intro d hd
    simp only [bothAgain, List.mem_cons, List.not_mem_nil, or_false] at hd
    rcases hd with rfl | rfl | rfl <;> exact ⟨rfl, fun _ => rfl⟩
  have hall : ∀ x, x ∈ bothAgain.map Delivery.chunk ↔
      x ∈ located 0 ([[1, 2], [3]] : List (List UInt8)) := by
    intro x
    simp only [bothAgain, located, Delivery.chunk, List.map_cons, List.map_nil, List.mem_cons,
      List.not_mem_nil, or_false, List.length_cons, List.length_nil]
    tauto
  have hopens : working.opens = true := rfl
  exact resume_complete_iff hcs (by decide) hfile hopens hworks hall _

/-- **Not every segment can be resumed**: one chunk of two bytes, of which the first was
written before the receiver was killed, is dropped when it comes again. -/
theorem resume_incomplete :
    ¬ ∀ (cs : List (List UInt8)) (k : Nat) (fs : FileSystem) (key : SegmentKey)
        (env : Environment) (deliveries : List Delivery) (before : SegmentBuf),
        (∀ c ∈ cs, c ≠ []) → k ≤ cs.flatten.length →
        fs.file? (segmentName key) = some (cs.flatten.take k) → env.opens = true →
        (∀ d ∈ deliveries, d.Works) → (deliveries.map Delivery.chunk).Perm (located 0 cs) →
        (deliveries.map fun d => d.bytes.length).sum ≤ pendingBudget →
        ∃ t buf, (SegmentBuf.resume env key.1 key.2 deliveries fs before).outcome =
            .done () t buf ∧
          t.file? (segmentName key) = some cs.flatten ∧ buf.pending = ∅ := by
  intro h
  have hcs : ∀ c ∈ ([[1, 2]] : List (List UInt8)), c ≠ [] := by decide
  have hfile : ((FileSystem.empty.link (segmentName (1, 0))).append 0 [1]).file?
      (segmentName (1, 0)) = some (([[1, 2]] : List (List UInt8)).flatten.take 1) := by decide
  have hworks : ∀ d ∈ [(⟨working, 0, [1, 2]⟩ : Delivery)], d.Works := by
    intro d hd
    rw [List.mem_singleton.mp hd]
    exact ⟨rfl, fun _ => rfl⟩
  have hopens : working.opens = true := rfl
  have hrun := holds_resume hcs (by decide) hfile hopens hworks (fun x hx => hx)
    (SegmentBuf.fresh none [] 0)
  obtain ⟨t, buf, hdone, hcomplete⟩ := h [[1, 2]] 1 _ (1, 0) working _
    (SegmentBuf.fresh none [] 0) hcs (by decide) hfile hopens hworks (List.Perm.refl _) (by decide)
  have hboundary : Boundary ([[1, 2]] : List (List UInt8)) 1 :=
    ((hrun.done hdone).complete_iff hcs (by decide) fun x hx => hx).mp hcomplete
  rcases hboundary with hend | ⟨b, hb⟩
  · exact absurd hend (by decide)
  · rw [located, located, List.mem_singleton] at hb
    have hoffset : 1 = 0 := congrArg Prod.fst hb
    exact absurd hoffset (by decide)

end SovProbe
