import SovProbe.WaterMark

/-! # Waiting chunks and the water mark

The loop at the end of `place` writes the first waiting chunk as long as it starts at the
water mark, and looks no further.  When a chunk is written that reaches over the start of
one that waits, the mark passes it: it is never written, and all chunks behind it wait
for ever.  This happens exactly when chunks overlap (`not_overtaken_iff`).
-/

namespace SovProbe
open Process Reordering

namespace SegmentBuf

/-- No waiting chunk starts inside one that the call writes: the chunk that is placed at
the water mark, or a waiting one that the mark comes to. -/
def FitsIn (s : FileSystem × SegmentBuf) (c : Placement) : Prop :=
  c.bytes ≠ [] → ∀ x, Written s.2.nextExpected s.2.pending (c.offset, c.bytes) x →
    ¬ Overlapped s.2.pending x

variable {s : FileSystem × SegmentBuf}

/-- **One call** keeps the waiting chunks behind the water mark exactly when none of them
starts inside a chunk that it writes. -/
theorem placeStep_ahead (h : s.2.Counted) (c : Placement) :
    ∃ t, placeStep s c = some t ∧ t.2.Counted ∧ (Ahead s.2.nextExpected s.2.pending →
      (Ahead t.2.nextExpected t.2.pending ↔ FitsIn s c)) := by
  obtain ⟨t, hstep, -, -, hplaced, hcounted, -⟩ :=
    (holds_place c.env c.offset c.bytes s.1 h).state?
  refine ⟨t, hstep, hcounted, fun hahead => ?_⟩
  rw [hplaced.ahead_iff hahead h.nonempty]
  refine ⟨fun hall _ => hall, fun hfits x hx hover => ?_⟩
  by_cases hempty : c.bytes = []
  · -- nothing is written, and nothing starts inside nothing
    obtain ⟨hat, rfl | hfollows⟩ := hx
    · obtain ⟨o, -, hgt, hlt⟩ := hover
      rw [hempty, List.length_nil] at hlt
      omega
    · rw [hempty] at hfollows
      exact Nat.lt_irrefl _ (hahead _ hfollows.mem)
  · exact hfits hempty x hx hover

/-- **No waiting chunk is overtaken**, in a segment that is opened and then gets any chunks,
exactly when at each call none of those that wait starts inside a chunk that is written. -/
theorem not_overtaken_iff (env : Environment) (devId seq : UInt32) (fs : FileSystem)
    (calls : List Placement) :
    ∃ buf t, (openBuf env devId seq fs ()).outcome = .done buf t () ∧
      (∃ s, Transition.run placeStep (t, buf) calls = some s) ∧
      ((∀ pre s, pre <+: calls → Transition.run placeStep (t, buf) pre = some s →
          ∀ o ∈ s.2.pending, s.2.nextExpected < o) ↔
        Transition.Guarded placeStep FitsIn (t, buf) calls) := by
  obtain ⟨buf, t, ⟨⟩, hopen, -, file, hfresh, -⟩ := (holds_openBuf env devId seq fs ()).returned
  have hcounted : (t, buf).2.Counted := hfresh ▸ Counted.fresh _ _ _
  have hstart : ∀ o ∈ (t, buf).2.pending, (t, buf).2.nextExpected < o := by
    intro o ho
    rw [hfresh] at ho
    cases ho
  have hstep : ∀ (s : FileSystem × SegmentBuf) (c : Placement), s.2.Counted →
      ∃ t, placeStep s c = some t ∧ t.2.Counted := by
    intro s c hs
    obtain ⟨t, ht, hcounted', -⟩ := placeStep_ahead hs c
    exact ⟨t, ht, hcounted'⟩
  refine ⟨buf, t, hopen, ?_, ?_⟩
  · obtain ⟨s, hs, -⟩ := Transition.exists_run hstep calls hcounted
    exact ⟨s, hs⟩
  · refine Transition.forall_prefix_iff_guarded
      (P := fun s : FileSystem × SegmentBuf => ∀ o ∈ s.2.pending, s.2.nextExpected < o)
      hstart fun pre c u _ hu => ?_
    obtain ⟨v, hv, -, hiff⟩ := placeStep_ahead (Transition.inv_of_run hstep hcounted hu) c
    exact ⟨v, hv, hiff⟩

/-- **A waiting chunk is overtaken**: one waits at 1 and one at 2 when the two bytes before
2 come.  The mark is then at 2, and the chunk there is not written. -/
theorem waiting_chunk_overtaken :
    ¬ ∀ (env : Environment) (devId seq : UInt32) (fs t : FileSystem) (buf : SegmentBuf)
        (calls : List Placement) (s : FileSystem × SegmentBuf),
        (∀ c ∈ calls, c.bytes ≠ []) → (openBuf env devId seq fs ()).outcome = .done buf t () →
        Transition.run placeStep (t, buf) calls = some s →
        ∀ o ∈ s.2.pending, s.2.nextExpected < o := by
  intro h
  have hopen : (openBuf working 1 0 FileSystem.empty ()).outcome =
      .done (fresh (some 0) (segPath 1 0) 0) (FileSystem.empty.link (segPath 1 0)) () := rfl
  have hlate : (Transition.run placeStep
      (FileSystem.empty.link (segPath 1 0), fresh (some 0) (segPath 1 0) 0)
      [⟨working, 2, [3]⟩, ⟨working, 1, [2]⟩, ⟨working, 0, [1, 2]⟩]).map
        (fun s => (s.2.nextExpected, s.2.pending.lookup 2)) = some (2, some [3]) := by
    decide +kernel
  obtain ⟨s, hrun, hpair⟩ := Option.map_eq_some_iff.mp hlate
  obtain ⟨hnext, hwaits⟩ := Prod.mk.inj hpair
  have hbytes : ∀ c ∈ ([⟨working, 2, [3]⟩, ⟨working, 1, [2]⟩, ⟨working, 0, [1, 2]⟩] :
      List Placement), c.bytes ≠ [] := by
    simp only [List.forall_mem_cons, List.not_mem_nil, false_implies, implies_true, and_true,
      ne_eq, reduceCtorEq, not_false_eq_true]
  have hmem : 2 ∈ s.2.pending := AList.lookup_isSome.mp (by rw [hwaits]; rfl)
  have hlt := h working 1 0 _ _ _ _ s hbytes hopen hrun 2 hmem
  rw [hnext] at hlt
  exact Nat.lt_irrefl 2 hlt

end SegmentBuf
end SovProbe
