import SovProbe.PlacementEffects
import SovProbe.ReassemblySafety
import SovProbe.Transition

/-! # The water mark and the file

`next_expected` is meant to be the size of the segment's file, and a seal relies on it.
The results of opening and of writing are discarded, so it is the size exactly when no
failure is discarded: the file was opened, or there is nothing to go on from, and every
write of every call reaches the file to its end (`water_mark_iff`).
-/

namespace SovProbe
open Process

/-- A call of `place`. -/
structure Placement where
  env : Environment
  offset : Nat
  bytes : List UInt8

namespace SegmentBuf

/-- A call of `place` that returns. -/
def placeStep (s : FileSystem × SegmentBuf) (c : Placement) : Option (FileSystem × SegmentBuf) :=
  (place c.env c.offset c.bytes s.1 s.2).outcome.state?

/-- `next_expected` is the size of the file. -/
def AtEnd (s : FileSystem × SegmentBuf) : Prop := s.2.nextExpected = fileSize s.1 s.2.path

/-- A seal that finds nothing missing is right. -/
def SealsWhole (crc32 : List UInt8 → UInt32) (s : FileSystem × SegmentBuf) : Prop :=
  ∀ sealedSize t buf, (onSeal crc32 sealedSize s.1 s.2).outcome = .done 0 t buf →
    sealedSize ≤ fileSize s.1 s.2.path

/-- Every write of the call has a file and does not fail before its end. -/
def WritesThrough (s : FileSystem × SegmentBuf) (c : Placement) : Prop :=
  ∀ i b, (s.2.writes c.offset c.bytes)[i]? = some b →
    s.2.file.isSome ∧ ∀ n, c.env.writes i = some n → b.length ≤ n

/-- The buffer writes to the file of this name, and nothing empty. -/
structure Ready (name : FileName) (s : FileSystem × SegmentBuf) : Prop where
  tied : Tied name s.1 s.2
  counted : s.2.Counted

variable {s t : FileSystem × SegmentBuf} {c : Placement} {name : FileName} {b bytes : List UInt8}

theorem mem_due {b : List UInt8} : ∀ {fuel next : Nat} {pending : AList fun _ : Nat => List UInt8},
    b ∈ due fuel next pending → ∃ o, pending.lookup o = some b := by
  intro fuel
  induction fuel with
  | zero => intro next pending hb; cases hb
  | succ fuel ih =>
    intro next pending hb
    unfold due at hb
    cases hfirst : pending.first? with
    | none => rw [hfirst] at hb; cases hb
    | some chunk =>
      obtain ⟨o, b'⟩ := chunk
      rw [hfirst] at hb
      dsimp only at hb
      by_cases ho : o = next
      · rw [if_pos ho] at hb
        rcases List.mem_cons.mp hb with rfl | hrest
        · exact ⟨o, (AList.first?_eq_some.mp hfirst).1⟩
        · obtain ⟨o', ho'⟩ := ih hrest
          exact ⟨o', (AList.lookup_erase_eq_some.mp ho').2⟩
      · rw [if_neg ho] at hb
        cases hb

/-- Nothing empty is written. -/
theorem Counted.ne_nil_of_mem_writes {buf : SegmentBuf} {offset : Nat} (h : buf.Counted)
    (hb : b ∈ buf.writes offset bytes) : b ≠ [] := by
  unfold writes at hb
  by_cases hwrites : bytes ≠ [] ∧ offset = buf.nextExpected
  · rw [if_pos hwrites] at hb
    rcases List.mem_cons.mp hb with rfl | hdue
    · exact hwrites.1
    · obtain ⟨o, ho⟩ := mem_due hdue
      exact h.nonempty o b ho
  · rw [if_neg hwrites] at hb
    cases hb

theorem reach_eq_iff {file fault : Option Nat} (hb : b ≠ []) :
    reach file fault b = b.length ↔ file.isSome ∧ ∀ n, fault = some n → b.length ≤ n := by
  have hpos := List.length_pos_iff.mpr hb
  cases file with
  | none =>
    refine iff_of_false (fun h => ?_) fun h => absurd h.1 Bool.false_ne_true
    rw [reach] at h
    omega
  | some i =>
    cases fault with
    | none =>
      refine iff_of_true rfl ⟨rfl, fun n hn => ?_⟩
      cases hn
    | some n =>
      constructor
      · intro h
        refine ⟨rfl, fun m hm => ?_⟩
        rw [← Option.some.inj hm, ← h]
        exact Nat.min_le_left _ _
      · intro h
        exact Nat.min_eq_right (h.2 n rfl)

/-- **One call**: `next_expected` stays the size of the file exactly when every write of
it goes through. -/
theorem placeStep_ready (h : Ready name s) (c : Placement) :
    ∃ t, placeStep s c = some t ∧ Ready name t ∧ (AtEnd s → (AtEnd t ↔ WritesThrough s c)) := by
  obtain ⟨t, hstep, -, hwrote, -, hcounted, -⟩ :=
    (holds_place c.env c.offset c.bytes s.1 h.counted).state?
  have htied : Tied name t.1 t.2 := hwrote.tied h.tied
  refine ⟨t, hstep, ⟨htied, hcounted⟩, fun hend => ?_⟩
  have hle := reached_le c.env s.2.file (s.2.writes c.offset c.bytes) 0
  have hsum : AtEnd t ↔ reached c.env s.2.file 0 (s.2.writes c.offset c.bytes) =
      (s.2.writes c.offset c.bytes).flatten.length := by
    unfold AtEnd at hend ⊢
    rw [h.tied.path] at hend
    rw [htied.path, hwrote.nextExpected, hwrote.size name h.tied, hend]
    omega
  rw [hsum, reached_eq_iff]
  refine forall_congr' fun i => forall_congr' fun b => forall_congr' fun hb => ?_
  rw [Nat.zero_add, reach_eq_iff (h.counted.ne_nil_of_mem_writes (List.mem_of_getElem? hb))]

theorem AtEnd.sealsWhole (crc32 : List UInt8 → UInt32) (h : AtEnd s) : SealsWhole crc32 s := by
  intro sealedSize t buf hseal
  obtain ⟨-, hmissing, -⟩ := (holds_onSeal crc32 sealedSize s.1 s.2).done hseal
  rw [← h]
  omega

/-- **The water mark**: in a segment that is opened and then gets any chunks, while
opening and writing may fail, `next_expected` is the size of the file after every call,
and every seal is right, exactly when the file was opened or there was nothing in it, and
every write of every call goes through. -/
theorem water_mark_iff (crc32 : List UInt8 → UInt32) (env : Environment) (devId seq : UInt32)
    (fs : FileSystem) (calls : List Placement) :
    ∃ buf t, (openBuf env devId seq fs ()).outcome = .done buf t () ∧
      (∃ s, Transition.run placeStep (t, buf) calls = some s) ∧
      ((∀ pre s, pre <+: calls → Transition.run placeStep (t, buf) pre = some s →
          AtEnd s ∧ SealsWhole crc32 s) ↔
        (env.opens = true ∨ fileSize fs (segPath devId seq) = 0) ∧
          Transition.Guarded placeStep WritesThrough (t, buf) calls) := by
  obtain ⟨buf, t, ⟨⟩, hopen, -, file, hfresh, htied, hsize⟩ :=
    (holds_openBuf env devId seq fs ()).returned
  have hready : Ready (segPath devId seq) (t, buf) := ⟨htied, hfresh ▸ Counted.fresh _ _ _⟩
  have hstep : ∀ u c, Ready (segPath devId seq) u →
      ∃ v, placeStep u c = some v ∧ Ready (segPath devId seq) v := by
    intro u c hu
    obtain ⟨v, hv, hready', -⟩ := placeStep_ready hu c
    exact ⟨v, hv, hready'⟩
  have hstart : AtEnd (t, buf) ↔ env.opens = true ∨ fileSize fs (segPath devId seq) = 0 := by
    unfold AtEnd
    dsimp only
    rw [htied.path, hsize, hfresh, fresh]
    by_cases hopens : env.opens = true
    · rw [if_pos hopens]
      exact iff_of_true rfl (Or.inl hopens)
    · rw [if_neg hopens, or_iff_right hopens]
      exact eq_comm
  refine ⟨buf, t, hopen, ?_, ?_⟩
  · obtain ⟨s, hs, -⟩ := Transition.exists_run hstep calls hready
    exact ⟨s, hs⟩
  · rw [← hstart]
    have hiff : AtEnd (t, buf) →
        ((∀ pre s, pre <+: calls → Transition.run placeStep (t, buf) pre = some s → AtEnd s) ↔
          Transition.Guarded placeStep WritesThrough (t, buf) calls) := by
      intro hend
      refine Transition.forall_prefix_iff_guarded hend fun pre c u _ hu => ?_
      obtain ⟨v, hv, -, hend'⟩ := placeStep_ready (Transition.inv_of_run hstep hready hu) c
      exact ⟨v, hv, hend'⟩
    constructor
    · intro h
      have hend : AtEnd (t, buf) := (h [] (t, buf) List.nil_prefix rfl).1
      exact ⟨hend, (hiff hend).mp fun pre s hpre hs => (h pre s hpre hs).1⟩
    · rintro ⟨hend, hok⟩ pre s hpre hs
      have hs' := (hiff hend).mpr hok pre s hpre hs
      exact ⟨hs', hs'.sealsWhole crc32⟩

/-- Writes that fail after the first byte. -/
def diskFull : Environment := ⟨true, fun _ => some 1, fun _ _ => 0⟩

/-- **A failed write is reported as received**: the disk is full after the first byte of
three, and the seal finds nothing missing. -/
theorem failed_write_sealed :
    ¬ ∀ (crc32 : List UInt8 → UInt32) (env : Environment) (devId seq : UInt32) (fs t : FileSystem)
        (buf : SegmentBuf) (calls : List Placement) (s : FileSystem × SegmentBuf),
        (openBuf env devId seq fs ()).outcome = .done buf t () →
        Transition.run placeStep (t, buf) calls = some s → AtEnd s ∧ SealsWhole crc32 s := by
  intro h
  have hopen : (openBuf working 1 0 FileSystem.empty ()).outcome =
      .done (fresh (some 0) (segPath 1 0) 0) (FileSystem.empty.link (segPath 1 0)) () := rfl
  have hfull : (Transition.run placeStep
      (FileSystem.empty.link (segPath 1 0), fresh (some 0) (segPath 1 0) 0)
      [⟨diskFull, 0, [1, 2, 3]⟩]).map (fun s => (s.2.nextExpected, fileSize s.1 s.2.path)) =
      some (3, 1) := by decide +kernel
  obtain ⟨s, hrun, hpair⟩ := Option.map_eq_some_iff.mp hfull
  obtain ⟨hnext, hsize⟩ := Prod.mk.inj hpair
  obtain ⟨missing, u, buf', hseal, -, hmissing, -⟩ :=
    (holds_onSeal Crc.ieee 3 s.1 s.2).returned
  rw [hnext, Nat.sub_self] at hmissing
  rw [hmissing] at hseal
  have hwhole := (h Crc.ieee working 1 0 _ _ _ _ s hopen hrun).2 3 u buf' hseal
  rw [hsize] at hwhole
  exact absurd hwhole (by decide)

end SegmentBuf
end SovProbe
