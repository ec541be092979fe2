import SovProbe.Reassembler
import SovProbe.Reordering

/-! # Placing the chunks of one segment

A buffer is faithful to the source `S` of its segment when its file holds the first
`next_expected` bytes of `S` and every chunk that waits is a part of `S` at its
offset.  Placing another such chunk keeps it so, and writes nothing on the way that
is not in `S`.  The end of the file and the chunks that wait change as those of any
receiver that puts chunks in order.
-/

namespace SovProbe
open Process Reordering

/-- `bytes` is a part of `S` at offset `o`. -/
def IsChunk (S : List UInt8) (o : Nat) (bytes : List UInt8) : Prop :=
  o + bytes.length ≤ S.length ∧ bytes = (S.drop o).take bytes.length

/-- The buffer, the file it writes and the chunks it keeps are faithful to `S`. -/
structure Faithful (S : List UInt8) (name : FileName) (fs : FileSystem) (buf : SegmentBuf) :
    Prop where
  path : buf.path = name
  file : ∃ i, buf.file = some i ∧ fs.dir.lookup name = some i
  content : fs.file? name = some (S.take buf.nextExpected)
  within : buf.nextExpected ≤ S.length
  chunks : ∀ o b, buf.pending.lookup o = some b → IsChunk S o b
  accounted : buf.pending.total List.length ≤ buf.pendingBytes

/-- What placing chunks may do to the directory: it writes to one file, which stays a
prefix of `S`. -/
structure Extends (S : List UInt8) (name : FileName) (fs t : FileSystem) : Prop where
  dir : t.dir = fs.dir
  others : ∀ name', name' ≠ name → t.file? name' = fs.file? name'
  isPrefix : ∀ bytes, t.file? name = some bytes → bytes <+: S

variable {S bytes : List UInt8} {name : FileName} {fs fs₀ : FileSystem} {buf : SegmentBuf}
  {offset : Nat} {env : Environment}

/-- A chunk at the end of a prefix of the source prolongs it. -/
theorem IsChunk.take_append (h : IsChunk S offset bytes) :
    S.take offset ++ bytes = S.take (offset + bytes.length) := by
  rw [List.take_add, ← h.2]

/-- Appending to the file. -/
theorem Extends.append {i : Nat} (h : Extends S name fs₀ fs) (hi : fs.dir.lookup name = some i)
    (hinitial : fs.content i ++ bytes <+: S) : Extends S name fs₀ (fs.append i bytes) where
  dir := h.dir
  others name' hne := by rw [FileSystem.file?_append_ne hi hne, h.others name' hne]
  isPrefix written hwritten := by
    rw [FileSystem.file?_append hi] at hwritten
    exact Option.some.inj hwritten ▸ hinitial

/-! ## Opening -/

/-- What opening the file of a segment does to the directory: the file is there, and
empty if there was none. -/
structure Opened (name : FileName) (fs t : FileSystem) : Prop where
  lookup : ∀ name' i, fs.dir.lookup name' = some i → t.dir.lookup name' = some i
  others : ∀ name', name' ≠ name → t.file? name' = fs.file? name'
  file : t.file? name = some ((fs.file? name).getD [])

theorem Opened.of_lookup {i : Nat} (h : fs.dir.lookup name = some i) : Opened name fs fs where
  lookup _ _ h := h
  others _ _ := rfl
  file := by rw [FileSystem.file?_of_lookup h, Option.getD_some]

theorem Opened.link (h : fs.dir.lookup name = none) : Opened name fs (fs.link name) where
  lookup name' i hi := by
    have hne : name' ≠ name := by
      rintro rfl
      rw [h] at hi
      cases hi
    rw [FileSystem.dir_link, AList.lookup_insert_ne hne]
    exact hi
  others _ hne := FileSystem.file?_link_ne hne
  file := by
    have hnone : fs.file? name = none := by rw [FileSystem.file?, h, Option.map_none]
    rw [FileSystem.file?_link, hnone, Option.getD_none]

/-- **A buffer is opened at the end of its file.** -/
theorem holds_openBuf {ρ : Type} {m : ρ} {devId seq : UInt32} {crash : FileSystem → Prop}
    (hname : SegmentBuf.segPath devId seq = name) (hopens : env.opens = true)
    (hcrash : ∀ t, Opened name fs t → crash t) :
    (SegmentBuf.openBuf env devId seq).Holds crash
      (.returns fun buf t m' => m' = m ∧ Opened name fs t ∧ ∃ i, t.dir.lookup name = some i ∧
        buf = SegmentBuf.fresh (some i) name ((fs.file? name).getD []).length) fs m := by
  have hlen : ∀ bytes : List UInt8, ((some bytes).map List.length).getD 0 = bytes.length :=
    fun _ => rfl
  unfold SegmentBuf.openBuf
  simp only [hopens, if_true, hname]
  rw [holds_bind, holds_openAppend]
  cases hlookup : fs.dir.lookup name with
  | some i =>
    have hopened := Opened.of_lookup hlookup
    simp only [holds_bind, holds_read, holds_pure]
    rw [hopened.file, hlen]
    exact ⟨rfl, hopened, i, hlookup, rfl⟩
  | none =>
    have hopened := Opened.link hlookup
    simp only [holds_bind, holds_read, holds_pure]
    rw [hopened.file, hlen]
    exact ⟨hcrash _ hopened, rfl, hopened, _, AList.lookup_insert _, rfl⟩

/-! ## Placing -/

theorem SegmentBuf.holds_releaseBytes {n : Nat} {crash : FileSystem → Prop}
    (hn : n ≤ buf.pendingBytes) :
    (releaseBytes n).Holds crash
      (.returns fun _ t buf' => t = fs ∧ buf' = { buf with pendingBytes := buf.pendingBytes - n })
      fs buf := by
  unfold releaseBytes
  simp only [holds_bind, holds_get, if_pos hn, holds_modify]
  exact ⟨rfl, rfl⟩

namespace Faithful

/-- A buffer that starts at the end of its file. -/
theorem fresh {i : Nat} {written : List UInt8} (hlookup : fs.dir.lookup name = some i)
    (hfile : fs.file? name = some written) (hinitial : written <+: S) :
    Faithful S name fs (SegmentBuf.fresh (some i) name written.length) where
  path := rfl
  file := ⟨i, rfl, hlookup⟩
  content := by rw [hfile, SegmentBuf.fresh, ← List.prefix_iff_eq_take.mp hinitial]
  within := hinitial.length_le
  chunks := nofun
  accounted := Nat.le_refl _

theorem holds_writeBytes (h : Faithful S name fs buf) (hext : Extends S name fs₀ fs)
    (hchunk : IsChunk S buf.nextExpected bytes) :
    (SegmentBuf.writeBytes none bytes).Holds (Extends S name fs₀)
      (.returns fun _ t buf' => Extends S name fs₀ t ∧ Faithful S name t buf' ∧
        buf' = { buf with nextExpected := buf.nextExpected + bytes.length }) fs buf := by
  obtain ⟨i, hfile, hlookup⟩ := h.file
  have hcontent : fs.content i = S.take buf.nextExpected := by
    have hname := h.content
    rw [FileSystem.file?_of_lookup hlookup] at hname
    exact Option.some.inj hname
  have hall : fs.content i ++ bytes = S.take (buf.nextExpected + bytes.length) := by
    rw [hcontent, hchunk.take_append]
  have hinitial : ∀ n, fs.content i ++ bytes.take n <+: S := fun n =>
    ((List.prefix_append_right_inj _).mpr (List.take_prefix n bytes)).trans
      (hall ▸ List.take_prefix _ S)
  unfold SegmentBuf.writeBytes
  simp only [holds_bind, holds_get, hfile, holds_writeAll, holds_modify]
  refine ⟨fun n _ => hext.append hlookup (hinitial n), ?_⟩
  have hwritten := hext.append hlookup (hall ▸ List.take_prefix _ S)
  refine ⟨hwritten, ?_, rfl⟩
  exact {
    path := h.path
    file := ⟨i, rfl, hlookup⟩
    content := by rw [FileSystem.file?_append hlookup, hall]
    within := hchunk.1
    chunks := h.chunks
    accounted := h.accounted }

/-- A waiting chunk is taken out of the map. -/
theorem take_pending {o : Nat} {b : List UInt8} (h : Faithful S name fs buf)
    (hb : buf.pending.lookup o = some b) :
    b.length ≤ buf.pendingBytes ∧
      Faithful S name fs { buf with
        pending := buf.pending.erase o
        pendingBytes := buf.pendingBytes - b.length } ∧
      (buf.pending.erase o).total (fun _ => 1) + 1 = buf.pendingCount := by
  have hbytes := AList.total_erase (w := List.length) hb
  have haccounted := h.accounted
  refine ⟨by omega, ?_, AList.total_erase hb⟩
  exact {
    path := h.path
    file := h.file
    content := h.content
    within := h.within
    chunks := by
      intro o' b' hb'
      exact h.chunks o' b' (AList.lookup_erase_eq_some.mp hb').2
    accounted := by
      show (buf.pending.erase o).total List.length ≤ buf.pendingBytes - b.length
      omega }

/-- A chunk is put into the map. -/
theorem put_pending (h : Faithful S name fs buf) (hchunk : IsChunk S offset bytes) :
    Faithful S name fs { buf with
      pending := buf.pending.insert offset bytes
      pendingBytes := buf.pendingBytes + bytes.length } where
  path := h.path
  file := h.file
  content := h.content
  within := h.within
  chunks o b hb := by
    rcases AList.lookup_insert_eq_some.mp hb with ⟨rfl, rfl⟩ | ⟨-, hold⟩
    · exact hchunk
    · exact h.chunks o b hold
  accounted := by
    have herase := AList.total_erase_le (m := buf.pending) (k := offset) (w := List.length)
    have haccounted := h.accounted
    rw [AList.total_insert]
    show bytes.length + (buf.pending.erase offset).total List.length ≤
      buf.pendingBytes + bytes.length
    omega

/-- **The loop over the waiting chunks** ends, and keeps the buffer faithful. -/
theorem holds_refill (henv : ∀ n, env.writes n = none) (fuel : Nat) : ∀ (n : Nat) (fs : FileSystem)
    (buf : SegmentBuf), Faithful S name fs buf → Extends S name fs₀ fs → buf.pendingCount < fuel →
    (SegmentBuf.refill env fuel n).Holds (Extends S name fs₀)
      (.returns fun _ t buf' => Extends S name fs₀ t ∧ Faithful S name t buf' ∧
        Drains buf.nextExpected buf.pending buf'.nextExpected buf'.pending ∧
        buf'.pendingBytes ≤ buf.pendingBytes) fs buf := by
  induction fuel with
  | zero => intro n fs buf _ _ hfuel; exact absurd hfuel (Nat.not_lt_zero _)
  | succ fuel ih =>
    intro n fs buf h hext hfuel
    unfold SegmentBuf.refill
    simp only [holds_bind, holds_get]
    cases hfirst : buf.pending.first? with
    | none =>
      have hstop : ∀ b, buf.pending.first? ≠ some (buf.nextExpected, b) := by
        intro b hb
        rw [hfirst] at hb
        cases hb
      exact (holds_pure _).mpr ⟨hext, h, Drains.stop hstop, Nat.le_refl _⟩
    | some chunk =>
      obtain ⟨o, b⟩ := chunk
      dsimp only
      by_cases ho : o = buf.nextExpected
      · -- the chunk that continues the file leaves the map, so one fewer waits
        have hlookup := (AList.first?_eq_some.mp hfirst).1
        obtain ⟨hlen, hrest, hcount⟩ := h.take_pending hlookup
        rw [if_pos ho, holds_modify_bind, henv n]
        refine Holds.bind (SegmentBuf.holds_releaseBytes hlen) ?_
        rintro - t buf' ⟨rfl, rfl⟩
        refine (hrest.holds_writeBytes hext (ho ▸ h.chunks o b hlookup)).bind ?_
        rintro - t buf' ⟨hext', h', rfl⟩
        rw [holds_modify_bind]
        refine (ih (n + 1) t _ ?_ hext' ?_).imp_returns ?_
        · exact { h' with }
        · show (buf.pending.erase o).total (fun _ => 1) < fuel
          omega
        · rintro - u buf' ⟨hext'', h'', hdrains, hbytes⟩
          refine ⟨hext'', h'', Drains.next (ho ▸ hfirst) (ho ▸ hdrains), ?_⟩
          exact Nat.le_trans hbytes (Nat.sub_le _ _)
      · have hstop : ∀ b', buf.pending.first? ≠ some (buf.nextExpected, b') := by
          intro b' hb'
          rw [hfirst] at hb'
          exact ho (congrArg Prod.fst (Option.some.inj hb'))
        rw [if_neg ho, holds_pure]
        exact ⟨hext, h, Drains.stop hstop, Nat.le_refl _⟩

/-- **Placing a chunk of the source.** -/
theorem holds_place (h : Faithful S name fs buf) (hext : Extends S name fs₀ fs)
    (henv : ∀ n, env.writes n = none) (hchunk : IsChunk S offset bytes) :
    (SegmentBuf.place env offset bytes).Holds (Extends S name fs₀)
      (.returns fun _ t buf' => Extends S name fs₀ t ∧ Faithful S name t buf' ∧
        Placed buf.nextExpected buf.pending (offset, bytes) buf'.nextExpected buf'.pending ∧
        buf'.pendingBytes ≤ buf.pendingBytes + bytes.length) fs buf := by
  have hmore := Nat.le_add_right buf.pendingBytes bytes.length
  unfold SegmentBuf.place
  simp only [holds_bind, holds_get]
  by_cases hempty : bytes = []
  · rw [if_pos hempty, holds_pure]
    exact ⟨hext, h, Placed.dropped (Or.inl hempty), hmore⟩
  rw [if_neg hempty]
  rcases Nat.lt_trichotomy offset buf.nextExpected with hbefore | hat | hafter
  · simp only [if_pos hbefore, holds_bind, holds_modify, holds_pure]
    exact ⟨hext, { h with }, Placed.dropped (Or.inr hbefore), hmore⟩
  · have hlt : ¬offset < buf.nextExpected := by omega
    have hgt : ¬offset > buf.nextExpected := by omega
    rw [if_neg hlt, if_neg hgt, henv 0]
    refine (h.holds_writeBytes hext (hat ▸ hchunk)).bind ?_
    rintro - t buf' ⟨hext', h', rfl⟩
    rw [holds_modify_bind]
    refine (holds_refill henv _ 1 t _ ?_ hext' (Nat.lt_succ_self _)).bind ?_
    · exact { h' with }
    · rintro - u buf' ⟨hext'', h'', hdrains, hbytes⟩
      exact (holds_pure _).mpr ⟨hext'', h'', Placed.written hat hdrains, Nat.le_trans hbytes hmore⟩
  · have hlt : ¬offset < buf.nextExpected := by omega
    simp only [if_neg hlt, if_pos hafter, holds_bind, holds_modify, holds_pure]
    exact ⟨hext, h.put_pending hchunk, Placed.kept hafter, Nat.le_refl _⟩

end Faithful
end SovProbe
