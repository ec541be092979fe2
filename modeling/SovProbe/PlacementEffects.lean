import SovProbe.PendingEviction
import SovProbe.SegmentWindow
import SovProbe.WalStream

/-! # Placing chunks in any environment

What the operations on a segment do, whichever of their file operations fail and
whatever chunks come.  Two accounts are kept besides the file: `pending_bytes` of the
bytes that wait, and `next_expected` of the bytes written.  The first drifts from what
it counts only when a chunk takes the place of one that waits (`replaced`), the second
only when a write does not reach the file to its end (`reached`).
-/

namespace SovProbe
open Process Reordering

namespace SegmentBuf

/-! ## The bytes that wait -/

/-- Nothing empty waits, and `pending_bytes` counts at least what does. -/
structure Counted (buf : SegmentBuf) : Prop where
  nonempty : ∀ o b, buf.pending.lookup o = some b → b ≠ []
  held : buf.heldBytes ≤ buf.pendingBytes

/-- What `pending_bytes` counts too much. -/
def drift (self : SegmentBuf) : Nat := self.pendingBytes - self.heldBytes

/-- The length of the waiting chunk that one at `offset` replaces. -/
def replaced (self : SegmentBuf) (offset : Nat) (bytes : List UInt8) : Nat :=
  if bytes ≠ [] ∧ self.nextExpected < offset then
    ((self.pending.lookup offset).map List.length).getD 0
  else 0

variable {buf buf' : SegmentBuf} {o offset : Nat} {b bytes : List UInt8}

theorem Counted.fresh (file : Option Nat) (path : FileName) (nextExpected : Nat) :
    (SegmentBuf.fresh file path nextExpected).Counted where
  nonempty := nofun
  held := Nat.le_refl _

theorem drift_fresh (file : Option Nat) (path : FileName) (nextExpected : Nat) :
    (SegmentBuf.fresh file path nextExpected).drift = 0 := rfl

theorem replaced_fresh (file : Option Nat) (path : FileName) (nextExpected : Nat) :
    (SegmentBuf.fresh file path nextExpected).replaced offset bytes = 0 := by
  unfold replaced
  split <;> rfl

/-- A waiting chunk is taken out of the map and of the account. -/
theorem Counted.take (h : buf.Counted) (hb : buf.pending.lookup o = some b) :
    b.length ≤ buf.pendingBytes ∧
      ({ buf with
        pending := buf.pending.erase o
        pendingBytes := buf.pendingBytes - b.length } : SegmentBuf).Counted ∧
      ({ buf with
        pending := buf.pending.erase o
        pendingBytes := buf.pendingBytes - b.length } : SegmentBuf).drift = buf.drift ∧
      (buf.pending.erase o).total (fun _ => 1) + 1 = buf.pendingCount := by
  obtain ⟨hlen, hheld, hdrift, hcount⟩ := covers_take h.held hb
  refine ⟨hlen, ⟨fun o' b' hb' => ?_, hheld⟩, hdrift, hcount⟩
  exact h.nonempty o' b' (AList.lookup_erase_eq_some.mp hb').2

/-- A chunk is put into the map and into the account. -/
theorem Counted.put (h : buf.Counted) (offset : Nat) (hbytes : bytes ≠ []) :
    ({ buf with
        pending := buf.pending.insert offset bytes
        pendingBytes := buf.pendingBytes + bytes.length } : SegmentBuf).Counted ∧
      ({ buf with
        pending := buf.pending.insert offset bytes
        pendingBytes := buf.pendingBytes + bytes.length } : SegmentBuf).drift =
          buf.drift + ((buf.pending.lookup offset).map List.length).getD 0 := by
  have hinsert : (buf.pending.insert offset bytes).total List.length =
      bytes.length + (buf.pending.erase offset).total List.length := AList.total_insert
  have hold : (buf.pending.erase offset).total List.length +
      ((buf.pending.lookup offset).map List.length).getD 0 = buf.heldBytes := by
    cases hlookup : buf.pending.lookup offset with
    | none => rw [AList.erase_of_notMem (AList.lookup_eq_none.mp hlookup)]; rfl
    | some b => exact AList.total_erase hlookup
  have hheld := h.held
  refine ⟨⟨fun o' b' hb' => ?_, ?_⟩, ?_⟩
  · rcases AList.lookup_insert_eq_some.mp hb' with ⟨-, rfl⟩ | ⟨-, hold⟩
    · exact hbytes
    · exact h.nonempty o' b' hold
  · show (buf.pending.insert offset bytes).total List.length ≤ buf.pendingBytes + bytes.length
    omega
  · show buf.pendingBytes + bytes.length - (buf.pending.insert offset bytes).total List.length =
      buf.pendingBytes - buf.heldBytes + _
    omega

/-- Nothing is replaced exactly when a chunk that is to wait finds its place free. -/
theorem Counted.replaced_eq_zero (h : buf.Counted) :
    buf.replaced offset bytes = 0 ↔
      (bytes ≠ [] → buf.nextExpected < offset → buf.pending.lookup offset = none) := by
  unfold replaced
  by_cases hwaits : bytes ≠ [] ∧ buf.nextExpected < offset
  · rw [if_pos hwaits]
    cases hlookup : buf.pending.lookup offset with
    | none => exact iff_of_true rfl fun _ _ => rfl
    | some b =>
      refine iff_of_false (fun hzero => h.nonempty offset b hlookup ?_) fun hfree => ?_
      · exact List.eq_nil_of_length_eq_zero hzero
      · cases hfree hwaits.1 hwaits.2
  · rw [if_neg hwaits]
    exact iff_of_true rfl fun hbytes hafter => absurd ⟨hbytes, hafter⟩ hwaits

/-! ## The bytes that reach the file -/

/-- The waiting chunks that continue the file from `next`. -/
def due : Nat → Nat → (AList fun _ : Nat => List UInt8) → List (List UInt8)
  | 0, _, _ => []
  | fuel + 1, next, pending =>
    match pending.first? with
    | some (o, b) => if o = next then b :: due fuel (next + b.length) (pending.erase o) else []
    | none => []

/-- What a call of `place` writes: the chunk at the end of the file, and those that wait
behind it. -/
def writes (self : SegmentBuf) (offset : Nat) (bytes : List UInt8) : List (List UInt8) :=
  if bytes ≠ [] ∧ offset = self.nextExpected then
    bytes :: due (self.pendingCount + 1) (self.nextExpected + bytes.length) self.pending
  else []

/-- How many bytes of a write reach the file. -/
def reach (file : Option Nat) (fault : Option Nat) (bytes : List UInt8) : Nat :=
  match file, fault with
  | none, _ => 0
  | some _, none => bytes.length
  | some _, some n => min n bytes.length

/-- How many bytes of the writes of a call reach the file, from the write `n` on. -/
def reached (env : Environment) (file : Option Nat) : Nat → List (List UInt8) → Nat
  | _, [] => 0
  | n, b :: bs => reach file (env.writes n) b + reached env file (n + 1) bs

theorem reach_le (file fault : Option Nat) (bytes : List UInt8) :
    reach file fault bytes ≤ bytes.length := by
  unfold reach
  split <;> omega

theorem reached_le (env : Environment) (file : Option Nat) (bs : List (List UInt8)) :
    ∀ n, reached env file n bs ≤ bs.flatten.length := by
  induction bs with
  | nil => intro n; exact Nat.le_refl 0
  | cons b bs ih =>
    intro n
    have hb := reach_le file (env.writes n) b
    have hbs := ih (n + 1)
    rw [reached, List.flatten_cons, List.length_append]
    omega

/-- All of it does exactly when each write reaches it to its end. -/
theorem reached_eq_iff (env : Environment) (file : Option Nat) (bs : List (List UInt8)) :
    ∀ n, reached env file n bs = bs.flatten.length ↔
      ∀ i b, bs[i]? = some b → reach file (env.writes (n + i)) b = b.length := by
  induction bs with
  | nil => intro n; exact iff_of_true rfl fun i b hb => by simp at hb
  | cons b bs ih =>
    intro n
    have hb := reach_le file (env.writes n) b
    have hbs := reached_le env file bs (n + 1)
    rw [reached, List.flatten_cons, List.length_append]
    have hboth : reach file (env.writes n) b + reached env file (n + 1) bs =
        b.length + bs.flatten.length ↔ reach file (env.writes n) b = b.length ∧
          reached env file (n + 1) bs = bs.flatten.length := by omega
    rw [hboth, ih (n + 1)]
    constructor
    · rintro ⟨hhead, htail⟩ i b' hb'
      cases i with
      | zero => rwa [← Option.some.inj hb']
      | succ i =>
        rw [← Nat.add_assoc, Nat.add_right_comm]
        exact htail i b' hb'
    · intro hall
      refine ⟨hall 0 b rfl, fun i b' hb' => ?_⟩
      rw [Nat.add_right_comm, Nat.add_assoc]
      exact hall (i + 1) b' hb'

/-- The buffer writes to the file of this name, if it writes at all. -/
structure Tied (name : FileName) (fs : FileSystem) (buf : SegmentBuf) : Prop where
  path : buf.path = name
  file : ∀ i, buf.file = some i → fs.dir.lookup name = some i

/-- The chunks `bs` have been written, from the write `n` of the call on. -/
structure Wrote (env : Environment) (n : Nat) (bs : List (List UInt8)) (fs t : FileSystem)
    (buf buf' : SegmentBuf) : Prop where
  path : buf'.path = buf.path
  file : buf'.file = buf.file
  nextExpected : buf'.nextExpected = buf.nextExpected + bs.flatten.length
  dir : t.dir = fs.dir
  size : ∀ name, Tied name fs buf →
    fileSize t name = fileSize fs name + reached env buf.file n bs
  others : ∀ name name', Tied name fs buf → name' ≠ name → t.file? name' = fs.file? name'

variable {fs t u : FileSystem} {buf'' : SegmentBuf} {n : Nat} {bs : List (List UInt8)}
  {env : Environment} {name : FileName}

theorem Wrote.tied (h : Wrote env n bs fs t buf buf') (htied : Tied name fs buf) :
    Tied name t buf' where
  path := h.path.trans htied.path
  file i hi := by
    rw [h.dir]
    exact htied.file i (h.file ▸ hi)

/-- Nothing has been written, and the buffer has changed elsewhere. -/
theorem Wrote.nil (hpath : buf'.path = buf.path) (hfile : buf'.file = buf.file)
    (hnext : buf'.nextExpected = buf.nextExpected) : Wrote env n [] fs fs buf buf' where
  path := hpath
  file := hfile
  nextExpected := hnext
  dir := rfl
  size _ _ := rfl
  others _ _ _ _ := rfl

/-- Changes of the buffer that are not about writing. -/
theorem Wrote.congr {buf₁ buf₁' : SegmentBuf} (h : Wrote env n bs fs t buf buf')
    (hpath : buf.path = buf₁.path) (hfile : buf.file = buf₁.file)
    (hnext : buf.nextExpected = buf₁.nextExpected) (hpath' : buf₁'.path = buf'.path)
    (hfile' : buf₁'.file = buf'.file) (hnext' : buf₁'.nextExpected = buf'.nextExpected) :
    Wrote env n bs fs t buf₁ buf₁' where
  path := by rw [hpath', h.path, hpath]
  file := by rw [hfile', h.file, hfile]
  nextExpected := by rw [hnext', h.nextExpected, hnext]
  dir := h.dir
  size name htied := by
    rw [← hfile]
    exact h.size name ⟨hpath.trans htied.path, fun i hi => htied.file i (hfile ▸ hi)⟩
  others name name' htied :=
    h.others name name' ⟨hpath.trans htied.path, fun i hi => htied.file i (hfile ▸ hi)⟩

/-- One write, and then several. -/
theorem Wrote.cons (h : Wrote env n [b] fs t buf buf')
    (hrest : Wrote env (n + 1) bs t u buf' buf'') :
    Wrote env n (b :: bs) fs u buf buf'' where
  path := hrest.path.trans h.path
  file := hrest.file.trans h.file
  nextExpected := by
    rw [hrest.nextExpected, h.nextExpected, List.flatten_cons, List.flatten_cons,
      List.length_append, List.length_append, Nat.add_assoc]
    rfl
  dir := hrest.dir.trans h.dir
  size name htied := by
    rw [hrest.size name (h.tied htied), h.size name htied, h.file, reached, reached, reached,
      Nat.add_zero, Nat.add_assoc]
  others name name' htied hne := by
    rw [hrest.others name name' (h.tied htied) hne, h.others name name' htied hne]

/-! ## The operations -/

/-- **`write_bytes`** counts all bytes, however many of them reach the file. -/
theorem holds_writeBytes (env : Environment) (n : Nat) (b : List UInt8) :
    (writeBytes (env.writes n) b).Holds (fun _ => True)
      (.returns fun _ t buf' => Wrote env n [b] fs t buf buf' ∧
        buf' = { buf with nextExpected := buf.nextExpected + b.length }) fs buf := by
  have hwrote : ∀ t, t.dir = fs.dir →
      (∀ name, Tied name fs buf →
        fileSize t name = fileSize fs name + reach buf.file (env.writes n) b) →
      (∀ name name', Tied name fs buf → name' ≠ name → t.file? name' = fs.file? name') →
      Wrote env n [b] fs t buf { buf with nextExpected := buf.nextExpected + b.length } := by
    intro t hdir hsize hothers
    refine ⟨rfl, rfl, ?_, hdir, fun name htied => ?_, hothers⟩
    · rw [List.flatten_singleton]
    · rw [hsize name htied, reached, reached, Nat.add_zero]
  have happend : ∀ i bytes, buf.file = some i → bytes.length = reach buf.file (env.writes n) b →
      Wrote env n [b] fs (fs.append i bytes) buf
        { buf with nextExpected := buf.nextExpected + b.length } := by
    intro i bytes hi hbytes
    refine hwrote _ rfl (fun name htied => ?_) fun name name' htied hne => ?_
    · rw [fileSize_append (htied.file i hi), hbytes]
    · exact FileSystem.file?_append_ne (htied.file i hi) hne
  unfold writeBytes
  rw [holds_get_bind]
  cases hfile : buf.file with
  | none =>
    refine (holds_modify _).mpr ⟨hwrote fs rfl (fun name _ => ?_) fun _ _ _ _ => rfl, by rw [hfile]⟩
    rw [hfile, reach, Nat.add_zero]
  | some i =>
    cases hfault : env.writes n with
    | none =>
      refine holds_bind.mpr ((holds_writeAll _ _).mpr ⟨fun _ _ => trivial, ?_⟩)
      refine (holds_modify _).mpr ⟨happend i b hfile ?_, by rw [hfile]⟩
      rw [hfile, hfault, reach]
    | some k =>
      refine holds_bind.mpr ((holds_writeAll _ _).mpr ⟨fun _ _ => trivial, ?_⟩)
      refine (holds_modify _).mpr ⟨happend i (b.take k) hfile ?_, by rw [hfile]⟩
      rw [hfile, hfault, reach, List.length_take]

/-- **The loop over the waiting chunks** ends, and writes those that are due. -/
theorem holds_refill (env : Environment) (fuel : Nat) : ∀ (n : Nat) (fs : FileSystem)
    (buf : SegmentBuf), buf.Counted → buf.pendingCount < fuel →
    (refill env fuel n).Holds (fun _ => True)
      (.returns fun _ t buf' =>
        Wrote env n (due fuel buf.nextExpected buf.pending) fs t buf buf' ∧
        Drains buf.nextExpected buf.pending buf'.nextExpected buf'.pending ∧
        buf'.Counted ∧ buf'.drift = buf.drift) fs buf := by
  induction fuel with
  | zero => intro n fs buf _ hfuel; exact absurd hfuel (Nat.not_lt_zero _)
  | succ fuel ih =>
    intro n fs buf h hfuel
    have hidle : (∀ b, buf.pending.first? ≠ some (buf.nextExpected, b)) →
        Wrote env n [] fs fs buf buf ∧
          Drains buf.nextExpected buf.pending buf.nextExpected buf.pending ∧
          buf.Counted ∧ buf.drift = buf.drift :=
      fun hstop => ⟨Wrote.nil rfl rfl rfl, Drains.stop hstop, h, rfl⟩
    unfold refill due
    rw [holds_get_bind]
    cases hfirst : buf.pending.first? with
    | none =>
      refine (holds_pure _).mpr (hidle fun b hb => ?_)
      rw [hfirst] at hb
      cases hb
    | some chunk =>
      obtain ⟨o, b⟩ := chunk
      dsimp only
      by_cases ho : o = buf.nextExpected
      · obtain ⟨hlen, hrest, hdrift, hcount⟩ := h.take (AList.first?_eq_some.mp hfirst).1
        rw [if_pos ho, if_pos ho, holds_modify_bind]
        refine Holds.bind (holds_releaseBytes hlen) ?_
        rintro - t buf' ⟨rfl, rfl⟩
        refine (holds_writeBytes env n b).bind ?_
        rintro - u buf₁ ⟨hwrote, rfl⟩
        refine holds_modify_bind.mpr ?_
        -- one chunk fewer waits
        refine (ih (n + 1) u _ ?_ ?_).imp_returns ?_
        · exact ⟨hrest.nonempty, hrest.held⟩
        · show (buf.pending.erase o).total (fun _ => 1) < fuel
          omega
        · rintro - v buf' ⟨hwrote', hdrains, hcounted, hdrift'⟩
          refine ⟨?_, Drains.next (ho ▸ hfirst) (ho ▸ hdrains), hcounted, hdrift'.trans hdrift⟩
          refine Wrote.cons (hwrote.congr rfl rfl rfl rfl rfl rfl) ?_
          exact hwrote'.congr rfl rfl rfl rfl rfl rfl
      · rw [if_neg ho, if_neg ho]
        refine (holds_pure _).mpr (hidle fun b' hb' => ?_)
        rw [hfirst] at hb'
        exact ho (congrArg Prod.fst (Option.some.inj hb'))

/-- **`place`**, whatever comes and whatever fails. -/
theorem holds_place (env : Environment) (offset : Nat) (bytes : List UInt8) (fs : FileSystem)
    (h : buf.Counted) :
    (place env offset bytes).Holds (fun _ => True)
      (.returns fun _ t buf' => Wrote env 0 (buf.writes offset bytes) fs t buf buf' ∧
        Placed buf.nextExpected buf.pending (offset, bytes) buf'.nextExpected buf'.pending ∧
        buf'.Counted ∧ buf'.drift = buf.drift + buf.replaced offset bytes) fs buf := by
  unfold place
  rw [holds_get_bind]
  by_cases hempty : bytes = []
  · have hwrites : buf.writes offset bytes = [] := if_neg fun h => h.1 hempty
    have hreplaced : buf.replaced offset bytes = 0 := if_neg fun h => h.1 hempty
    rw [if_pos hempty, hwrites, hreplaced]
    exact (holds_pure _).mpr ⟨Wrote.nil rfl rfl rfl, Placed.dropped (Or.inl hempty), h, rfl⟩
  rw [if_neg hempty]
  rcases Nat.lt_trichotomy offset buf.nextExpected with hbefore | hat | hafter
  · have hwrites : buf.writes offset bytes = [] := if_neg fun h => by omega
    have hreplaced : buf.replaced offset bytes = 0 := if_neg fun h => by omega
    rw [if_pos hbefore, holds_modify_bind, hwrites, hreplaced]
    refine (holds_pure _).mpr ⟨Wrote.nil rfl rfl rfl, Placed.dropped (Or.inr hbefore), ?_, rfl⟩
    exact ⟨h.nonempty, h.held⟩
  · have hlt : ¬offset < buf.nextExpected := by omega
    have hgt : ¬offset > buf.nextExpected := by omega
    have hwrites : buf.writes offset bytes = bytes ::
        due (buf.pendingCount + 1) (buf.nextExpected + bytes.length) buf.pending :=
      if_pos ⟨hempty, hat⟩
    have hreplaced : buf.replaced offset bytes = 0 := if_neg fun h => by omega
    rw [if_neg hlt, if_neg hgt, hwrites, hreplaced]
    refine (holds_writeBytes env 0 bytes).bind ?_
    rintro - t buf₁ ⟨hwrote, rfl⟩
    refine holds_modify_bind.mpr ?_
    refine (holds_refill env (buf.pendingCount + 1) 1 t _ ?_ ?_).bind ?_
    · exact ⟨h.nonempty, h.held⟩
    · exact Nat.lt_succ_self buf.pendingCount
    · rintro - u buf' ⟨hwrote', hdrains, hcounted, hdrift⟩
      refine (holds_pure _).mpr ⟨?_, Placed.written hat hdrains, hcounted, hdrift⟩
      exact Wrote.cons hwrote (hwrote'.congr rfl rfl rfl rfl rfl rfl)
  · have hlt : ¬offset < buf.nextExpected := by omega
    have hwrites : buf.writes offset bytes = [] := if_neg fun h => by omega
    have hreplaced : buf.replaced offset bytes =
        ((buf.pending.lookup offset).map List.length).getD 0 := if_pos ⟨hempty, hafter⟩
    obtain ⟨hcounted, hdrift⟩ := h.put offset hempty
    rw [if_neg hlt, if_pos hafter, holds_modify_bind, hwrites, hreplaced]
    exact (holds_pure _).mpr ⟨Wrote.nil rfl rfl rfl, Placed.kept hafter, hcounted, hdrift⟩

/-- **`on_seal`** compares the size with the bytes counted, and touches no file. -/
theorem holds_onSeal (crc32 : List UInt8 → UInt32) (sealedSize : Nat) (fs : FileSystem)
    (buf : SegmentBuf) :
    (onSeal crc32 sealedSize).Holds (fun _ => True)
      (.returns fun missing t buf' => t = fs ∧ missing = sealedSize - buf.nextExpected ∧
        ∃ records residual, buf' = { buf with
          sealed := true
          missingOnSeal := sealedSize - buf.nextExpected
          records := records
          residual := residual }) fs buf := by
  unfold onSeal countRecords
  simp only [holds_bind, holds_get, holds_modify, holds_read]
  cases fs.file? buf.path with
  | none => exact (holds_pure _).mpr ((holds_pure _).mpr ⟨rfl, rfl, buf.records, buf.residual, rfl⟩)
  | some written =>
    simp only [WalRecord.decodeStream_eq]
    exact (holds_modify _).mpr ((holds_pure _).mpr ⟨rfl, rfl, _, _, rfl⟩)

/-- **Opening**: the buffer goes on from the end of the file, or from 0 if it cannot be
opened. -/
theorem holds_openBuf {ρ : Type} (env : Environment) (devId seq : UInt32) (fs : FileSystem)
    (m : ρ) :
    (openBuf env devId seq).Holds (fun _ => True)
      (.returns fun buf t m' => m' = m ∧ ∃ file,
        buf = fresh file (segPath devId seq)
          (if env.opens then fileSize fs (segPath devId seq) else 0) ∧
        Tied (segPath devId seq) t buf ∧
        fileSize t (segPath devId seq) = fileSize fs (segPath devId seq)) fs m := by
  by_cases hopens : env.opens = true
  · refine (SovProbe.holds_openBuf rfl hopens fun _ _ => trivial).imp_returns ?_
    rintro buf t m' ⟨rfl, hopened, i, hlookup, rfl⟩
    refine ⟨rfl, some i, ?_, ⟨rfl, ?_⟩, ?_⟩
    · rw [if_pos hopens, fileSize]
    · rintro j ⟨⟩
      exact hlookup
    · rw [fileSize, hopened.file, Option.getD_some, fileSize]
  · unfold openBuf
    rw [if_neg hopens]
    refine (holds_pure _).mpr ⟨rfl, none, ?_, ⟨rfl, fun i hi => ?_⟩, rfl⟩
    · rw [if_neg hopens]
    · cases hi

/-- What a seal leaves alone in a buffer. -/
def data (self : SegmentBuf) :
    Option Nat × FileName × Nat × (AList fun _ : Nat => List UInt8) × Nat :=
  (self.file, self.path, self.nextExpected, self.pending, self.pendingBytes)

/-- What is kept of a segment in memory: the water mark, and the waiting chunks with their
account. -/
def content (self : SegmentBuf) : Nat × (Nat → Option (List UInt8)) × Nat :=
  (self.nextExpected, fun o => self.pending.lookup o, self.pendingBytes)

theorem content_congr (hdata : buf'.data = buf.data) : buf'.content = buf.content := by
  simp only [data, Prod.mk.injEq] at hdata
  obtain ⟨-, -, hnext, hpending, hbytes⟩ := hdata
  rw [content, content, hnext, hpending, hbytes]

theorem Counted.congr (h : buf.Counted) (hdata : buf'.data = buf.data) : buf'.Counted := by
  simp only [data, Prod.mk.injEq] at hdata
  obtain ⟨-, -, -, hpending, hbytes⟩ := hdata
  refine ⟨fun o b hb => h.nonempty o b (hpending ▸ hb), ?_⟩
  rw [heldBytes, hpending, hbytes]
  exact h.held

theorem drift_congr (hdata : buf'.data = buf.data) : buf'.drift = buf.drift := by
  simp only [data, Prod.mk.injEq] at hdata
  obtain ⟨-, -, -, hpending, hbytes⟩ := hdata
  rw [drift, drift, heldBytes, heldBytes, hpending, hbytes]

end SegmentBuf

/-! ## Seals -/

namespace Reassembler
variable {r r' : Reassembler} {key : SegmentKey} {buf : SegmentBuf} {fs : FileSystem}

/-- How much of a segment has been written in one piece from its beginning: nothing if it
has no buffer. -/
def contiguous (self : Reassembler) (key : SegmentKey) : Nat :=
  ((self.segments.lookup key).map SegmentBuf.nextExpected).getD 0

/-- The request a seal of this size leads to. -/
def gapRequest (self : Reassembler) (key : SegmentKey) (sealedSize : Nat) : Option GapQuery :=
  if 0 < self.contiguous key ∧ self.contiguous key < sealedSize then
    some { devId := key.1, segmentSeq := key.2, startOffset := self.contiguous key }
  else none

/-- The buffers differ only by what a seal counts. -/
def SameData (r r' : Reassembler) : Prop :=
  ∀ key, (r'.segments.lookup key).map SegmentBuf.data = (r.segments.lookup key).map SegmentBuf.data

theorem SameData.lookup (h : SameData r r') (hlookup : r'.segments.lookup key = some buf) :
    ∃ buf₀, r.segments.lookup key = some buf₀ ∧ buf.data = buf₀.data := by
  have hkey := h key
  rw [hlookup, Option.map_some] at hkey
  obtain ⟨buf₀, hbuf₀, hdata⟩ := Option.map_eq_some_iff.mp hkey.symm
  exact ⟨buf₀, hbuf₀, hdata.symm⟩

/-- The segments have the same buffers, as far as water marks and waiting chunks go. -/
def SameContent (r r' : Reassembler) : Prop :=
  ∀ key, (r'.segments.lookup key).map SegmentBuf.content =
    (r.segments.lookup key).map SegmentBuf.content

theorem SameContent.lookup (h : SameContent r r') (hlookup : r.segments.lookup key = some buf) :
    ∃ buf', r'.segments.lookup key = some buf' ∧ buf'.content = buf.content := by
  have hkey := h key
  rw [hlookup, Option.map_some] at hkey
  exact Option.map_eq_some_iff.mp hkey

theorem SameContent.symm (h : SameContent r r') : SameContent r' r := fun key => (h key).symm

theorem SameData.content (h : SameData r r') : SameContent r r' := by
  intro key
  cases hlookup : r'.segments.lookup key with
  | none =>
    have hkey := h key
    rw [hlookup] at hkey
    rw [Option.map_eq_none_iff.mp hkey.symm]
  | some buf =>
    obtain ⟨buf₀, hlookup₀, hdata⟩ := h.lookup hlookup
    rw [hlookup₀, Option.map_some, Option.map_some, SegmentBuf.content_congr hdata]

/-- **`on_seal_frame`** asks for what is missing behind a beginning that is there, and
changes neither a file nor what a buffer holds. -/
theorem holds_onSealFrame (crc32 : List UInt8 → UInt32) (key : SegmentKey) (sealedSize : Nat)
    (fs : FileSystem) (r : Reassembler) :
    (onSealFrame crc32 key.1 key.2 sealedSize).Holds (fun _ => True)
      (.returns fun request t r' => t = fs ∧ request = r.gapRequest key sealedSize ∧
        SameData r r') fs r := by
  unfold onSealFrame
  rw [holds_modify_bind, holds_get_bind]
  cases hlookup : r.segments.lookup key with
  | none =>
    have hnone : r.gapRequest key sealedSize = none := by
      rw [gapRequest, contiguous, hlookup]
      exact if_neg fun h => absurd h.1 (Nat.lt_irrefl 0)
    exact (holds_pure _).mpr ⟨rfl, hnone.symm, fun _ => rfl⟩
  | some buf =>
    have hprefix : r.contiguous key = buf.nextExpected := by
      rw [contiguous, hlookup]
      rfl
    refine Holds.bind (holds_onSegment hlookup
      (SegmentBuf.holds_onSeal crc32 sealedSize fs buf)) ?_
    rintro missing t r' ⟨buf', ⟨rfl, rfl, records, residual, rfl⟩, rfl⟩
    -- only the counters differ between the ways it can end
    have hend : ∀ r' : Reassembler, r'.segments = r.segments.insert key { buf with
        sealed := true
        missingOnSeal := sealedSize - buf.nextExpected
        records := records
        residual := residual } → SameData r r' := by
      intro r' hsegments key'
      rw [hsegments]
      by_cases hkey : key' = key
      · rw [hkey, AList.lookup_insert, hlookup]
        rfl
      · rw [AList.lookup_insert_ne hkey]
    rw [gapRequest, hprefix]
    by_cases hmissing : sealedSize - buf.nextExpected > 0
    · rw [if_pos hmissing, holds_modify_bind]
      by_cases hnext : buf.nextExpected > 0
      · rw [if_pos hnext, if_pos (by omega)]
        exact (holds_pure _).mpr ⟨rfl, rfl, hend _ rfl⟩
      · rw [if_neg hnext, if_neg (by omega)]
        exact (holds_pure _).mpr ⟨rfl, rfl, hend _ rfl⟩
    · rw [if_neg hmissing, if_neg (by omega)]
      exact (holds_pure _).mpr ⟨rfl, rfl, hend _ rfl⟩

end Reassembler
end SovProbe
