import SovProbe.MemoryBound

/-! # Chunks that change nothing

A chunk leaves all segments as they were if it is dropped by a buffer that is there, being
empty or covered, or if it is put with the waiting chunks and is the one that is evicted at
once (`Harmless`).  Any other chunk can be told from the segments afterwards: it opens a
buffer, moves a water mark, changes an account, or costs another chunk its place.

A harmless chunk has no effect on what comes later either.  It leaves a receiver that is the
same but for counters and for the order in which the map lists the segments (`Alike`), and
two such receivers make the same of a chunk of the same segment.
-/

namespace SovProbe
open Process Reordering

/-- No segment's file, water mark or waiting chunks have changed. -/
structure SameSegments (s t : FileSystem × Reassembler) : Prop where
  file : ∀ key, t.1.file? (segmentName key) = s.1.file? (segmentName key)
  content : Reassembler.SameContent s.2 t.2

namespace Reassembler
variable {env : Environment} {fs t : FileSystem} {r r' u : Reassembler} {key : SegmentKey}
  {buf buf' : SegmentBuf} {offset n : Nat} {bytes : List UInt8} {rs : List Reassembler}

/-- A chunk at `offset` of the segment comes before all waiting ones in the order in which
they are evicted. -/
def FirstOut (self : Reassembler) (position : SegmentKey → Nat) (key : SegmentKey)
    (offset : Nat) : Prop :=
  ∀ key' buf, self.segments.lookup key' = some buf → ∀ o ∈ buf.pending,
    offset < o ∨ offset = o ∧ key' ≠ key ∧ position key ≤ position key'

/-- The chunk is dropped, or evicted as soon as it waits. -/
def Harmless (self : Reassembler) (position : SegmentKey → Nat) (key : SegmentKey)
    (offset : Nat) (bytes : List UInt8) : Prop :=
  ∃ buf, self.segments.lookup key = some buf ∧
    (bytes = [] ∨ offset < buf.nextExpected ∨
      buf.nextExpected < offset ∧ self.FirstOut position key offset ∧
        pendingBudget < self.pendingTotal + bytes.length)

/-! ## Receivers that are alike -/

/-- The buffer has dropped `d` chunks more. -/
def bump (d : Nat) (buf : SegmentBuf) : SegmentBuf := { buf with dupDropped := buf.dupDropped + d }

/-- The receivers differ by nothing but counters, and by where they list a segment. -/
structure Alike (key : SegmentKey) (r r' : Reassembler) : Prop where
  others : r'.segments.erase key = r.segments.erase key
  buffer : ∃ d, r'.segments.lookup key = (r.segments.lookup key).map (bump d)

theorem Alike.refl (key : SegmentKey) (r : Reassembler) : Alike key r r where
  others := rfl
  buffer := ⟨0, Option.map_id'.symm⟩

theorem Alike.trans (h : Alike key r u) (h' : Alike key u r') : Alike key r r' where
  others := h'.others.trans h.others
  buffer := by
    obtain ⟨d, hd⟩ := h.buffer
    obtain ⟨d', hd'⟩ := h'.buffer
    refine ⟨d + d', ?_⟩
    rw [hd', hd, Option.map_map]
    refine congrArg (Option.map · _) (funext fun buf => ?_)
    simp only [bump, Function.comp_apply, Nat.add_assoc]

theorem Alike.sameContent (h : Alike key r r') : SameContent r r' := by
  intro key'
  by_cases hkey : key' = key
  · obtain ⟨d, hd⟩ := h.buffer
    rw [hkey, hd, Option.map_map]
    rfl
  · rw [← AList.lookup_erase_ne hkey, h.others, AList.lookup_erase_ne hkey]

/-! ## What the eviction loop does -/

/-- Where the loop has nothing to do, it does nothing. -/
theorem Within.evictOnce (h : r.Within) (hover : r.pendingTotal > pendingBudget)
    (position : SegmentKey → Nat) : r.evictOnce position = none := by
  rcases h with hbudget | hidle
  · exact absurd hover (Nat.not_lt.mpr hbudget)
  · refine Option.eq_none_iff_forall_ne_some.mpr fun u hu => ?_
    obtain ⟨key, buf, o, b, -, hlookup, hfirst, -⟩ := evictOnce_eq_some.mp hu
    rw [hidle key buf hlookup] at hfirst
    cases hfirst

theorem Within.evicts (h : r.Within) (hevicts : Evicts env n r rs r')
    (hover : ∀ u ∈ rs, u.pendingTotal > pendingBudget) : r' = r := by
  cases hevicts with
  | stop => rfl
  | evict hevict _ =>
    rw [h.evictOnce (hover r List.mem_cons_self)] at hevict
    cases hevict

/-- Every buffer is still there, with its water mark and no chunk more. -/
def Keeps (r r' : Reassembler) : Prop :=
  ∀ key buf, r.segments.lookup key = some buf → ∃ buf', r'.segments.lookup key = some buf' ∧
    buf'.nextExpected = buf.nextExpected ∧
    ∀ o b, buf'.pending.lookup o = some b → buf.pending.lookup o = some b

theorem Keeps.refl (r : Reassembler) : Keeps r r :=
  fun _ buf hlookup => ⟨buf, hlookup, rfl, fun _ _ h => h⟩

theorem Keeps.trans (h : Keeps r u) (h' : Keeps u r') : Keeps r r' := by
  intro key buf hlookup
  obtain ⟨buf₁, hlookup₁, hnext₁, hpending₁⟩ := h key buf hlookup
  obtain ⟨buf₂, hlookup₂, hnext₂, hpending₂⟩ := h' key buf₁ hlookup₁
  exact ⟨buf₂, hlookup₂, hnext₂.trans hnext₁, fun o b hb => hpending₁ o b (hpending₂ o b hb)⟩

theorem Keeps.evictOnce {position : SegmentKey → Nat} (h : r.evictOnce position = some u) :
    Keeps r u := by
  obtain ⟨key, buf, o, b, -, hlookup, -, rfl⟩ := evictOnce_eq_some.mp h
  intro key' buf' hlookup'
  by_cases hkey : key' = key
  · subst hkey
    obtain rfl := Option.some.inj (hlookup.symm.trans hlookup')
    refine ⟨_, AList.lookup_insert _, rfl, fun o' b' hb' => ?_⟩
    exact (AList.lookup_erase_eq_some.mp hb').2
  · exact ⟨buf', (AList.lookup_insert_ne hkey).trans hlookup', rfl, fun _ _ h => h⟩

theorem Evicts.keeps (h : Evicts env n r rs r') : Keeps r r' := by
  have hstep : ∀ position u v, Keeps r u → u.evictOnce position = some v → Keeps r v :=
    fun _ _ _ hu hevict => hu.trans (Keeps.evictOnce hevict)
  exact (h.invariant hstep (Keeps.refl r)).1

/-- What the loop evicts first is lost. -/
theorem Evicts.lost {position : SegmentKey → Nat} {o : Nat} {b : List UInt8}
    (hvictim : r.victim position = some key) (hlookup : r.segments.lookup key = some buf)
    (hfirst : buf.pending.first? = some (o, b)) (hevict : r.evictOnce position = some u)
    (h : Evicts env n u rs r') :
    ∃ buf', r'.segments.lookup key = some buf' ∧ buf'.pending.lookup o = none := by
  obtain ⟨key', buf₁, o₁, b₁, hvictim₁, hlookup₁, hfirst₁, rfl⟩ := evictOnce_eq_some.mp hevict
  obtain rfl := Option.some.inj (hvictim₁.symm.trans hvictim)
  obtain rfl := Option.some.inj (hlookup₁.symm.trans hlookup)
  obtain ⟨rfl, rfl⟩ := Prod.mk.inj (Option.some.inj (hfirst₁.symm.trans hfirst))
  obtain ⟨buf', hbuf', -, hpending⟩ := h.keeps key' _ (AList.lookup_insert _)
  refine ⟨buf', hbuf', Option.eq_none_iff_forall_ne_some.mpr fun b hb => ?_⟩
  exact (AList.lookup_erase_eq_some.mp (hpending _ b hb)).1 rfl

/-! ## Placing a chunk -/

/-- The state in which the eviction loop starts. -/
def put (self : Reassembler) (key : SegmentKey) (buf : SegmentBuf) (bytes : List UInt8) :
    Reassembler :=
  { self with
    totalBytes := self.totalBytes + bytes.length
    segments := self.segments.insert key buf }

theorem Counted.put (h : r.Counted) (hbuf : buf.Counted) : (r.put key buf bytes).Counted :=
  h.insert hbuf

/-- The buffer of the segment is found or opened, and nothing else is put into the map. -/
def Enters (env : Environment) (key : SegmentKey) (fs : FileSystem) (r : Reassembler)
    (t : FileSystem) (buf : SegmentBuf) : Prop :=
  (entry env key.1 key.2).Holds (fun _ => True)
    (.returns fun b t' r' => b = buf ∧ t' = t ∧ r'.segments.lookup key = some buf ∧
      ∀ buf', { r' with segments := r'.segments.insert key buf' } =
        { r with segments := r.segments.insert key buf' }) fs r

theorem enters_of_lookup (hlookup : r.segments.lookup key = some buf) :
    Enters env key fs r fs buf := by
  refine SovProbe.holds_entry (fun b hb => ?_) fun hnone => ?_
  · exact ⟨Option.some.inj (hb.symm.trans hlookup), rfl, hlookup, fun _ => rfl⟩
  · rw [hlookup] at hnone
    cases hnone

theorem enters_of_none (hlookup : r.segments.lookup key = none)
    (hopen : ∀ m : Reassembler,
      (SegmentBuf.openBuf env key.1 key.2 fs m).outcome = .done buf t m) :
    Enters env key fs r t buf := by
  refine SovProbe.holds_entry (fun b hb => ?_) fun _ => ?_
  · rw [hlookup] at hb
    cases hb
  · refine (holds_of_done (hopen _)).imp_returns ?_
    rintro buf t r ⟨rfl, rfl, rfl⟩
    refine ⟨rfl, rfl, AList.lookup_insert _, fun buf' => ?_⟩
    exact congrArg (fun segments => { r with segments }) (AList.insert_insert _)

/-- **`place_raw`**: the chunk is placed in the buffer of its segment, and the loop runs. -/
theorem Counted.holds_placeRaw_of_enters {P : FileSystem → SegmentBuf → Prop} (h : r.Counted)
    (henters : Enters env key fs { r with totalBytes := r.totalBytes + bytes.length } t buf)
    (hplace : (SegmentBuf.place env offset bytes).Holds (fun _ => True)
      (.returns fun _ t buf' => P t buf' ∧ buf'.Counted) t buf) :
    (placeRaw env key.1 key.2 offset bytes).Holds (fun _ => True)
      (.returns fun _ t r' => r'.Within ∧ ∃ buf' rs, P t buf' ∧ buf'.Counted ∧
        Evicts env 0 (r.put key buf' bytes) rs r' ∧ ∀ u ∈ rs, u.pendingTotal > pendingBudget)
      fs r := by
  unfold placeRaw
  rw [holds_modify_bind]
  refine Holds.bind henters ?_
  rintro buf t r₁ ⟨rfl, rfl, hlookup, hput⟩
  refine Holds.bind (holds_onSegment hlookup hplace) ?_
  rintro - t _ ⟨buf', ⟨hP, hbuf'⟩, rfl⟩
  rw [hput, holds_get_bind]
  have hcounted : (r.put key buf' bytes).Counted := h.put hbuf'
  refine (holds_enforcePendingBudget env t _ 0 _ hcounted.covers
    (Nat.lt_succ_self _)).imp_returns ?_
  rintro - t r' ⟨rfl, hwithin, rs, hevicts, hover⟩
  exact ⟨hwithin, buf', rs, hP, hbuf', hevicts, hover⟩

/-! ## Harmless chunks -/

/-- A buffer is put back. -/
theorem Alike.put (hlookup : r.segments.lookup key = some buf) (d : Nat) :
    Alike key r (r.put key (bump d buf) bytes) where
  others := AList.erase_insert_self
  buffer := ⟨d, by rw [hlookup]; exact AList.lookup_insert _⟩

theorem holds_place_dropped (h : bytes = [] ∨ offset < buf.nextExpected) :
    (SegmentBuf.place env offset bytes).Holds (fun _ => True)
      (.returns fun _ t buf' => t = fs ∧ ∃ d, buf' = bump d buf) fs buf := by
  unfold SegmentBuf.place
  rw [holds_get_bind]
  by_cases hempty : bytes = []
  · rw [if_pos hempty]
    exact (holds_pure _).mpr ⟨rfl, 0, rfl⟩
  · rw [if_neg hempty, if_pos (h.resolve_left hempty), holds_modify_bind]
    exact (holds_pure _).mpr ⟨rfl, 1, rfl⟩

theorem holds_place_kept (hbytes : bytes ≠ []) (hafter : buf.nextExpected < offset) :
    (SegmentBuf.place env offset bytes).Holds (fun _ => True)
      (.returns fun _ t buf' => t = fs ∧ buf' = { buf with
        pending := buf.pending.insert offset bytes
        pendingBytes := buf.pendingBytes + bytes.length }) fs buf := by
  unfold SegmentBuf.place
  rw [holds_get_bind, if_neg hbytes, if_neg (Nat.not_lt.mpr (Nat.le_of_lt hafter)), if_pos hafter,
    holds_modify_bind]
  exact (holds_pure _).mpr ⟨rfl, rfl⟩

theorem holds_place_put (h : buf.Counted) (hbytes : bytes ≠ [])
    (hafter : buf.nextExpected < offset) :
    (SegmentBuf.place env offset bytes).Holds (fun _ => True)
      (.returns fun _ t buf' => (t = fs ∧ buf' = { buf with
        pending := buf.pending.insert offset bytes
        pendingBytes := buf.pendingBytes + bytes.length }) ∧ buf'.Counted) fs buf := by
  refine (holds_place_kept hbytes hafter).imp_returns ?_
  rintro - t _ ⟨rfl, rfl⟩
  exact ⟨⟨rfl, rfl⟩, (h.put offset hbytes).1⟩

/-- The waiting bytes with a chunk that is put with them. -/
theorem pendingTotal_put (hlookup : r.segments.lookup key = some buf) (offset : Nat) :
    (r.put key { buf with
      pending := buf.pending.insert offset bytes
      pendingBytes := buf.pendingBytes + bytes.length } bytes).pendingTotal =
        r.pendingTotal + bytes.length := by
  have hothers := AList.total_erase (w := SegmentBuf.pendingBytes) hlookup
  have hinsert : (r.put key { buf with
      pending := buf.pending.insert offset bytes
      pendingBytes := buf.pendingBytes + bytes.length } bytes).pendingTotal =
        buf.pendingBytes + bytes.length + (r.segments.erase key).total SegmentBuf.pendingBytes :=
    AList.total_insert
  have htotal : r.pendingTotal = r.segments.total SegmentBuf.pendingBytes := rfl
  omega

/-- A chunk that comes before all others is the one that is evicted. -/
theorem FirstOut.evictOnce {position : SegmentKey → Nat} (h : r.FirstOut position key offset)
    (hlookup : r.segments.lookup key = some buf) (bytes : List UInt8) :
    ∃ u, (r.put key { buf with
        pending := buf.pending.insert offset bytes
        pendingBytes := buf.pendingBytes + bytes.length } bytes).evictOnce position = some u ∧
      Alike key r u := by
  have hown : ∀ o ∈ buf.pending, offset < o := by
    intro o ho
    rcases h key buf hlookup o ho with hlt | ⟨-, hne, -⟩
    · exact hlt
    · exact absurd rfl hne
  have hfree : offset ∉ buf.pending := fun hmem => Nat.lt_irrefl _ (hown offset hmem)
  have hfirst : (buf.pending.insert offset bytes).first? = some (offset, bytes) := by
    refine AList.first?_eq_some.mpr ⟨AList.lookup_insert _, fun o ho => ?_⟩
    rcases (AList.mem_insert _).mp ho with rfl | hmem
    · exact Nat.le_refl _
    · exact Nat.le_of_lt (hown o hmem)
  have hvictim : (r.put key { buf with
      pending := buf.pending.insert offset bytes
      pendingBytes := buf.pendingBytes + bytes.length } bytes).victim position = some key := by
    refine (victim_insert_iff (r := { r with totalBytes := r.totalBytes + bytes.length })
      hfirst).mpr fun key' buf' hkey hlookup' o ho => ?_
    rcases h key' buf' hlookup' o ho with hlt | ⟨heq, -, hposition⟩
    · exact Or.inl hlt
    · exact Or.inr ⟨heq, hposition⟩
  refine ⟨_, evictOnce_eq_some.mpr ⟨key, _, offset, bytes, hvictim, AList.lookup_insert _, hfirst,
    rfl⟩, ?_, 0, ?_⟩
  · exact AList.erase_insert_self.trans AList.erase_insert_self
  · have hpending : (buf.pending.insert offset bytes).erase offset = buf.pending :=
      AList.erase_insert_self.trans (AList.erase_of_notMem hfree)
    refine (AList.lookup_insert _).trans ?_
    rw [hlookup, hpending, Nat.add_sub_cancel]
    rfl

/-- **A harmless chunk** leaves a receiver that is alike. -/
theorem Harmless.holds_placeRaw (h : r.Counted) (hwithin : r.Within)
    (hharmless : r.Harmless (env.position 0) key offset bytes) :
    (placeRaw env key.1 key.2 offset bytes).Holds (fun _ => True)
      (.returns fun _ t r' => t = fs ∧ Alike key r r') fs r := by
  obtain ⟨buf, hlookup, hcases⟩ := hharmless
  have hbuf := h key buf hlookup
  by_cases hdropped : bytes = [] ∨ offset < buf.nextExpected
  · have hplace : (SegmentBuf.place env offset bytes).Holds (fun _ => True)
        (.returns fun _ t buf' => (t = fs ∧ ∃ d, buf' = bump d buf) ∧ buf'.Counted) fs buf := by
      refine (holds_place_dropped hdropped).imp_returns ?_
      rintro - t _ ⟨rfl, d, rfl⟩
      exact ⟨⟨rfl, d, rfl⟩, hbuf.nonempty, hbuf.held⟩
    refine (h.holds_placeRaw_of_enters (enters_of_lookup hlookup) hplace).imp_returns ?_
    rintro - t r' ⟨-, _, rs, ⟨rfl, d, rfl⟩, -, hevicts, hover⟩
    have halike : Alike key r (r.put key (bump d buf) bytes) := Alike.put hlookup d
    exact ⟨rfl, (hwithin.sameContent halike.sameContent).evicts hevicts hover ▸ halike⟩
  · obtain ⟨hbytes, hnot⟩ := not_or.mp hdropped
    obtain ⟨hafter, hfirst, hbudget⟩ := (hcases.resolve_left hbytes).resolve_left hnot
    refine (h.holds_placeRaw_of_enters (enters_of_lookup hlookup)
      (holds_place_put hbuf hbytes hafter)).imp_returns ?_
    rintro - t r' ⟨hwithin', _, rs, ⟨rfl, rfl⟩, -, hevicts, hover⟩
    obtain ⟨u, hu, halike⟩ := hfirst.evictOnce hlookup bytes
    cases hevicts with
    | stop =>
      -- too much would wait
      rw [hwithin'.evictOnce (by rw [pendingTotal_put hlookup]; exact hbudget)] at hu
      cases hu
    | evict hevict hrest =>
      obtain rfl := Option.some.inj (hevict.symm.trans hu)
      have hstop := (hwithin.sameContent halike.sameContent).evicts hrest fun v hv =>
        hover v (List.mem_cons_of_mem _ hv)
      exact ⟨rfl, hstop ▸ halike⟩

/-! ## All other chunks -/

/-- Opening a buffer does not depend on the memory. -/
theorem commutes_openBuf (f : Reassembler → Reassembler) (env : Environment) (devId seq : UInt32) :
    Commutes f (SegmentBuf.openBuf env devId seq) := by
  have hopen : ∀ name, Commutes f (openAppend name) := by
    intro name
    refine Commutes.bind (Commutes.read _) fun found => ?_
    cases found with
    | some i => exact Commutes.pure i
    | none => exact Commutes.bind (Commutes.read _) fun i =>
        Commutes.bind (Commutes.write _) fun _ => Commutes.pure i
  unfold SegmentBuf.openBuf
  split
  · exact Commutes.bind (hopen _) fun i => Commutes.bind (Commutes.read _) fun _ => Commutes.pure _
  · exact Commutes.pure _

theorem openBuf_outcome (env : Environment) (key : SegmentKey) (fs : FileSystem) :
    ∃ buf t, buf.Counted ∧ ∀ m : Reassembler,
      (SegmentBuf.openBuf env key.1 key.2 fs m).outcome = .done buf t m := by
  obtain ⟨buf, t, _, hdone, -, file, hfresh, -⟩ :=
    (SegmentBuf.holds_openBuf env key.1 key.2 fs Reassembler.new).returned
  refine ⟨buf, t, hfresh ▸ SegmentBuf.Counted.fresh _ _ _, fun m => ?_⟩
  refine (commutes_openBuf (fun _ => m) env key.1 key.2 fs Reassembler.new).trans ?_
  rw [hdone]
  rfl

/-- A chunk that is put with the waiting ones either stays there, or costs the first of them
its place. -/
theorem firstOut_of_same (hlookup : r.segments.lookup key = some buf)
    (hbytes : bytes ≠ [])
    (hevicts : Evicts env 0 (r.put key { buf with
      pending := buf.pending.insert offset bytes
      pendingBytes := buf.pendingBytes + bytes.length } bytes) rs r')
    (hover : ∀ u ∈ rs, u.pendingTotal > pendingBudget) (hsame : SameContent r r') :
    r.FirstOut (env.position 0) key offset ∧ pendingBudget < r.pendingTotal + bytes.length := by
  have hwaits : (buf.pending.insert offset bytes).lookup offset = some bytes :=
    AList.lookup_insert _
  cases hevicts with
  | stop =>
    obtain ⟨buf', hlookup', hcontent⟩ := hsame.lookup hlookup
    obtain rfl := Option.some.inj ((AList.lookup_insert _).symm.trans hlookup')
    have haccount : buf.pendingBytes + bytes.length = buf.pendingBytes :=
      congrArg (fun c => c.2.2) hcontent
    have hpos := List.length_pos_iff.mpr hbytes
    omega
  | @evict _ _ u _ rs hevict hrest =>
    have htotal := hover _ List.mem_cons_self
    rw [pendingTotal_put hlookup] at htotal
    refine ⟨?_, htotal⟩
    obtain ⟨key', buf₁, o, b, hvictim, hlookup₁, hfirst, -⟩ := evictOnce_eq_some.mp hevict
    obtain ⟨buf', hbuf', hlost⟩ := Evicts.lost hvictim hlookup₁ hfirst hevict hrest
    -- what waited before still waits
    have hnone : ∀ buf₀, r.segments.lookup key' = some buf₀ → buf₀.pending.lookup o = none := by
      intro buf₀ hlookup₀
      obtain ⟨buf'', hbuf'', hcontent⟩ := hsame.lookup hlookup₀
      obtain rfl := Option.some.inj (hbuf'.symm.trans hbuf'')
      have hpending : buf'.pending.lookup o = buf₀.pending.lookup o :=
        congrFun (congrArg (fun c => c.2.1) hcontent) o
      rw [← hpending, hlost]
    have hkey : key' = key := by
      by_contra hkey
      have hothers : r.segments.lookup key' = some buf₁ :=
        (AList.lookup_insert_ne hkey).symm.trans hlookup₁
      have hchunk := (AList.first?_eq_some.mp hfirst).1
      rw [hnone buf₁ hothers] at hchunk
      cases hchunk
    subst hkey
    obtain rfl := Option.some.inj ((AList.lookup_insert _).symm.trans hlookup₁)
    have hfree := hnone buf hlookup
    obtain ⟨hchunk, hleast⟩ := AList.first?_eq_some.mp hfirst
    have ho : o = offset := by
      by_contra ho
      rw [AList.lookup_insert_ne ho, hfree] at hchunk
      cases hchunk
    subst ho
    intro key'' buf'' hlookup'' o'' ho''
    by_cases hkey : key'' = key'
    · subst hkey
      obtain rfl := Option.some.inj (hlookup.symm.trans hlookup'')
      refine Or.inl (Nat.lt_of_le_of_ne (hleast o'' ((AList.mem_insert _).mpr (Or.inr ho''))) ?_)
      rintro rfl
      exact AList.lookup_eq_none.mp hfree ho''
    · rcases (victim_insert_iff (r := { r with totalBytes := r.totalBytes + bytes.length })
        hfirst).mp hvictim key'' buf'' hkey hlookup'' o'' ho'' with hlt | ⟨heq, hposition⟩
      · exact Or.inl hlt
      · exact Or.inr ⟨heq, hkey, hposition⟩

/-- **A chunk that changes nothing** is harmless. -/
theorem harmless_of_same (h : r.Counted) :
    (placeRaw env key.1 key.2 offset bytes).Holds (fun _ => True)
      (.returns fun _ _ r' => r'.Counted ∧ r'.Within ∧
        (SameContent r r' → r.Harmless (env.position 0) key offset bytes)) fs r := by
  cases hlookup : r.segments.lookup key with
  | none =>
    -- the map gets a buffer it did not have
    obtain ⟨buf, t, hbuf, hopen⟩ := openBuf_outcome env key fs
    have hplace : (SegmentBuf.place env offset bytes).Holds (fun _ => True)
        (.returns fun _ _ buf' => True ∧ buf'.Counted) t buf :=
      (SegmentBuf.holds_place env offset bytes t hbuf).imp_returns fun _ _ _ h =>
        ⟨trivial, h.2.2.1⟩
    refine (h.holds_placeRaw_of_enters (enters_of_none hlookup hopen) hplace).imp_returns ?_
    rintro - t r' ⟨hwithin, buf', rs, -, hbuf', hevicts, -⟩
    refine ⟨((h.put hbuf').evicts hevicts).1.1, hwithin, fun hsame => ?_⟩
    obtain ⟨buf'', hlookup', -⟩ := hevicts.keeps key buf' (AList.lookup_insert _)
    have hkey := hsame key
    rw [hlookup, hlookup'] at hkey
    cases hkey
  | some buf =>
    have hbuf := h key buf hlookup
    by_cases hbytes : bytes ≠ [] ∧ buf.nextExpected < offset
    · -- it waits
      obtain ⟨hbytes, hafter⟩ := hbytes
      refine (h.holds_placeRaw_of_enters (enters_of_lookup hlookup)
        (holds_place_put hbuf hbytes hafter)).imp_returns ?_
      rintro - t r' ⟨hwithin, _, rs, ⟨rfl, rfl⟩, hbuf', hevicts, hover⟩
      refine ⟨((h.put hbuf').evicts hevicts).1.1, hwithin, fun hsame => ⟨buf, hlookup, ?_⟩⟩
      exact Or.inr (Or.inr ⟨hafter, firstOut_of_same hlookup hbytes hevicts hover hsame⟩)
    · -- it is dropped, or moves the mark, which no eviction moves back
      refine (h.holds_placeRaw_of_enters (enters_of_lookup hlookup) ((SegmentBuf.holds_place env
        offset bytes fs hbuf).imp_returns fun _ _ _ h => ⟨h.2.1, h.2.2.1⟩)).imp_returns ?_
      rintro - t r' ⟨hwithin, buf', rs, hplaced, hbuf', hevicts, -⟩
      refine ⟨((h.put hbuf').evicts hevicts).1.1, hwithin, fun hsame => ⟨buf, hlookup, ?_⟩⟩
      obtain ⟨buf₁, hlookup₁, hnext, -⟩ := hevicts.keeps key buf' (AList.lookup_insert _)
      obtain ⟨buf₂, hlookup₂, hcontent⟩ := hsame.lookup hlookup
      obtain rfl := Option.some.inj (hlookup₁.symm.trans hlookup₂)
      have hmark : buf₁.nextExpected = buf.nextExpected := congrArg Prod.fst hcontent
      rcases hplaced.of_mark_eq (hnext.symm.trans hmark) with hempty | hnotAt
      · exact Or.inl hempty
      · by_cases hempty : bytes = []
        · exact Or.inl hempty
        · have hnotAfter : ¬ buf.nextExpected < offset := fun hafter => hbytes ⟨hempty, hafter⟩
          exact Or.inr (Or.inl (Nat.lt_of_le_of_ne (Nat.not_lt.mp hnotAfter) hnotAt))

/-- **`place_raw`** leaves all segments as they were if and only if the chunk is harmless, and
then the receiver is alike. -/
theorem Counted.placeRaw_changes (h : r.Counted) (hwithin : r.Within) (env : Environment)
    (key : SegmentKey) (offset : Nat) (bytes : List UInt8) (fs : FileSystem) :
    ∃ t r', (placeRaw env key.1 key.2 offset bytes fs r).outcome = .done () t r' ∧
      r'.Counted ∧ r'.Within ∧
      (SameSegments (fs, r) (t, r') ↔ r.Harmless (env.position 0) key offset bytes) ∧
      (r.Harmless (env.position 0) key offset bytes → t = fs ∧ Alike key r r') := by
  have hchanges : (placeRaw env key.1 key.2 offset bytes).Holds (fun _ => True) _ fs r :=
    harmless_of_same h
  obtain ⟨_, t, r', hdone, hcounted, hwithin', hsame⟩ := hchanges.returned
  have halike : r.Harmless (env.position 0) key offset bytes → t = fs ∧ Alike key r r' :=
    fun hharmless => (hharmless.holds_placeRaw h hwithin).done hdone
  refine ⟨t, r', hdone, hcounted, hwithin', ⟨fun hall => hsame hall.content, fun hharmless => ?_⟩,
    halike⟩
  obtain ⟨rfl, hr'⟩ := halike hharmless
  exact ⟨fun _ => rfl, hr'.sameContent⟩

/-! ## The same chunk for receivers that are alike -/

theorem commutes_writeBytes (d : Nat) (fault : Option Nat) (bytes : List UInt8) :
    Commutes (bump d) (SegmentBuf.writeBytes fault bytes) := by
  refine Commutes.get_bind (fun _ => rfl) fun buf => ?_
  have hcount : Commutes (bump d) (modify fun self : SegmentBuf =>
      { self with nextExpected := self.nextExpected + bytes.length } :
        Process FileSystem SegmentBuf Unit) := Commutes.modify fun _ => rfl
  cases buf.file with
  | none => exact hcount
  | some f =>
    cases fault with
    | none => exact Commutes.bind (Commutes.writeSteps _ _) fun _ => hcount
    | some n => exact Commutes.bind (Commutes.writeSteps _ _) fun _ => hcount

theorem commutes_releaseBytes (d n : Nat) : Commutes (bump d) (SegmentBuf.releaseBytes n) := by
  refine Commutes.get_bind (fun _ => rfl) fun buf => ?_
  by_cases hle : n ≤ buf.pendingBytes
  · rw [if_pos hle]
    exact Commutes.modify fun _ => rfl
  · rw [if_neg hle]
    exact Commutes.fail

theorem commutes_refill (d : Nat) (env : Environment) (fuel : Nat) :
    ∀ n, Commutes (bump d) (SegmentBuf.refill env fuel n) := by
  induction fuel with
  | zero => exact fun _ => Commutes.stuck
  | succ fuel ih =>
    intro n
    refine Commutes.get_bind (fun _ => rfl) fun buf => ?_
    cases buf.pending.first? with
    | none => exact Commutes.pure ()
    | some chunk =>
      dsimp only
      by_cases ho : chunk.1 = buf.nextExpected
      · rw [if_pos ho]
        refine Commutes.bind (Commutes.modify fun _ => rfl) fun _ => ?_
        refine Commutes.bind (commutes_releaseBytes d _) fun _ => ?_
        refine Commutes.bind (commutes_writeBytes d _ _) fun _ => ?_
        exact Commutes.bind (Commutes.modify fun _ => rfl) fun _ => ih (n + 1)
      · rw [if_neg ho]
        exact Commutes.pure ()

/-- **`place`** does not look at the number of dropped chunks. -/
theorem commutes_place (d : Nat) (env : Environment) (offset : Nat) (bytes : List UInt8) :
    Commutes (bump d) (SegmentBuf.place env offset bytes) := by
  refine Commutes.get_bind (fun _ => rfl) fun buf => ?_
  by_cases hempty : bytes = []
  · rw [if_pos hempty]
    exact Commutes.pure false
  rw [if_neg hempty]
  rcases Nat.lt_trichotomy offset buf.nextExpected with hbefore | hat | hafter
  · rw [if_pos hbefore]
    refine Commutes.bind (Commutes.modify fun buf => ?_) fun _ => Commutes.pure false
    exact congrArg (fun n => { buf with dupDropped := n }) (Nat.add_right_comm _ _ _)
  · rw [if_neg (Nat.not_lt.mpr (Nat.le_of_eq hat.symm)), if_neg (Nat.not_lt.mpr (Nat.le_of_eq hat))]
    refine Commutes.bind (commutes_writeBytes d _ _) fun _ => ?_
    refine Commutes.bind (Commutes.modify fun _ => rfl) fun _ => ?_
    exact Commutes.bind (commutes_refill d env _ 1) fun _ => Commutes.pure true
  · rw [if_neg (Nat.not_lt.mpr (Nat.le_of_lt hafter)), if_pos hafter]
    exact Commutes.bind (Commutes.modify fun _ => rfl) fun _ => Commutes.pure true

/-- The receivers differ by nothing but counters. -/
def Twin (key : SegmentKey) (r r' : Reassembler) : Prop :=
  ∃ d, r'.segments = r.segments.adjust key (bump d)

theorem Twin.alike (h : Twin key r r') : Alike key r r' := by
  obtain ⟨d, hd⟩ := h
  refine ⟨?_, d, ?_⟩
  · rw [hd, AList.erase_adjust]
    exact AList.adjust_of_notMem fun hk => (AList.mem_erase.mp hk).1 rfl
  · rw [hd, AList.lookup_adjust]
    simp only [if_true]

/-- A placed chunk puts the segment in the same place of both lists. -/
theorem Alike.twin_put (h : Alike key r r') (d : Nat) (buf : SegmentBuf) :
    Twin key (r.put key buf bytes) (r'.put key (bump d buf) bytes) := by
  refine ⟨d, ?_⟩
  show r'.segments.insert key (bump d buf) = (r.segments.insert key buf).adjust key (bump d)
  rw [AList.adjust_insert_self]
  refine AList.ext ?_
  rw [AList.entries_insert, AList.entries_insert]
  exact congrArg (_ :: ·) (congrArg AList.entries h.others)

/-- The iteration comes to the same chunks. -/
theorem Twin.waiting (h : Twin key r r') (position : SegmentKey → Nat) :
    r'.waiting position = r.waiting position := by
  obtain ⟨d, hd⟩ := h
  unfold Reassembler.waiting
  rw [hd, AList.entries_adjust, ← List.map_mergeSort (r := fun a b =>
    decide (position a.1 ≤ position b.1)) (fun _ _ _ _ => rfl), List.filterMap_map]
  refine List.filterMap_congr fun e _ => ?_
  simp only [Function.comp_apply]
  split <;> rfl

/-- The same chunk is evicted. -/
theorem Twin.evictOnce {position : SegmentKey → Nat} (h : Twin key r r')
    (hevict : r.evictOnce position = some u) :
    ∃ u', r'.evictOnce position = some u' ∧ Twin key u u' := by
  obtain ⟨victim, buf, o, b, hvictim, hlookup, hfirst, rfl⟩ := evictOnce_eq_some.mp hevict
  have hvictim' : r'.victim position = some victim := by
    rwa [Reassembler.victim, h.waiting]
  obtain ⟨d, hd⟩ := h
  have hlookup' : r'.segments.lookup victim = some (if victim = key then bump d buf else buf) := by
    rw [hd, AList.lookup_adjust, hlookup]
    rfl
  by_cases hkey : victim = key
  · rw [if_pos hkey] at hlookup'
    refine ⟨_, evictOnce_eq_some.mpr ⟨victim, _, o, b, hvictim', hlookup', hfirst, rfl⟩, d, ?_⟩
    show r'.segments.insert victim _ = (r.segments.insert victim _).adjust key (bump d)
    rw [hd, hkey, AList.insert_adjust, AList.adjust_insert_self]
    rfl
  · rw [if_neg hkey] at hlookup'
    refine ⟨_, evictOnce_eq_some.mpr ⟨victim, _, o, b, hvictim', hlookup', hfirst, rfl⟩, d, ?_⟩
    show r'.segments.insert victim _ = (r.segments.insert victim _).adjust key (bump d)
    rw [hd, AList.adjust_insert_of_ne hkey]

theorem Twin.evicts (h : Twin key r r') {rs' : List Reassembler} {u' : Reassembler}
    (hevicts : Evicts env n r rs u) (hover : ∀ v ∈ rs, v.pendingTotal > pendingBudget)
    (hwithin : u.Within) (hevicts' : Evicts env n r' rs' u')
    (hover' : ∀ v ∈ rs', v.pendingTotal > pendingBudget) (hwithin' : u'.Within) :
    Twin key u u' := by
  induction hevicts generalizing r' rs' with
  | stop =>
    rw [(hwithin.sameContent h.alike.sameContent).evicts hevicts' hover']
    exact h
  | @evict n r v u rs hevict hrest ih =>
    obtain ⟨v', hv', htwin⟩ := h.evictOnce hevict
    cases hevicts' with
    | stop =>
      have htotal := hover r List.mem_cons_self
      rw [← h.alike.sameContent.pendingTotal] at htotal
      rw [hwithin'.evictOnce htotal] at hv'
      cases hv'
    | evict hevict' hrest' =>
      obtain rfl := Option.some.inj (hevict'.symm.trans hv')
      exact ih htwin (fun w hw => hover w (List.mem_cons_of_mem _ hw)) hwithin hrest' fun w hw =>
        hover' w (List.mem_cons_of_mem _ hw)

/-- `place_raw` puts in the buffer, and the eviction loop goes on from there. -/
def PutsIn (env : Environment) (key : SegmentKey) (offset : Nat) (bytes : List UInt8)
    (fs : FileSystem) (r : Reassembler) (t : FileSystem) (buf : SegmentBuf) : Prop :=
  (placeRaw env key.1 key.2 offset bytes).Holds (fun _ => True)
    (.returns fun _ t' u => t' = t ∧ u.Within ∧ ∃ rs, Evicts env 0 (r.put key buf bytes) rs u ∧
      ∀ v ∈ rs, v.pendingTotal > pendingBudget) fs r

theorem Counted.putsIn_of_enters {a : Bool} {t₀ : FileSystem} (h : r.Counted)
    (henters : Enters env key fs { r with totalBytes := r.totalBytes + bytes.length } t₀ buf)
    (hbuf' : buf'.Counted)
    (hplace : (SegmentBuf.place env offset bytes t₀ buf).outcome = .done a t buf') :
    PutsIn env key offset bytes fs r t buf' := by
  have hexact := (holds_of_done hplace).imp_returns fun _ t' b ht =>
    (⟨⟨ht.2.1, ht.2.2⟩, ht.2.2 ▸ hbuf'⟩ : (t' = t ∧ b = buf') ∧ b.Counted)
  refine (h.holds_placeRaw_of_enters henters hexact).imp_returns ?_
  rintro - t r' ⟨hwithin, _, rs, ⟨rfl, rfl⟩, -, hevicts, hover⟩
  exact ⟨rfl, hwithin, rs, hevicts, hover⟩

theorem Alike.of_putsIn {d : Nat} (h : Alike key r r')
    (hputs : PutsIn env key offset bytes fs r t buf)
    (hputs' : PutsIn env key offset bytes fs r' t (bump d buf)) :
    ∃ t u u', (placeRaw env key.1 key.2 offset bytes fs r).outcome = .done () t u ∧
      (placeRaw env key.1 key.2 offset bytes fs r').outcome = .done () t u' ∧ Alike key u u' := by
  obtain ⟨_, _, u, hu, rfl, hwithin, rs, hevicts, hover⟩ := hputs.returned
  obtain ⟨_, _, u', hu', rfl, hwithin', rs', hevicts', hover'⟩ := hputs'.returned
  exact ⟨_, u, u', hu, hu',
    ((h.twin_put d buf).evicts hevicts hover hwithin hevicts' hover' hwithin').alike⟩

/-- **The same chunk** leaves receivers that are alike alike. -/
theorem Alike.after_placeRaw (h : Alike key r r') (hr : r.Counted) (hr' : r'.Counted)
    (env : Environment) (offset : Nat) (bytes : List UInt8) (fs : FileSystem) :
    ∃ t u u', (placeRaw env key.1 key.2 offset bytes fs r).outcome = .done () t u ∧
      (placeRaw env key.1 key.2 offset bytes fs r').outcome = .done () t u' ∧ Alike key u u' := by
  obtain ⟨d, hd⟩ := h.buffer
  cases hlookup : r.segments.lookup key with
  | none =>
    have hlookup' : r'.segments.lookup key = none := by rw [hd, hlookup]; rfl
    obtain ⟨buf, t₀, hbuf, hopen⟩ := openBuf_outcome env key fs
    obtain ⟨a, t, buf', hplace, -, -, hbuf', -⟩ :=
      (SegmentBuf.holds_place env offset bytes t₀ hbuf).returned
    exact h.of_putsIn (d := 0) (hr.putsIn_of_enters (enters_of_none hlookup hopen) hbuf' hplace)
      (hr'.putsIn_of_enters (enters_of_none hlookup' hopen) hbuf' hplace)
  | some buf =>
    have hlookup' : r'.segments.lookup key = some (bump d buf) := by rw [hd, hlookup]; rfl
    obtain ⟨a, t, buf', hplace, -, -, hbuf', -⟩ :=
      (SegmentBuf.holds_place env offset bytes fs (hr key buf hlookup)).returned
    have hplace' : (SegmentBuf.place env offset bytes fs (bump d buf)).outcome =
        .done a t (bump d buf') := by
      rw [commutes_place, hplace]
      rfl
    exact h.of_putsIn (hr.putsIn_of_enters (enters_of_lookup hlookup) hbuf' hplace)
      (hr'.putsIn_of_enters (enters_of_lookup hlookup') ⟨hbuf'.nonempty, hbuf'.held⟩ hplace')

end Reassembler
end SovProbe
