import SovProbe.ReadCursor

/-! # What the read cursor promises

The segments up to the read cursor are consumed or evicted, so that a consumer that
starts from it skips nothing.  In a directory in order, one call of `next_segment`
breaks this in one of two ways: without a ledger it states its own number, which is
that of a segment nobody has read yet; and when it evicts, it states the number after
the last one evicted, which is that of a segment still there, unless the numbering has
a gap there.
-/

namespace SovProbe
open Process

/-- Every segment still there, up to the cursor in the ledger, has been marked as read. -/
def CursorSound (s : Ledgered) : Prop :=
  ∀ c, ledgerCursor s.fs = some c → ∀ no ∈ numbers (segments s.fs), no ≤ c.toNat →
    ∃ n ∈ s.marked, no ≤ n.toNat

/-- A call that evicts nothing finds a ledger; and if the oldest of the newest
`max_segments` numbers follows directly on another one, it has been marked as read. -/
def ReadAhead (s : Ledgered) : LedgerOp → Prop
  | .nextSegment =>
    ((numbers (s.rotator.candidates s.fs)).card ≤ s.rotator.maxSegments →
        (ledgerCursor s.fs).isSome) ∧
      ∀ no ∈ numbers (s.rotator.candidates s.fs), no + 1 ∈ numbers (s.rotator.candidates s.fs) →
        ((numbers (s.rotator.candidates s.fs)).filter (no + 1 ≤ ·)).card = s.rotator.maxSegments →
          ∃ n ∈ s.marked, no + 1 ≤ n.toNat
  | _ => True

/-- The numbers of the segments, as `scan_existing` reads them off the names. -/
def scannedNumbers (S : Finset FileName) : Finset Nat :=
  (S.image fun name => ((segmentNo name).getD 0).toNat).filter (segPath · ∈ S)

theorem scannedNumbers_eq (S : Finset FileName) : scannedNumbers S = numbers S := by
  ext no
  rw [scannedNumbers, mem_numbers, Finset.mem_filter, Finset.mem_image]
  constructor
  · rintro ⟨⟨name, -, rfl⟩, hno⟩
    exact ⟨hno, UInt64.toNat_lt _⟩
  · rintro ⟨hno, hlt⟩
    refine ⟨⟨segPath no, hno, ?_⟩, hno⟩
    rw [segmentNo_segPath hlt, Option.getD_some, UInt64.toNat_ofNat', Nat.mod_eq_of_lt hlt]

instance (s : Ledgered) (op : LedgerOp) : Decidable (ReadAhead s op) :=
  match op with
  | .nextSegment =>
    decidable_of_iff
      (((scannedNumbers (s.rotator.candidates s.fs)).card ≤ s.rotator.maxSegments →
          (ledgerCursor s.fs).isSome) ∧
        ∀ no ∈ scannedNumbers (s.rotator.candidates s.fs),
          no + 1 ∈ scannedNumbers (s.rotator.candidates s.fs) →
          ((scannedNumbers (s.rotator.candidates s.fs)).filter (no + 1 ≤ ·)).card =
              s.rotator.maxSegments →
            s.marked.any (no + 1 ≤ ·.toNat) = true) (by
      simp only [scannedNumbers_eq, List.any_eq_true, decide_eq_true_eq]
      exact Iff.rfl)
  | .markRead _ | .restart => isTrue trivial

/-- There is a number after the one a call of `next_segment` takes. -/
def Numbered (s : Ledgered) : LedgerOp → Prop
  | .nextSegment => s.rotator.segNo.toNat + 1 < 2 ^ 64
  | _ => True

instance (s : Ledgered) (op : LedgerOp) : Decidable (Numbered s op) :=
  match op with
  | .nextSegment => inferInstanceAs (Decidable (s.rotator.segNo.toNat + 1 < 2 ^ 64))
  | .markRead _ | .restart => isTrue trivial

/-- What holds in every state: the numbering is intact, and a cursor is at or below a
segment that is there or a value marked as read. -/
structure LedgerInv (maxSegments : Nat) (s : Ledgered) : Prop where
  intact : Intact s.fs s.rotator
  max_eq : s.rotator.maxSegments = maxSegments
  unmarked : ledgerCursor s.fs = none → s.marked = []
  covered : ∀ c, ledgerCursor s.fs = some c →
    (∃ no ∈ numbers (segments s.fs), c.toNat ≤ no) ∨ ∃ n ∈ s.marked, c.toNat ≤ n.toNat

variable {maxSegments fuel k : Nat} {s s' : Ledgered} {op : LedgerOp} {t : FileSystem}

/-- Above a larger number there are fewer. -/
theorem card_above_lt {C : Finset Nat} {no m : Nat} (hno : no ∈ C) (hlt : no < m) :
    (C.filter (m ≤ ·)).card < (C.filter (no ≤ ·)).card := by
  have hsubset : C.filter (m ≤ ·) ⊆ C.filter (no ≤ ·) :=
    Finset.monotone_filter_right _ fun x _ hx => Nat.le_trans (Nat.le_of_lt hlt) hx
  apply Finset.card_lt_card
  apply (Finset.ssubset_iff_of_subset hsubset).mpr
  refine ⟨no, Finset.mem_filter.mpr ⟨hno, Nat.le_refl _⟩, fun hmem => ?_⟩
  exact absurd (Finset.mem_filter.mp hmem).2 (Nat.not_le.mpr hlt)

/-! ## A call of `next_segment` -/

/-- The state after a call that returns. -/
structure Called (s : Ledgered) (k : Nat) (s' : Ledgered) : Prop where
  swept : Swept (s.rotator.made s.fs) s.rotator.advanced k s'.fs
  stop : (sweep (s.rotator.candidates s.fs) s.rotator.minNo.toNat k).card ≤ s.rotator.maxSegments
  rotator : s'.rotator = { s.rotator.advanced with minNo := s.rotator.minNo + UInt64.ofNat k }
  marked : s'.marked = s.marked
  cursor : ledgerCursor s'.fs = some (cursorAfter s.fs s.rotator s'.rotator)

/-- In a directory in order every call returns. -/
theorem ledgerStep_nextSegment (h : Intact s.fs s.rotator) (hfuel : 2 ^ 64 < fuel) :
    ∃ k s', ledgerStep maxSegments fuel s .nextSegment = some s' ∧ Called s k s' := by
  have hspec := holds_nextSegment fuel s.fs s.rotator
  have hshows : (Rotator.nextSegment fuel).Shows (fun _ _ => True) published
      (fun o t r' _ => o.isSome →
        t.file? ledgerPath = some (ledgerLine s.rotator.segNo (cursorAfter s.fs s.rotator r')))
      (published s.fs) s.fs s.rotator := by
    refine (shows_nextSegment (fun _ => trivial) fuel s.fs s.rotator (fun _ => nofun)
      fun _ t r' hline _ => hline).mpr ?_
    exact fun _ _ _ _ _ _ => trivial
  cases hout : (Rotator.nextSegment fuel s.fs s.rotator).outcome with
  | running => exact absurd hout (h.ends hfuel)
  | failed t r' => exact absurd (hspec.failed hout).1 h.wanted_notMem
  | done name t r' =>
    obtain ⟨-, -, k, ht, hstop, hr'⟩ := hspec.done hout
    obtain ⟨-, hline⟩ := hshows.done hout
    refine ⟨k, ⟨t, r', s.marked⟩, ledgerStep_eq_some.mpr ⟨?_, (List.append_nil _).symm⟩, ht, hstop,
      hr', rfl, ?_⟩
    · exact bind_outcome (attempt_done hout)
    · rw [ledgerCursor, hline rfl, Option.bind_some, cursorOf_ledgerLine]

section
variable (hinv : LedgerInv maxSegments s) (hmax : 1 ≤ maxSegments)
  (hroom : s.rotator.segNo.toNat + 1 < 2 ^ 64) (hcalled : Called s k s')
include hinv hmax hcalled

/-- What is left. -/
theorem Called.numbers_eq :
    s.rotator.minNo.toNat + k ≤ s.rotator.segNo.toNat ∧
      numbers (segments s'.fs) = (numbers (s.rotator.candidates s.fs)).filter
        (s.rotator.minNo.toNat + k ≤ ·) := by
  obtain ⟨-, hle, hmem⟩ := hinv.intact.swept (hinv.max_eq ▸ hmax) hcalled.swept
  refine ⟨hle, ?_⟩
  ext no
  rw [hmem no, Finset.mem_filter]

theorem Called.minNo_eq : s'.rotator.minNo.toNat = s.rotator.minNo.toNat + k := by
  have hle := (hcalled.numbers_eq hinv hmax).1
  have hlt := s.rotator.segNo.toNat_lt
  rw [hcalled.rotator, UInt64.toNat_add, UInt64.toNat_ofNat', Nat.mod_eq_of_lt (by omega),
    Nat.mod_eq_of_lt (by omega)]

include hroom in
/-- The invariant after a call. -/
theorem Called.ledgerInv : LedgerInv maxSegments s' := by
  have hwanted := hinv.intact.wanted_mem_swept (hinv.max_eq ▸ hmax) hcalled.swept
  refine ⟨?_, ?_, fun hnone => ?_, fun c hc => ?_⟩
  · rw [hcalled.rotator]
    exact hinv.intact.of_swept (hinv.max_eq ▸ hmax) hroom hcalled.swept
  · rw [hcalled.rotator]
    exact hinv.max_eq
  · rw [hcalled.cursor] at hnone
    cases hnone
  · rw [hcalled.cursor] at hc
    obtain rfl := Option.some.inj hc
    rw [hcalled.marked]
    unfold cursorAfter
    by_cases hfull : (s.rotator.candidates s.fs).card ≤ s.rotator.maxSegments
    · rw [if_pos hfull]
      cases hcursor : ledgerCursor s.fs with
      | none => exact Or.inl ⟨_, hwanted, Nat.le_refl _⟩
      | some c =>
        rcases hinv.covered c hcursor with ⟨no, hno, hle⟩ | hmarked
        · have hlt := (hinv.intact.within no hno).2
          exact Or.inl ⟨_, hwanted, Nat.le_of_lt (Nat.lt_of_le_of_lt hle hlt)⟩
        · exact Or.inr hmarked
    · rw [if_neg hfull, hcalled.minNo_eq hinv hmax]
      exact Or.inl ⟨_, hwanted, (hcalled.numbers_eq hinv hmax).1⟩

/-- A call that evicts nothing keeps the promise if it finds a ledger. -/
theorem Called.sound_iff_of_room (hsound : CursorSound s)
    (hfull : (s.rotator.candidates s.fs).card ≤ s.rotator.maxSegments) :
    CursorSound s' ↔ (ledgerCursor s.fs).isSome := by
  have hk : k = 0 := by
    by_contra hne
    have hfirst := hcalled.swept.first (Nat.pos_of_ne_zero hne)
    rw [sweep_zero] at hfirst
    omega
  obtain ⟨-, hnumbers⟩ := hcalled.numbers_eq hinv hmax
  have hwanted := hinv.intact.wanted_mem_swept (hinv.max_eq ▸ hmax) hcalled.swept
  have hcursor := hcalled.cursor
  rw [cursorAfter, if_pos hfull] at hcursor
  constructor
  · intro hsound'
    by_contra hnone
    rw [Option.not_isSome_iff_eq_none] at hnone
    rw [hnone, Option.getD_none] at hcursor
    obtain ⟨n, hn, -⟩ := hsound' _ hcursor _ hwanted (Nat.le_refl _)
    rw [hcalled.marked, hinv.unmarked hnone] at hn
    cases hn
  · intro hsome
    obtain ⟨c, hc⟩ := Option.isSome_iff_exists.mp hsome
    rw [hc, Option.getD_some] at hcursor
    intro c' hc' no hno hle
    obtain rfl : c = c' := Option.some.inj (hcursor.symm.trans hc')
    rw [hcalled.marked]
    rw [hnumbers, Finset.mem_filter, numbers_candidates, Finset.mem_insert] at hno
    rcases hno.1 with rfl | hold
    · rcases hinv.covered c hc with ⟨no, hno, hle'⟩ | ⟨n, hn, hle'⟩
      · have hlt := (hinv.intact.within no hno).2
        omega
      · exact ⟨n, hn, Nat.le_trans hle hle'⟩
    · exact hsound c hc no hold hle

/-- After an eviction the cursor is the number after the last one evicted. -/
theorem Called.sound_iff_of_full
    (hfull : s.rotator.maxSegments < (s.rotator.candidates s.fs).card) :
    CursorSound s' ↔ (s.rotator.minNo.toNat + k ∈ numbers (s.rotator.candidates s.fs) →
      ∃ n ∈ s.marked, s.rotator.minNo.toNat + k ≤ n.toNat) := by
  obtain ⟨-, hnumbers⟩ := hcalled.numbers_eq hinv hmax
  have hminNo := hcalled.minNo_eq hinv hmax
  have hcursor := hcalled.cursor
  rw [cursorAfter, if_neg (Nat.not_le.mpr hfull)] at hcursor
  unfold CursorSound
  rw [hcalled.marked, hnumbers]
  constructor
  · intro hsound hmem
    exact hsound _ hcursor _ (Finset.mem_filter.mpr ⟨hmem, Nat.le_refl _⟩)
      (Nat.le_of_eq hminNo.symm)
  · intro hmarked c hc no hno hle
    obtain rfl := Option.some.inj (hcursor.symm.trans hc)
    obtain ⟨hC, hge⟩ := Finset.mem_filter.mp hno
    obtain rfl : no = s.rotator.minNo.toNat + k := by omega
    exact hmarked hC

/-- The last number evicted, and how many are left. -/
theorem Called.last_evicted
    (hfull : s.rotator.maxSegments < (s.rotator.candidates s.fs).card) :
    ∃ no ∈ numbers (s.rotator.candidates s.fs), no + 1 = s.rotator.minNo.toNat + k ∧
      ((numbers (s.rotator.candidates s.fs)).filter (no + 1 ≤ ·)).card = s.rotator.maxSegments := by
  obtain ⟨hle, hnumbers⟩ := hcalled.numbers_eq hinv hmax
  have hlt := s.rotator.segNo.toNat_lt
  have hstop := hcalled.stop
  cases k with
  | zero =>
    rw [sweep_zero] at hstop
    omega
  | succ k =>
    have hlast := hcalled.swept.first (Nat.lt_succ_self k)
    have hremoved : segPath ((s.rotator.minNo.toNat + k) % 2 ^ 64) ∈
        sweep (s.rotator.candidates s.fs) s.rotator.minNo.toNat k := by
      by_contra hnot
      rw [sweep_succ, Finset.erase_eq_of_notMem hnot] at hstop
      omega
    rw [Nat.mod_eq_of_lt (by omega)] at hremoved
    refine ⟨s.rotator.minNo.toNat + k, mem_numbers.mpr ⟨(mem_sweep.mp hremoved).1, by omega⟩, rfl,
      ?_⟩
    have hcard := card_sweep_of_first (fun _ hj => hcalled.swept.first hj) hcalled.stop hfull
    have hforeign := (hinv.intact.swept (hinv.max_eq ▸ hmax) hcalled.swept).1
    rw [← hcalled.swept.segments_swept, card_eq_numbers_add_foreign, hforeign, Finset.card_empty,
      hnumbers] at hcard
    exact hcard

/-- **A call keeps the promise** exactly if it reads ahead. -/
theorem Called.sound_iff (hsound : CursorSound s) : CursorSound s' ↔ ReadAhead s .nextSegment := by
  have hcard := card_eq_numbers_add_foreign (s.rotator.candidates s.fs)
  rw [hinv.intact.foreign_eq, Finset.card_empty, Nat.add_zero] at hcard
  unfold ReadAhead
  rw [← hcard]
  by_cases hfull : (s.rotator.candidates s.fs).card ≤ s.rotator.maxSegments
  · rw [hcalled.sound_iff_of_room hinv hmax hsound hfull]
    refine ⟨fun hsome => ⟨fun _ => hsome, fun no hno _ hmany => ?_⟩, fun h => h.1 hfull⟩
    -- the numbers above `no` are fewer than all
    have hfewer := card_above_lt hno (Nat.lt_add_one no)
    have hall := Finset.card_filter_le (numbers (s.rotator.candidates s.fs)) (no ≤ ·)
    omega
  · have hover := Nat.not_le.mp hfull
    obtain ⟨last, hlast, heq, hleft⟩ := hcalled.last_evicted hinv hmax hover
    rw [hcalled.sound_iff_of_full hinv hmax hover, ← heq]
    constructor
    · intro hmarked
      refine ⟨fun hle => absurd hle hfull, fun no hno hnext hmany => ?_⟩
      -- two numbers with equally many above them are one
      rcases Nat.lt_trichotomy no last with hlt | rfl | hlt
      · have hfewer := card_above_lt hnext (Nat.add_lt_add_right hlt 1)
        omega
      · exact hmarked hnext
      · have hfewer := card_above_lt hno (Nat.lt_add_one no)
        have hmore : ((numbers (s.rotator.candidates s.fs)).filter (no ≤ ·)).card ≤
            ((numbers (s.rotator.candidates s.fs)).filter (last + 1 ≤ ·)).card :=
          Finset.card_le_card (Finset.monotone_filter_right _ fun x _ hx =>
            Nat.le_trans hlt hx)
        omega
    · rintro ⟨-, hall⟩ hmem
      exact hall last hlast hmem hleft

end

/-! ## Runs -/

/-- A new process finds the numbering as it is. -/
theorem LedgerInv.ledgerStep_restart (hinv : LedgerInv maxSegments s) (hmax : 1 ≤ maxSegments) :
    ∃ s', ledgerStep maxSegments fuel s .restart = some s' ∧ s'.fs = s.fs ∧ s'.marked = s.marked ∧
      LedgerInv maxSegments s' := by
  obtain ⟨r', hnew⟩ : ∃ r', Rotator.new maxSegments s.fs = some r' := by
    unfold Rotator.new
    rw [if_pos hmax]
    exact ⟨_, rfl⟩
  have hbound : ∀ no ∈ numbers (segments s.fs), no + 1 < 2 ^ 64 := fun no hno =>
    Nat.lt_of_le_of_lt (hinv.intact.within no hno).2 s.rotator.segNo.toNat_lt
  obtain ⟨hintact, hmax', -⟩ := intact_new hinv.intact.canonical hbound hnew
  refine ⟨⟨s.fs, r', s.marked⟩, ledgerStep_eq_some.mpr ⟨?_, (List.append_nil _).symm⟩, rfl, rfl, ?_⟩
  · have hread : ((Process.read (Rotator.new maxSegments) : Process FileSystem Rotator _) s.fs
        s.rotator).outcome = .done (some r') s.fs s.rotator := congrArg (Outcome.done · _ _) hnew
    exact bind_outcome hread
  · exact ⟨hintact, hmax', hinv.unmarked, hinv.covered⟩

/-- After `mark_read` the cursor is the value marked. -/
theorem LedgerInv.markRead (hinv : LedgerInv maxSegments s) (cursor : UInt64) :
    LedgerInv maxSegments ⟨withLedger s.fs (ledgerLine s.rotator.segNo cursor), s.rotator,
      s.marked ++ [cursor]⟩ where
  intact := by
    refine ⟨?_, ?_, hinv.intact.min_le⟩
    · rw [segments_withLedger]
      exact hinv.intact.canonical
    · rw [segments_withLedger]
      exact hinv.intact.within
  max_eq := hinv.max_eq
  unmarked hnone := by
    rw [ledgerCursor_withLedger] at hnone
    cases hnone
  covered c hc := by
    rw [ledgerCursor_withLedger] at hc
    obtain rfl := Option.some.inj hc
    exact Or.inr ⟨cursor, List.mem_append_right _ List.mem_cons_self, Nat.le_refl _⟩

theorem cursorSound_markRead (cursor : UInt64) :
    CursorSound ⟨withLedger s.fs (ledgerLine s.rotator.segNo cursor), s.rotator,
      s.marked ++ [cursor]⟩ := by
  intro c hc no _ hle
  rw [ledgerCursor_withLedger] at hc
  obtain rfl := Option.some.inj hc
  exact ⟨cursor, List.mem_append_right _ List.mem_cons_self, hle⟩

/-- **One operation.**  It returns, keeps the invariant, and keeps the promise exactly if
it reads ahead. -/
theorem LedgerInv.step (hinv : LedgerInv maxSegments s) (hmax : 1 ≤ maxSegments)
    (hfuel : 2 ^ 64 < fuel) (hroom : Numbered s op) :
    ∃ s', ledgerStep maxSegments fuel s op = some s' ∧ LedgerInv maxSegments s' ∧
      (CursorSound s → (CursorSound s' ↔ ReadAhead s op)) := by
  cases op with
  | nextSegment =>
    obtain ⟨k, s', hs', hcalled⟩ := ledgerStep_nextSegment hinv.intact hfuel
    exact ⟨s', hs', hcalled.ledgerInv hinv hmax hroom, hcalled.sound_iff hinv hmax⟩
  | markRead cursor =>
    refine ⟨_, ledgerStep_markRead maxSegments fuel s cursor, hinv.markRead cursor, fun _ => ?_⟩
    exact iff_of_true (cursorSound_markRead cursor) trivial
  | restart =>
    obtain ⟨s', hs', hfs, hmarked, hinv'⟩ := hinv.ledgerStep_restart hmax
    refine ⟨s', hs', hinv', fun hsound => iff_of_true ?_ trivial⟩
    rw [CursorSound, hfs, hmarked]
    exact hsound

/-- A process started in a directory of segments, the last number not among them, and no
ledger. -/
theorem ledgerInv_new {start : FileSystem} {r : Rotator}
    (hstart : ∀ name ∈ segments start, ∃ no, no + 1 < 2 ^ 64 ∧ name = segPath no)
    (hledger : ledgerPath ∉ start) (hnew : Rotator.new maxSegments start = some r) :
    LedgerInv maxSegments ⟨start, r, []⟩ := by
  have hbelow : ∀ name ∈ segments start, ∃ no, no < 2 ^ 64 - 1 ∧ name = segPath no := by
    intro name hname
    obtain ⟨no, hno, heq⟩ := hstart name hname
    exact ⟨no, by omega, heq⟩
  have hkept := retained_new hbelow (by decide) hnew
  have hnone : ledgerCursor start = none := by
    rw [ledgerCursor, FileSystem.file?, AList.lookup_eq_none.mpr hledger]
    rfl
  refine ⟨hkept.intact, hkept.max_eq, fun _ => rfl, fun c hc => ?_⟩
  rw [hnone] at hc
  cases hc

/-- The invariant along a run. -/
theorem LedgerInv.run {ops : List LedgerOp} (hinv : LedgerInv maxSegments s)
    (hmax : 1 ≤ maxSegments) (hfuel : 2 ^ 64 < fuel)
    (hnumbered : Transition.Guarded (ledgerStep maxSegments fuel) Numbered s ops)
    (hrun : Transition.run (ledgerStep maxSegments fuel) s ops = some s') :
    LedgerInv maxSegments s' := by
  refine Transition.run_invariant_of_guarded (fun u op t hu hroom ht => ?_) hinv hnumbered hrun
  obtain ⟨t', ht', hnext, -⟩ := hu.step hmax hfuel hroom
  obtain rfl : t' = t := Option.some.inj (ht'.symm.trans ht)
  exact hnext

/-- **When the read cursor can be trusted.**  From a directory of segments without a
ledger, after every operation of a history all segments still there up to the cursor
have been marked as read, exactly if every call of `next_segment` reads ahead. -/
theorem cursor_sound_iff {start : FileSystem} {r : Rotator} {ops : List LedgerOp}
    (hmax : 1 ≤ maxSegments)
    (hstart : ∀ name ∈ segments start, ∃ no, no + 1 < 2 ^ 64 ∧ name = segPath no)
    (hledger : ledgerPath ∉ start) (hfuel : 2 ^ 64 < fuel)
    (hnew : Rotator.new maxSegments start = some r)
    (hnumbered : Transition.Guarded (ledgerStep maxSegments fuel) Numbered ⟨start, r, []⟩ ops) :
    (∀ pre s, pre <+: ops →
        Transition.run (ledgerStep maxSegments fuel) ⟨start, r, []⟩ pre = some s → CursorSound s) ↔
      Transition.Guarded (ledgerStep maxSegments fuel) ReadAhead ⟨start, r, []⟩ ops := by
  have hinit := ledgerInv_new hstart hledger hnew
  have hsound : CursorSound ⟨start, r, []⟩ := by
    intro c hc
    rw [ledgerCursor, FileSystem.file?, AList.lookup_eq_none.mpr hledger] at hc
    cases hc
  refine Transition.forall_prefix_iff_guarded hsound fun pre op u hpre hu => ?_
  have hbefore := (List.prefix_append pre [op]).trans hpre
  have hinv := hinit.run hmax hfuel (hnumbered.mono hbefore) hu
  obtain ⟨t, ht, -, hiff⟩ := hinv.step hmax hfuel (hnumbered pre op hpre u hu)
  exact ⟨t, ht, hiff⟩

theorem segments_empty : segments FileSystem.empty = ∅ := by decide

/-- The consumer is ahead of the probe: it has read segment 0 before there is a ledger, and
segment 1 before segment 0 is evicted.  The process is replaced, and segment 1 goes next. -/
def aheadOps : List LedgerOp :=
  [.markRead 0, .nextSegment, .nextSegment, .markRead 1, .nextSegment, .restart, .markRead 2,
    .nextSegment]

theorem cursor_sound_iff_ahead :
    (∃ s, Transition.run (ledgerStep 2 (2 ^ 64 + 1)) ⟨FileSystem.empty, ⟨2, 0, 0⟩, []⟩ aheadOps =
        some s ∧ ledgerCursor s.fs = some 2 ∧ segPath 1 ∉ s.fs ∧ segPath 2 ∈ s.fs) ∧
      ∀ pre s, pre <+: aheadOps →
        Transition.run (ledgerStep 2 (2 ^ 64 + 1)) ⟨FileSystem.empty, ⟨2, 0, 0⟩, []⟩ pre = some s →
          CursorSound s := by
  have hstart : ∀ name ∈ segments FileSystem.empty, ∃ no, no + 1 < 2 ^ 64 ∧ name = segPath no := by
    rw [segments_empty]
    exact fun name hname => absurd hname (Finset.notMem_empty name)
  have hnew : Rotator.new 2 FileSystem.empty = some ⟨2, 0, 0⟩ := by decide
  have hends : (Transition.run (Transition.checked (ledgerStep 2 (2 ^ 64 + 1))
      fun s op => ReadAhead s op ∧ Numbered s op) ⟨FileSystem.empty, ⟨2, 0, 0⟩, []⟩ aheadOps).map
      (fun s => (ledgerCursor s.fs, s.fs.contains (segPath 1), s.fs.contains (segPath 2))) =
        some (some 2, false, true) := by decide +kernel
  obtain ⟨s, hchecked, hends⟩ := Option.map_eq_some_iff.mp hends
  obtain ⟨hcursor, hrest⟩ := Prod.mk.inj hends
  obtain ⟨hevicted, hthere⟩ := Prod.mk.inj hrest
  obtain ⟨hboth, hrun⟩ := Transition.guarded_of_checked hchecked
  have hiff := cursor_sound_iff (by decide : 1 ≤ 2) hstart (by decide) (Nat.lt_succ_self (2 ^ 64))
    hnew fun pre op hpre u hu => (hboth pre op hpre u hu).2
  refine ⟨⟨s, hrun, hcursor, of_decide_eq_false hevicted, of_decide_eq_true hthere⟩, ?_⟩
  exact hiff.mpr fun pre op hpre u hu => (hboth pre op hpre u hu).1

/-- **The cursor claims an unread segment**: the first one, right after it was made. -/
theorem cursor_unsound :
    ¬ ∀ (maxSegments fuel : Nat) (ops : List LedgerOp) (start : FileSystem) (r : Rotator),
        1 ≤ maxSegments → 2 ^ 64 < fuel →
        (∀ name ∈ segments start, ∃ no, no < 2 ^ 64 ∧ name = segPath no) → ledgerPath ∉ start →
        Rotator.new maxSegments start = some r →
        ∀ pre s, pre <+: ops →
          Transition.run (ledgerStep maxSegments fuel) ⟨start, r, []⟩ pre = some s →
            CursorSound s := by
  intro h
  have hfuel : 2 ^ 64 < 2 ^ 64 + 1 := Nat.lt_succ_self _
  have hnone : ∀ name ∈ segments FileSystem.empty, ∃ no, no + 1 < 2 ^ 64 ∧ name = segPath no := by
    rw [segments_empty]
    exact fun name hname => absurd hname (Finset.notMem_empty name)
  have hnew : Rotator.new 1 FileSystem.empty = some ⟨1, 0, 0⟩ := by decide
  have hinit := ledgerInv_new hnone (by decide) hnew
  have hsound := h 1 (2 ^ 64 + 1) [.nextSegment] FileSystem.empty ⟨1, 0, 0⟩ (by decide) hfuel
    (fun name hname => (hnone name hname).imp fun _ h => ⟨Nat.lt_of_succ_lt h.1, h.2⟩) (by decide)
    hnew
  have hroom : (0 : UInt64).toNat + 1 < 2 ^ 64 := by decide
  have hnumbered : Numbered ⟨FileSystem.empty, ⟨1, 0, 0⟩, []⟩ .nextSegment := hroom
  obtain ⟨t, ht, -, hiff⟩ := hinit.step (Nat.le_refl 1) hfuel hnumbered
  have hrun : Transition.run (ledgerStep 1 (2 ^ 64 + 1)) ⟨FileSystem.empty, ⟨1, 0, 0⟩, []⟩
      [.nextSegment] = some t := by
    rw [Transition.run_cons, ht]
    rfl
  have hahead := (hiff (hsound [] _ List.nil_prefix rfl)).mp (hsound _ t List.prefix_rfl hrun)
  have hone : (numbers ((⟨1, 0, 0⟩ : Rotator).candidates FileSystem.empty)).card ≤ 1 := by
    have hle := Finset.card_image_of_injective
      (numbers ((⟨1, 0, 0⟩ : Rotator).candidates FileSystem.empty)) segPath_injective
    rw [← hle]
    refine Nat.le_trans (Finset.card_le_card (image_numbers_subset _)) ?_
    decide
  exact absurd (hahead.1 hone) (by decide)

end SovProbe
