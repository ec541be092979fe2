import SovProbe.WriterRefinement

/-! # The log over kills and restarts

The probe may be killed in the middle of anything, and is then started again on the
directory it left, perhaps under another configuration.  Each life of it makes new
segments.  `Grown` is what that does to the directory: what was there before is
untouched or gone, the new segments have larger numbers, and the newest of all is
still there for the next life to count on from.  It composes, so that the segments of
all lives are one ascending log.
-/

namespace SovProbe
open Process WalRecord

/-! ## What becomes of a directory -/

/-- From `base`, in which the segments `opened` have been made. -/
structure Grown (base fs : FileSystem) (opened : List (FileName × Nat)) : Prop where
  created : fs.created = base.created ++ opened
  length : base.inodes.length ≤ fs.inodes.length
  /-- Except for the ledger, files are as they were. -/
  content : ∀ i, i < base.inodes.length → base.dir.lookup ledgerPath ≠ some i →
    fs.content i = base.content i ∧ fs.dir.lookup ledgerPath ≠ some i
  lookup : ∀ name, name ∈ segments base → name ∈ fs → fs.dir.lookup name = base.dir.lookup name
  origin : ∀ name ∈ segments fs, name ∈ segments base ∨ name ∈ opened.map Prod.fst
  others : ∀ name ∈ fs, isSegment name = true ∨ name = ledgerPath ∨ name ∈ base
  valid : ∀ o ∈ opened, o.2 < fs.inodes.length ∧ fs.dir.lookup ledgerPath ≠ some o.2
  named : ∀ o ∈ opened, o.1 ∈ fs → fs.dir.lookup o.1 = some o.2

/-- With a segment, all those with larger numbers are there. -/
def Upward (base fs : FileSystem) (nos : List Nat) : Prop :=
  ∀ m ∈ numbers (segments fs), ∀ no, no ∈ numbers (segments base) ∨ no ∈ nos → m ≤ no →
    no ∈ numbers (segments fs)

/-- The numbers of the new segments: the upper end of what there has been is there, and the
newest in any case. -/
structure Ascent (base fs : FileSystem) (opened : List (FileName × Nat)) (nos : List Nat) :
    Prop where
  names : opened.map Prod.fst = nos.map segPath
  increasing : nos.Pairwise (· < ·)
  above : ∀ no ∈ nos, ∀ m ∈ numbers (segments base), m < no
  covered : ∀ no, no ∈ numbers (segments base) ∨ no ∈ nos → ∃ c ∈ numbers (segments fs), no ≤ c
  upward : Upward base fs nos

variable {base fs t u : FileSystem} {opened more : List (FileName × Nat)} {nos others : List Nat}
  {r : Rotator} {k limit maxSegments : Nat} {allocated : List Nat}

theorem isSegment_of_mem_names (h : opened.map Prod.fst = nos.map segPath) {o : FileName × Nat}
    (ho : o ∈ opened) : ∃ no ∈ nos, o.1 = segPath no := by
  obtain ⟨no, hno, heq⟩ := List.mem_map.mp (h ▸ List.mem_map_of_mem ho)
  exact ⟨no, hno, heq.symm⟩

/-- The next segment, and what has been removed for it. -/
theorem Upward.next (h : Upward base fs allocated)
    (hkept : Retained maxSegments base limit fs r allocated) (hmax : 1 ≤ maxSegments)
    (ht : Swept (r.made fs) r.advanced k t) : Upward base t (allocated ++ [r.segNo.toNat]) := by
  have hmax' : 1 ≤ r.maxSegments := hkept.max_eq ▸ hmax
  obtain ⟨-, -, hmem⟩ := hkept.intact.swept hmax' ht
  intro m hm no hno hle
  obtain ⟨hcandidate, hmin⟩ := (hmem m).mp hm
  refine (hmem no).mpr ⟨?_, Nat.le_trans hmin hle⟩
  rw [numbers_candidates, Finset.mem_insert] at hcandidate ⊢
  have hcases : (no ∈ numbers (segments base) ∨ no ∈ allocated) ∨ no = r.segNo.toNat := by
    rcases hno with hold | hmade
    · exact Or.inl (Or.inl hold)
    · exact (List.mem_append.mp hmade).imp Or.inr List.mem_singleton.mp
  rcases hcases with hused | hnew
  · right
    rcases hcandidate with rfl | hthere
    · exact absurd (hkept.lt_segNo hused) (Nat.not_lt.mpr hle)
    · exact h m hthere no hused hle
  · exact Or.inl hnew

/-- Where a property is passed on along a list, it begins to hold at some point. -/
theorem exists_split {α : Type} {P : α → Prop} {l : List α}
    (h : l.Pairwise fun a b => P a → P b) :
    ∃ before after, l = before ++ after ∧ (∀ a ∈ before, ¬ P a) ∧ ∀ a ∈ after, P a := by
  induction l with
  | nil => exact ⟨[], [], rfl, fun a ha => absurd ha List.not_mem_nil,
      fun a ha => absurd ha List.not_mem_nil⟩
  | cons a l ih =>
    obtain ⟨hfirst, hrest⟩ := List.pairwise_cons.mp h
    obtain ⟨before, after, rfl, hnot, hholds⟩ := ih hrest
    by_cases ha : P a
    · refine ⟨[], a :: (before ++ after), rfl, fun b hb => absurd hb List.not_mem_nil, ?_⟩
      intro b hb
      rcases List.mem_cons.mp hb with rfl | hmem
      · exact ha
      · exact hfirst b hmem ha
    · refine ⟨a :: before, after, rfl, fun b hb => ?_, hholds⟩
      rcases List.mem_cons.mp hb with rfl | hmem
      · exact ha
      · exact hnot b hmem

namespace Grown

theorem refl (fs : FileSystem) : Grown fs fs [] where
  created := (List.append_nil _).symm
  length := Nat.le_refl _
  content _ _ hledger := ⟨rfl, hledger⟩
  lookup _ _ _ := rfl
  origin _ hname := Or.inl hname
  others _ hname := Or.inr (Or.inr hname)
  valid _ ho := absurd ho List.not_mem_nil
  named _ ho := absurd ho List.not_mem_nil

/-- Bytes go to a file that was not there in `base`. -/
theorem append (h : Grown base fs opened) {i : Nat} (hi : base.inodes.length ≤ i)
    (bytes : List UInt8) : Grown base (fs.append i bytes) opened where
  created := h.created
  length := by
    rw [FileSystem.length_append]
    exact h.length
  content j hj hledger := by
    have hne : i ≠ j := by omega
    rw [FileSystem.content_append_ne hne]
    exact h.content j hj hledger
  lookup := h.lookup
  origin name hname := h.origin name ((segments_setContent _ _ _) ▸ hname)
  others name hname := h.others name (FileSystem.mem_append.mp hname)
  valid o ho := by
    rw [FileSystem.length_append]
    exact h.valid o ho
  named := h.named

/-- The numbers of a life. -/
theorem numbered (h : Grown base fs opened)
    (hkept : Retained maxSegments base limit fs r allocated) (hup : Upward base fs allocated) :
    Ascent base fs opened allocated where
  names := by
    have hlog := hkept.log
    rw [h.created, List.map_append] at hlog
    exact List.append_cancel_left hlog
  increasing := hkept.increasing
  above := hkept.fresh
  covered := hkept.covered
  upward := hup

/-- The next segment, in any state `next_segment` leaves or passes through. -/
theorem next (h : Grown base fs opened) (hkept : Retained maxSegments base limit fs r allocated)
    (ht : Swept (r.made fs) r.advanced k t) :
    Grown base t (opened ++ [(r.wanted, fs.inodes.length)]) := by
  have hmade : (r.made fs).inodes.length = fs.inodes.length + 1 := by
    rw [Rotator.made, FileSystem.length_record, FileSystem.length_link]
  have hle := ht.housekeeping.length
  have hlength := h.length
  -- a segment that was there, or was made before, keeps its file
  have hkeeps : ∀ name, name ∈ t → isSegment name = true → name ≠ r.wanted →
      t.dir.lookup name = fs.dir.lookup name := by
    intro name hmem hsegment hne
    obtain ⟨i, hi⟩ := Option.isSome_iff_exists.mp (AList.lookup_isSome.mpr hmem)
    have hbefore := ht.housekeeping.lookup (ne_ledgerPath_of_isSegment hsegment) hi
    rw [hi, ← hbefore]
    exact AList.lookup_insert_ne hne
  have hfs : ∀ name, name ∈ t → isSegment name = true → name ≠ r.wanted → name ∈ fs := by
    intro name hmem hsegment hne
    have hsome := AList.lookup_isSome.mpr hmem
    rw [hkeeps name hmem hsegment hne] at hsome
    exact AList.lookup_isSome.mp hsome
  have hold : ∀ o ∈ opened, isSegment o.1 = true ∧ o.1 ≠ r.wanted := by
    intro o ho
    obtain ⟨n, hn, heq⟩ := hkept.opened_lt h.created o ho
    rw [heq]
    refine ⟨isSegment_segPath n, fun hsame => ?_⟩
    have := segPath_injective hsame
    omega
  exact {
    created := by
      rw [ht.housekeeping.created, Rotator.made, FileSystem.created_record,
        FileSystem.created_link, h.created, List.append_assoc]
    length := by omega
    content := by
      intro i hi hledger
      obtain ⟨hcontent, hledger'⟩ := h.content i hi hledger
      obtain ⟨hsame, -, hnot⟩ := ht.keeps (by omega) hledger'
      exact ⟨hsame.trans hcontent, hnot⟩
    lookup := by
      intro name hname hmem
      obtain ⟨-, hsegment⟩ := mem_segments.mp hname
      have hne : name ≠ r.wanted := by
        rintro rfl
        have hno : r.segNo.toNat ∈ numbers (segments base) :=
          mem_numbers.mpr ⟨hname, r.segNo.toNat_lt⟩
        exact absurd (hkept.lt_segNo (Or.inl hno)) (Nat.lt_irrefl _)
      rw [hkeeps name hmem hsegment hne]
      exact h.lookup name hname (hfs name hmem hsegment hne)
    origin := by
      intro name hname
      rw [ht.segments_swept] at hname
      rw [List.map_append]
      rcases Finset.mem_insert.mp (mem_sweep.mp hname).1 with hnew | hbefore
      · exact Or.inr (List.mem_append_right _ (List.mem_singleton.mpr hnew))
      · exact (h.origin name hbefore).imp_right (List.mem_append_left _)
    others := by
      intro name hmem
      by_cases hledger : name = ledgerPath
      · exact Or.inr (Or.inl hledger)
      · obtain ⟨i, hi⟩ := Option.isSome_iff_exists.mp (AList.lookup_isSome.mpr hmem)
        have hbefore := ht.housekeeping.lookup hledger hi
        have hmade' : name ∈ r.made fs := AList.lookup_isSome.mp (hbefore ▸ rfl)
        rcases FileSystem.mem_link.mp (FileSystem.mem_record.mp hmade') with rfl | hthere
        · exact Or.inl (isSegment_segPath _)
        · exact h.others name hthere
    valid := by
      intro o ho
      rcases List.mem_append.mp ho with hbefore | hnew
      · exact (ht.keeps (Nat.lt_succ_of_lt (h.valid o hbefore).1) (h.valid o hbefore).2).2
      · rw [List.mem_singleton.mp hnew]
        exact (ht.keeps (Nat.lt_succ_self _) (lookup_ledger_ne_length fs)).2
    named := by
      intro o ho hmem
      rcases List.mem_append.mp ho with hbefore | hnew
      · obtain ⟨hsegment, hne⟩ := hold o hbefore
        rw [hkeeps o.1 hmem hsegment hne]
        exact h.named o hbefore (hfs o.1 hmem hsegment hne)
      · rw [List.mem_singleton.mp hnew] at hmem ⊢
        exact ht.lookup_wanted hmem }

/-- No name is used again. -/
theorem notMem_later (hn : Ascent base fs opened nos) (hn' : Ascent fs t more others)
    {name : FileName} (hname : name ∈ segments base ∨ name ∈ opened.map Prod.fst) :
    name ∉ more.map Prod.fst := by
  intro hmem
  rw [hn'.names] at hmem
  obtain ⟨no, hno, rfl⟩ := List.mem_map.mp hmem
  obtain ⟨c', hc', hle'⟩ := hn'.covered no (Or.inr hno)
  have hlt := (mem_numbers.mp hc').2
  have hused : no ∈ numbers (segments base) ∨ no ∈ nos := by
    rcases hname with hold | hmade
    · exact Or.inl (mem_numbers.mpr ⟨hold, by omega⟩)
    · rw [hn.names] at hmade
      obtain ⟨no', hno', heq⟩ := List.mem_map.mp hmade
      exact Or.inr (segPath_injective heq ▸ hno')
  obtain ⟨c, hc, hle⟩ := hn.covered no hused
  have habove := hn'.above no hno c hc
  omega

/-- What is there after both was there after the first. -/
theorem mem_between (hn : Ascent base fs opened nos) (h' : Grown fs t more)
    (hn' : Ascent fs t more others) {name : FileName}
    (hname : name ∈ segments base ∨ name ∈ opened.map Prod.fst) (hmem : name ∈ t) :
    name ∈ segments fs := by
  have hsegment : isSegment name = true := by
    rcases hname with hold | hmade
    · exact (mem_segments.mp hold).2
    · rw [hn.names] at hmade
      obtain ⟨no, -, rfl⟩ := List.mem_map.mp hmade
      exact isSegment_segPath no
  rcases h'.origin name (mem_segments.mpr ⟨hmem, hsegment⟩) with hbefore | hnew
  · exact hbefore
  · exact absurd hnew (notMem_later hn hn' hname)

/-- **Lives compose.** -/
theorem trans (h : Grown base fs opened) (hn : Ascent base fs opened nos)
    (h' : Grown fs t more) (hn' : Ascent fs t more others) :
    Grown base t (opened ++ more) where
  created := by rw [h'.created, h.created, List.append_assoc]
  length := Nat.le_trans h.length h'.length
  content i hi hledger := by
    obtain ⟨hcontent, hledger'⟩ := h.content i hi hledger
    obtain ⟨hcontent', hledger''⟩ := h'.content i (Nat.lt_of_lt_of_le hi h.length) hledger'
    exact ⟨hcontent'.trans hcontent, hledger''⟩
  lookup name hname hmem := by
    have hbetween := mem_between hn h' hn' (Or.inl hname) hmem
    rw [h'.lookup name hbetween hmem]
    exact h.lookup name hname (mem_segments.mp hbetween).1
  origin name hname := by
    rw [List.map_append]
    rcases h'.origin name hname with hbefore | hnew
    · exact (h.origin name hbefore).imp_right (List.mem_append_left _)
    · exact Or.inr (List.mem_append_right _ hnew)
  others name hmem := by
    rcases h'.others name hmem with hsegment | hledger | hbetween
    · exact Or.inl hsegment
    · exact Or.inr (Or.inl hledger)
    · exact h.others name hbetween
  valid o ho := by
    rcases List.mem_append.mp ho with hbefore | hnew
    · obtain ⟨hlt, hledger⟩ := h.valid o hbefore
      exact ⟨Nat.lt_of_lt_of_le hlt h'.length, (h'.content o.2 hlt hledger).2⟩
    · exact h'.valid o hnew
  named o ho hmem := by
    rcases List.mem_append.mp ho with hbefore | hnew
    · have hmade := List.mem_map_of_mem (f := Prod.fst) hbefore
      have hbetween := mem_between hn h' hn' (Or.inr hmade) hmem
      rw [h'.lookup o.1 hbetween hmem]
      exact h.named o hbefore (mem_segments.mp hbetween).1
    · exact h'.named o hnew hmem

/-- A segment that was there in `base`, if it still is. -/
theorem file?_eq (h : Grown base fs opened) {name : FileName} (hname : name ∈ segments base)
    (hmem : name ∈ fs) : fs.file? name = base.file? name := by
  obtain ⟨hbase, hsegment⟩ := mem_segments.mp hname
  obtain ⟨i, hi⟩ := Option.isSome_iff_exists.mp (AList.lookup_isSome.mpr hbase)
  have hledger : base.dir.lookup ledgerPath ≠ some i :=
    fun hl => ne_ledgerPath_of_isSegment hsegment (base.inode_inj hi hl)
  have hfs : fs.dir.lookup name = some i := (h.lookup name hname hmem).trans hi
  rw [FileSystem.file?_of_lookup hfs, FileSystem.file?_of_lookup hi,
    (h.content i (base.inode_lt hi) hledger).1]

/-- The newest segment is there. -/
theorem newest_mem (h : Grown base fs opened) (hn : Ascent base fs opened nos)
    {last : FileName × Nat} (hlast : opened.getLast? = some last) : last.1 ∈ fs := by
  obtain ⟨before, rfl⟩ := List.getLast?_eq_some_iff.mp hlast
  have hnames := hn.names
  rw [List.map_append, List.map_singleton] at hnames
  obtain ⟨lower, newest, rfl⟩ : ∃ lower newest, nos = lower ++ [newest] := by
    rcases List.eq_nil_or_concat nos with rfl | ⟨lower, newest, rfl⟩
    · exact absurd hnames (by simp)
    · exact ⟨lower, newest, List.concat_eq_append⟩
  rw [List.map_append, List.map_singleton] at hnames
  obtain ⟨-, hsame⟩ := List.append_inj' hnames rfl
  have hname : last.1 = segPath newest := List.head_eq_of_cons_eq hsame
  have hin : newest ∈ lower ++ [newest] := List.mem_append_right _ List.mem_cons_self
  obtain ⟨c, hc, hle⟩ := hn.covered newest (Or.inr hin)
  -- nothing in the directory is above the newest
  have hc' : c = newest := by
    rcases h.origin _ (mem_numbers.mp hc).1 with hold | hmade
    · have := hn.above newest hin c (mem_numbers.mpr ⟨hold, (mem_numbers.mp hc).2⟩)
      omega
    · rw [hn.names] at hmade
      obtain ⟨m, hm, heq⟩ := List.mem_map.mp hmade
      rw [segPath_injective heq] at hm
      rcases List.mem_append.mp hm with hbefore | hsingle
      · have := (List.pairwise_append.mp hn.increasing).2.2 c hbefore newest List.mem_cons_self
        omega
      · exact List.mem_singleton.mp hsingle
  rw [hname, ← hc']
  exact (mem_segments.mp (mem_numbers.mp hc).1).1

/-- With a segment, all that were made later are there. -/
theorem pairwise_mem (hn : Ascent base fs opened nos) :
    opened.Pairwise fun a b => a.1 ∈ fs → b.1 ∈ fs := by
  have hnos : nos.Pairwise fun a b => segPath a ∈ fs → segPath b ∈ fs := by
    refine hn.increasing.imp_of_mem fun {a b} ha hb hlt hmem => ?_
    obtain ⟨c, hc, hle⟩ := hn.covered a (Or.inr ha)
    have ha' : a ∈ numbers (segments fs) :=
      mem_numbers.mpr ⟨mem_segments.mpr ⟨hmem, isSegment_segPath a⟩,
        Nat.lt_of_le_of_lt hle (mem_numbers.mp hc).2⟩
    have hb' := hn.upward a ha' b (Or.inr hb) (Nat.le_of_lt hlt)
    exact (mem_segments.mp (mem_numbers.mp hb').1).1
  have hnames : (opened.map Prod.fst).Pairwise fun a b => a ∈ fs → b ∈ fs := by
    rw [hn.names]
    exact List.pairwise_map.mpr hnos
  exact List.pairwise_map.mp hnames

/-- The segments made, up to some point, are gone, and from there on they are there. -/
theorem split (h : Grown base fs opened) (hn : Ascent base fs opened nos) :
    ∃ gone kept, opened = gone ++ kept ∧ (∀ o ∈ gone, o.1 ∉ fs) ∧ (∀ o ∈ kept, o.1 ∈ fs) ∧
      (opened ≠ [] → kept ≠ []) := by
  obtain ⟨gone, kept, hsplit, hgone, hkept⟩ := exists_split (pairwise_mem hn)
  refine ⟨gone, kept, hsplit, hgone, hkept, fun hne hnone => ?_⟩
  rw [hnone, List.append_nil] at hsplit
  obtain ⟨last, hlast⟩ := Option.isSome_iff_exists.mp (List.getLast?_isSome.mpr hne)
  exact hgone last (hsplit ▸ List.mem_of_getLast? hlast) (h.newest_mem hn hlast)

end Grown

/-- The numbers of both. -/
theorem Ascent.trans (hn : Ascent base fs opened nos) (h' : Grown fs t more)
    (hn' : Ascent fs t more others) :
    Ascent base t (opened ++ more) (nos ++ others) where
  names := by rw [List.map_append, List.map_append, hn.names, hn'.names]
  increasing := by
    refine List.pairwise_append.mpr ⟨hn.increasing, hn'.increasing, fun a ha b hb => ?_⟩
    obtain ⟨c, hc, hle⟩ := hn.covered a (Or.inr ha)
    exact Nat.lt_of_le_of_lt hle (hn'.above b hb c hc)
  above no hno m hm := by
    rcases List.mem_append.mp hno with hbefore | hnew
    · exact hn.above no hbefore m hm
    · obtain ⟨c, hc, hle⟩ := hn.covered m (Or.inl hm)
      exact Nat.lt_of_le_of_lt hle (hn'.above no hnew c hc)
  covered no hno := by
    have hcases : (no ∈ numbers (segments base) ∨ no ∈ nos) ∨ no ∈ others := by
      rcases hno with hold | hmem
      · exact Or.inl (Or.inl hold)
      · exact (List.mem_append.mp hmem).imp_left Or.inr
    rcases hcases with hbefore | hnew
    · obtain ⟨c, hc, hle⟩ := hn.covered no hbefore
      obtain ⟨d, hd, hle'⟩ := hn'.covered c (Or.inl hc)
      exact ⟨d, hd, Nat.le_trans hle hle'⟩
    · exact hn'.covered no (Or.inr hnew)
  upward m hm no hno hle := by
    have hcases : (no ∈ numbers (segments base) ∨ no ∈ nos) ∨ no ∈ others := by
      rcases hno with hold | hmem
      · exact Or.inl (Or.inl hold)
      · exact (List.mem_append.mp hmem).imp_left Or.inr
    rcases hcases with hbefore | hnew
    · -- a number below one of the first lives was there after them
      obtain ⟨c, hc, hle'⟩ := hn.covered no hbefore
      have hm' : m ∈ numbers (segments fs) := by
        rcases h'.origin _ (mem_numbers.mp hm).1 with hthere | hmade
        · exact mem_numbers.mpr ⟨hthere, (mem_numbers.mp hm).2⟩
        · rw [hn'.names] at hmade
          obtain ⟨m', hm', heq⟩ := List.mem_map.mp hmade
          have := hn'.above m (segPath_injective heq ▸ hm') c hc
          omega
      exact hn'.upward m hm no (Or.inl (hn.upward m hm' no hbefore hle)) hle
    · exact hn'.upward m hm no (Or.inr hnew) hle

theorem Ascent.refl (fs : FileSystem) : Ascent fs fs [] [] where
  names := rfl
  increasing := List.Pairwise.nil
  above _ hno := absurd hno List.not_mem_nil
  covered no hno := ⟨no, hno.resolve_right List.not_mem_nil, Nat.le_refl _⟩
  upward _ _ _ hno _ := hno.resolve_right List.not_mem_nil

/-! ## One life -/

namespace WalWriter
variable (maxSegments : Nat) (base : FileSystem)

/-- The directory a life can leave. -/
def Left (limit : Nat) (fs : FileSystem) : Prop :=
  ∃ opened r allocated, Grown base fs opened ∧ Retained maxSegments base limit fs r allocated ∧
    Upward base fs allocated

theorem Left.mono {maxSegments : Nat} {base fs : FileSystem} {limit limit' : Nat}
    (h : Left maxSegments base limit fs) (hle : limit ≤ limit') :
    Left maxSegments base limit' fs := by
  obtain ⟨opened, r, allocated, hgrown, hkept, hup⟩ := h
  exact ⟨opened, r, allocated, hgrown, hkept.mono hle, hup⟩

/-- The directory and the writer in the course of a life. -/
structure Living (limit : Nat) (fs : FileSystem) (w : WalWriter) : Prop where
  grown : ∃ opened, Grown base fs opened
  retained : ∃ allocated, Retained maxSegments base limit fs w.rotator allocated ∧
    Upward base fs allocated
  file : ∀ f, w.file = some f → base.inodes.length ≤ f.inode ∧ f.inode < fs.inodes.length

variable {maxSegments base} {fs t : FileSystem} {w w' : WalWriter} {limit limit' fuel : Nat}

namespace Living

theorem left (h : Living maxSegments base limit fs w) : Left maxSegments base limit fs := by
  obtain ⟨opened, hgrown⟩ := h.grown
  obtain ⟨allocated, hkept, hup⟩ := h.retained
  exact ⟨opened, _, allocated, hgrown, hkept, hup⟩

theorem mono (h : Living maxSegments base limit fs w) (hle : limit ≤ limit') :
    Living maxSegments base limit' fs w := by
  obtain ⟨allocated, hkept, hup⟩ := h.retained
  exact ⟨h.grown, ⟨allocated, hkept.mono hle, hup⟩, h.file⟩

/-- Memory that has nothing to do with the directory. -/
theorem congr (h : Living maxSegments base limit fs w) (hrotator : w'.rotator = w.rotator)
    (hfile : w'.file = w.file) : Living maxSegments base limit fs w' := by
  obtain ⟨allocated, hkept, hup⟩ := h.retained
  exact ⟨h.grown, ⟨allocated, hrotator ▸ hkept, hup⟩, fun f hf => h.file f (hfile ▸ hf)⟩

/-- Bytes go to the open file. -/
theorem append {f : BufWriter} (h : Living maxSegments base limit fs w) (hfile : w.file = some f)
    (bytes rest : List UInt8) :
    Living maxSegments base limit (fs.append f.inode bytes)
      { w with file := some ⟨f.inode, rest⟩ } := by
  obtain ⟨opened, hgrown⟩ := h.grown
  obtain ⟨allocated, hkept, hup⟩ := h.retained
  obtain ⟨hnew, hinode⟩ := h.file f hfile
  have hsame : segments (fs.append f.inode bytes) = segments fs := segments_setContent _ _ _
  refine ⟨⟨opened, hgrown.append hnew bytes⟩, ⟨allocated, hkept.congr hsame rfl, ?_⟩,
    fun g hg => ?_⟩
  · unfold Upward
    rw [hsame]
    exact hup
  · rw [← Option.some.inj hg, FileSystem.length_append]
    exact ⟨hnew, hinode⟩

theorem holds_flush (h : Living maxSegments base limit fs w) :
    flush.Holds (Left maxSegments base limit) (.returns fun _ t w' =>
      Living maxSegments base limit t w' ∧ (∀ f, w'.file = some f → f.buffer = []) ∧
        w'.rotator = w.rotator) fs w := by
  cases hfile : w.file with
  | none =>
    refine holds_flush_idle ?_ h.left ⟨h, ?_, rfl⟩
    · intro f hf
      rw [hfile] at hf
      cases hf
    · intro f hf
      rw [hfile] at hf
      cases hf
  | some f =>
    rw [WalWriter.holds_flush hfile]
    refine ⟨fun n _ => (h.append hfile _ []).left, h.append hfile _ [], ?_, rfl⟩
    intro g hg
    rw [← Option.some.inj hg]

theorem holds_bufWriteAll (h : Living maxSegments base limit fs w) (bytes : List UInt8) :
    (bufWriteAll bytes).Holds (Left maxSegments base limit)
      (.returns fun _ => Living maxSegments base limit) fs w := by
  cases hfile : w.file with
  | none => simpa [bufWriteAll, hfile, Post.returns] using h
  | some f =>
    exact WalWriter.holds_bufWriteAll hfile (h.file f hfile).2
      (fun n _ => (h.append hfile _ []).left) fun n _ => h.append hfile _ _

/-- A new segment, once the buffer is empty. -/
theorem holds_openSegment (now : Nat) (h : Living maxSegments base limit fs w)
    (hidle : ∀ f, w.file = some f → f.buffer = []) (hmax : 1 ≤ maxSegments)
    (hroom : limit + 1 < 2 ^ 64) (hfuel : 2 ^ 64 < fuel) :
    (openSegment fuel now).Holds (Left maxSegments base (limit + 1))
      (.returns fun _ => Living maxSegments base (limit + 1)) fs w := by
  obtain ⟨opened, hgrown⟩ := h.grown
  obtain ⟨allocated, hkept, hup⟩ := h.retained
  refine WalWriter.holds_openSegment now hmax hroom hfuel hidle hkept ?_ ?_
  · intro k t ht
    exact ⟨_, _, _, hgrown.next hkept ht, hkept.returned hmax hroom ht, hup.next hkept hmax ht⟩
  · intro k t r' ht hkept'
    refine ⟨⟨_, hgrown.next hkept ht⟩, ⟨_, hkept', hup.next hkept hmax ht⟩, fun f hf => ?_⟩
    rw [← Option.some.inj hf]
    exact ⟨hgrown.length, (ht.keeps (Nat.lt_succ_self _) (lookup_ledger_ne_length fs)).2.1⟩

/-- What `handle_record` and `maybe_rotate` do when a new segment is due. -/
theorem holds_rotate (now : Nat) (h : Living maxSegments base limit fs w) (hmax : 1 ≤ maxSegments)
    (hroom : limit + 1 < 2 ^ 64) (hfuel : 2 ^ 64 < fuel) :
    (do flush; openSegment fuel now : Process FileSystem WalWriter Unit).Holds
      (Left maxSegments base (limit + 1)) (.returns fun _ => Living maxSegments base (limit + 1))
      fs w := by
  refine (h.holds_flush.imp (fun t ht => ht.mono (Nat.le_succ _)) fun _ _ _ hP => hP).bind
    fun _ t w' ⟨hliving, hidle, _⟩ => ?_
  exact hliving.holds_openSegment now hidle hmax hroom hfuel

theorem holds_writeScratch (h : Living maxSegments base limit fs w) (scratch : List UInt8) :
    (writeScratch scratch).Holds (Left maxSegments base limit)
      (.returns fun _ => Living maxSegments base limit) fs w := by
  unfold writeScratch
  rw [holds_get_bind]
  split
  · refine (h.holds_bufWriteAll scratch).bind fun _ t w' hliving => ?_
    exact (holds_modify _).mpr (hliving.congr rfl rfl)
  · exact (holds_pure _).mpr h

theorem holds_handleRecord (crc32 : List UInt8 → UInt32) (r : WalRecord) (degraded : Bool)
    (now : Nat) (h : Living maxSegments base limit fs w) (hmax : 1 ≤ maxSegments)
    (hroom : limit + 1 < 2 ^ 64) (hfuel : 2 ^ 64 < fuel) :
    (handleRecord crc32 fuel r degraded now).Holds (Left maxSegments base (limit + 1))
      (.returns fun _ => Living maxSegments base (limit + 1)) fs w := by
  unfold handleRecord
  cases degraded with
  | true =>
    rw [if_pos rfl, holds_modify]
    exact (h.mono (Nat.le_succ _)).congr rfl rfl
  | false =>
    simp only [Bool.false_eq_true, if_false, holds_modify_bind, holds_get_bind, encode_eq,
      List.nil_append]
    have hscratch : Living maxSegments base limit fs { w with scratch := r.frame crc32 } :=
      h.congr rfl rfl
    split
    · rw [← Process.bind_assoc]
      refine (hscratch.holds_rotate now hmax hroom hfuel).bind fun _ t w' hliving => ?_
      exact hliving.holds_writeScratch _
    · exact (hscratch.mono (Nat.le_succ _)).holds_writeScratch _

theorem holds_maybeRotate (check now : Nat) (h : Living maxSegments base limit fs w)
    (hmax : 1 ≤ maxSegments) (hroom : limit + 1 < 2 ^ 64) (hfuel : 2 ^ 64 < fuel) :
    (maybeRotate fuel check now).Holds (Left maxSegments base (limit + 1))
      (.returns fun _ => Living maxSegments base (limit + 1)) fs w := by
  unfold maybeRotate
  rw [holds_get_bind]
  split
  · exact h.holds_rotate now hmax hroom hfuel
  · exact (holds_pure _).mpr (h.mono (Nat.le_succ _))

/-- **One iteration of the loop.** -/
theorem holds_iteration (crc32 : List UInt8 → UInt32) (x : Received)
    (h : Living maxSegments base limit fs w) (hmax : 1 ≤ maxSegments)
    (hroom : limit + 2 < 2 ^ 64) (hfuel : 2 ^ 64 < fuel) :
    (iteration crc32 fuel x).Holds (Left maxSegments base (limit + 2))
      (.returns fun _ => Living maxSegments base (limit + 2)) fs w := by
  cases x with
  | record r degraded clock =>
    refine ((h.holds_handleRecord crc32 r degraded clock.handle hmax (by omega) hfuel).imp
      (fun t ht => ht.mono (Nat.le_succ _)) fun _ _ _ hP => hP).bind fun _ t w' hliving => ?_
    exact hliving.holds_maybeRotate clock.check clock.rotate hmax (by omega) hfuel
  | timeout => exact (holds_pure _).mpr (h.mono (Nat.le_add_right _ _))

end Living

/-- **What a life leaves**, wherever it is cut off. -/
theorem holds_run_left (crc32 : List UInt8 → UInt32)
    {segmentSize : UInt64} {rotateInterval now₀ writtenRecords droppedRecords : Nat}
    {received : List Received} (now : Nat)
    (hnew : WalWriter.new base maxSegments segmentSize rotateInterval now₀ writtenRecords
      droppedRecords = some w)
    (hstart : ∀ name ∈ segments base, ∃ no, no < limit ∧ name = segPath no)
    (hlimit : limit + 1 + 2 * received.length < 2 ^ 64) (hfuel : 2 ^ 64 < fuel) :
    (run crc32 fuel now received).Holds
      (Left maxSegments base (limit + 1 + 2 * received.length))
      (.returns fun _ t _ => Left maxSegments base (limit + 1 + 2 * received.length) t) base w := by
  obtain ⟨hrotator, hmax, hfile, -⟩ := new_eq hnew
  have hkept := retained_new hstart (by omega) hrotator
  have hborn : Living maxSegments base limit base w := by
    refine ⟨⟨[], Grown.refl base⟩, ⟨[], hkept, (Ascent.refl base).upward⟩, fun f hf => ?_⟩
    rw [hfile] at hf
    cases hf
  have hloop : (loop crc32 fuel now received).Holds
      (Left maxSegments base (limit + 1 + 2 * received.length))
      (.returns fun _ => Living maxSegments base (limit + 1 + 2 * received.length)) base w := by
    unfold loop
    simp only [holds_get_bind, hfile, Option.isNone_none, if_true]
    have hidle : ∀ f, w.file = some f → f.buffer = [] := by
      intro f hf
      rw [hfile] at hf
      cases hf
    refine ((hborn.holds_openSegment now hidle hmax (by omega) hfuel).imp
      (fun t ht => ht.mono (Nat.le_add_right _ _)) fun _ _ _ hP => hP).bind fun _ t w' hfirst => ?_
    refine holds_forM (fun pre => Living maxSegments base (limit + 1 + 2 * pre.length))
      (fun pre x hpre t w hw => ?_) hfirst
    have hlength : pre.length + 1 ≤ received.length := by
      have hle := hpre.length_le
      rwa [List.length_append] at hle
    rw [List.length_append, List.length_singleton, Nat.mul_add, ← Nat.add_assoc]
    exact (hw.holds_iteration crc32 x hmax (by omega) hfuel).imp
      (fun t ht => ht.mono (by omega)) fun _ _ _ hP => hP
  unfold run
  refine hloop.bind fun _ t w' hliving => ?_
  exact hliving.holds_flush.imp_returns fun _ _ _ hP => hP.1.left

end WalWriter

/-! ## All lives -/

section
variable (crc32 : List UInt8 → UInt32) (A : List WalRecord)

/-- All of `A`, in whole segments. -/
def Whole (fs : FileSystem) (opened : List (FileName × Nat)) : Prop :=
  ∃ logs : List (List WalRecord),
    List.Forall₂ (fun o log => decodeStream crc32 (fs.content o.2) = .ok (log, 0)) opened logs ∧
      logs.flatten = A.map normalised

/-- The beginning of `A`: whole segments and what there is of the last one. -/
def PartOf (fs : FileSystem) (opened : List (FileName × Nat)) : Prop :=
  ∃ (whole : List (FileName × Nat)) (last : FileName × Nat) (logs : List (List WalRecord))
    (log : List WalRecord) (residual : Nat), opened = whole ++ [last] ∧
      List.Forall₂ (fun o log => decodeStream crc32 (fs.content o.2) = .ok (log, 0)) whole logs ∧
      decodeStream crc32 (fs.content last.2) = .ok (log, residual) ∧
      logs.flatten ++ log <+: A.map normalised

end

/-- A life of the writer: how it is made, when, and what it receives.  Its end is that all
senders are gone, or that it is killed. -/
structure Life where
  maxSegments : Nat
  segmentSize : UInt64
  rotateInterval : Nat
  made : Nat
  started : Nat
  received : List Received
  killed : Bool

namespace Life

/-- The segments it can make at most. -/
def cost (l : Life) : Nat := 1 + 2 * l.received.length

/-- From `fs`, the life can leave `t`.  One that is killed has changed the disk before. -/
def Leaves (crc32 : List UInt8 → UInt32) (fuel : Nat) (l : Life) (fs t : FileSystem) : Prop :=
  ∃ w, WalWriter.new fs l.maxSegments l.segmentSize l.rotateInterval l.made 0 0 = some w ∧
    if l.killed then t ∈ (WalWriter.run crc32 fuel l.started l.received fs w).trace
    else ∃ w', (WalWriter.run crc32 fuel l.started l.received fs w).outcome = .done () t w'

/-- What its segments hold. -/
def Kept (crc32 : List UInt8 → UInt32) (l : Life) (fs : FileSystem)
    (opened : List (FileName × Nat)) : Prop :=
  if l.killed then PartOf crc32 (Received.accepted l.received) fs opened
  else Whole crc32 (Received.accepted l.received) fs opened

end Life

/-- One life after the other. -/
inductive Lived (crc32 : List UInt8 → UInt32) (fuel : Nat) (start : FileSystem) :
    List Life → FileSystem → Prop
  | start : Lived crc32 fuel start [] start
  | next {lives : List Life} {fs t : FileSystem} {l : Life} :
      Lived crc32 fuel start lives fs → l.Leaves crc32 fuel fs t →
      Lived crc32 fuel start (lives ++ [l]) t

variable {crc32 : List UInt8 → UInt32} {A : List WalRecord} {start : FileSystem}

/-- Later lives leave what is in the segments as it is. -/
theorem content_eq_of_grown (h : Grown fs t more)
    (hvalid : ∀ o ∈ opened, o.2 < fs.inodes.length ∧ fs.dir.lookup ledgerPath ≠ some o.2) :
    ∀ o ∈ opened, t.content o.2 = fs.content o.2 :=
  fun o ho => (h.content o.2 (hvalid o ho).1 (hvalid o ho).2).1

theorem Whole.congr (h : Whole crc32 A fs opened)
    (hsame : ∀ o ∈ opened, t.content o.2 = fs.content o.2) : Whole crc32 A t opened := by
  obtain ⟨logs, hlogs, hA⟩ := h
  exact ⟨logs, forall₂_congr_content (P := fun bytes log => decodeStream crc32 bytes = .ok (log, 0))
    hlogs hsame, hA⟩

theorem PartOf.congr (h : PartOf crc32 A fs opened)
    (hsame : ∀ o ∈ opened, t.content o.2 = fs.content o.2) : PartOf crc32 A t opened := by
  obtain ⟨whole, last, logs, log, residual, rfl, hlogs, hlast, hA⟩ := h
  refine ⟨whole, last, logs, log, residual, rfl, ?_, ?_, hA⟩
  · exact forall₂_congr_content (P := fun bytes log => decodeStream crc32 bytes = .ok (log, 0))
      hlogs fun o ho => hsame o (List.mem_append_left _ ho)
  · rw [hsame last (List.mem_append_right _ List.mem_cons_self)]
    exact hlast

theorem Life.Kept.congr {l : Life} (h : l.Kept crc32 fs opened)
    (hsame : ∀ o ∈ opened, t.content o.2 = fs.content o.2) : l.Kept crc32 t opened := by
  unfold Life.Kept at h ⊢
  by_cases hkilled : l.killed = true
  · rw [if_pos hkilled] at h ⊢
    exact PartOf.congr h hsame
  · rw [if_neg hkilled] at h ⊢
    exact Whole.congr h hsame

namespace WalWriter

theorem new_isSome (fs : FileSystem) (segmentSize : UInt64)
    (rotateInterval now writtenRecords droppedRecords : Nat) (hmax : 1 ≤ maxSegments) :
    ∃ w, WalWriter.new fs maxSegments segmentSize rotateInterval now writtenRecords
      droppedRecords = some w := by
  refine Option.isSome_iff_exists.mp ?_
  rw [WalWriter.new, Option.isSome_map, Rotator.new, if_pos hmax]
  rfl

/-- The names in a directory a life has left. -/
theorem Left.canonical (h : Left maxSegments base limit fs) :
    ∀ name ∈ segments fs, ∃ no, no < limit ∧ name = segPath no := by
  obtain ⟨opened, r, allocated, -, hkept, -⟩ := h
  intro name hname
  by_contra hnone
  have hforeign : name ∈ foreign (segments fs) := by
    refine mem_foreign.mpr ⟨hname, fun no hlt heq => hnone ⟨no, ?_, heq⟩⟩
    have hwithin := hkept.intact.within no (mem_numbers.mpr ⟨heq ▸ hname, hlt⟩)
    exact Nat.lt_of_lt_of_le hwithin.2 hkept.bounded
  rw [hkept.intact.canonical] at hforeign
  exact absurd hforeign (Finset.notMem_empty name)

/-- **What a run leaves in its segments**, wherever it is cut off. -/
theorem holds_run_log (crc32 : List UInt8 → UInt32)
    {segmentSize : UInt64} {rotateInterval now₀ writtenRecords droppedRecords fuel : Nat}
    {w : WalWriter} {received : List Received} (now : Nat)
    (hnew : WalWriter.new base maxSegments segmentSize rotateInterval now₀ writtenRecords
      droppedRecords = some w)
    (hstart : ∀ name ∈ segments base, ∃ no, no < limit ∧ name = segPath no)
    (hlimit : limit + 1 + 2 * received.length < 2 ^ 64) (hfuel : 2 ^ 64 < fuel)
    (hrecords : ∀ r ∈ Received.accepted received, r.Encodable) :
    (run crc32 fuel now received).Holds
      (fun t => ∃ opened, t.created = base.created ++ opened ∧
        PartOf crc32 (Received.accepted received) t opened)
      (.returns fun _ t _ => ∃ opened, t.created = base.created ++ opened ∧
        Whole crc32 (Received.accepted received) t opened) base w := by
  have hcrash : ∀ t, LogPrefix crc32 base (Received.accepted received) t →
      ∃ opened, t.created = base.created ++ opened ∧
        PartOf crc32 (Received.accepted received) t opened := by
    rintro t ⟨opened, last, logs, log, residual, hcreated, -, hlogs, hlast, hpre⟩
    exact ⟨_, hcreated, opened, last, logs, log, residual, rfl, hlogs, hlast, hpre⟩
  have hloop := holds_loop crc32 now hnew hstart hlimit hfuel hrecords
  unfold run
  refine (hloop.imp hcrash fun _ _ _ hP => hP).bind fun _ t w' ⟨_, _, f, g, hw⟩ => ?_
  have hflush : flush.Holds (LogPrefix crc32 base (Received.accepted received))
      (.returns fun _ t _ => ∃ opened, t.created = base.created ++ opened ∧
        Whole crc32 (Received.accepted received) t opened) t w' := by
    refine hw.holds_flush hrecords List.prefix_rfl fun t hflushed => ?_
    obtain ⟨opened, logs, hcreated, -, hlogs, hA⟩ := hflushed.decoded hrecords
    exact ⟨opened, hcreated, logs, hlogs.imp fun _ _ hlog => hlog.1, hA⟩
  exact hflush.imp hcrash fun _ _ _ hP => hP

end WalWriter

/-- **What a life makes**, and what it leaves of all others. -/
theorem Life.Leaves.grown {l : Life} {fuel : Nat} (h : l.Leaves crc32 fuel fs t)
    (hstart : ∀ name ∈ segments fs, ∃ no, no < limit ∧ name = segPath no)
    (hlimit : limit + l.cost < 2 ^ 64) (hfuel : 2 ^ 64 < fuel)
    (hrecords : ∀ r ∈ Received.accepted l.received, r.Encodable) :
    ∃ opened nos, Grown fs t opened ∧ Ascent fs t opened nos ∧ l.Kept crc32 t opened ∧
      ∀ name ∈ segments t, ∃ no, no < limit + l.cost ∧ name = segPath no := by
  obtain ⟨w, hnew, hend⟩ := h
  rw [Life.cost, ← Nat.add_assoc] at hlimit
  have hleft := WalWriter.holds_run_left crc32 l.started hnew hstart hlimit hfuel
  have hlog := WalWriter.holds_run_log crc32 l.started hnew hstart hlimit hfuel hrecords
  -- both say what has been made since
  have hboth : WalWriter.Left l.maxSegments fs (limit + 1 + 2 * l.received.length) t ∧
      ∃ opened, t.created = fs.created ++ opened ∧ l.Kept crc32 t opened := by
    unfold Life.Kept
    by_cases hkilled : l.killed = true
    · rw [if_pos hkilled] at hend
      simp only [if_pos hkilled]
      exact ⟨hleft.1 t hend, hlog.1 t hend⟩
    · rw [if_neg hkilled] at hend
      simp only [if_neg hkilled]
      obtain ⟨w', hdone⟩ := hend
      exact ⟨hleft.done hdone, hlog.done hdone⟩
  obtain ⟨hleft', opened, hcreated, hkeeps⟩ := hboth
  have hcanonical := hleft'.canonical
  obtain ⟨opened', r, allocated, hgrown, hkept, hup⟩ := hleft'
  have hsame := hgrown.created
  rw [hcreated] at hsame
  obtain rfl := List.append_cancel_left hsame
  rw [Nat.add_assoc] at hcanonical
  exact ⟨opened, allocated, hgrown, hgrown.numbered hkept hup, hkeeps, hcanonical⟩

/-- **The invariant of lives.** -/
theorem Lived.grown {lives : List Life} {fuel : Nat} (h : Lived crc32 fuel start lives t)
    (hstart : ∀ name ∈ segments start, ∃ no, no < limit ∧ name = segPath no)
    (hlimit : limit + (lives.map Life.cost).sum < 2 ^ 64) (hfuel : 2 ^ 64 < fuel)
    (hrecords : ∀ l ∈ lives, ∀ r ∈ Received.accepted l.received, r.Encodable) :
    ∃ (made : List (List (FileName × Nat))) (nos : List Nat),
      Grown start t made.flatten ∧ Ascent start t made.flatten nos ∧
      List.Forall₂ (fun l opened => l.Kept crc32 t opened) lives made ∧
      ∀ name ∈ segments t, ∃ no, no < limit + (lives.map Life.cost).sum ∧ name = segPath no := by
  induction h with
  | start => exact ⟨[], [], Grown.refl start, Ascent.refl start, List.Forall₂.nil, hstart⟩
  | @next lives fs t l hlived hleaves ih =>
    rw [List.map_append, List.sum_append, List.map_singleton, List.sum_singleton,
      ← Nat.add_assoc] at hlimit ⊢
    obtain ⟨made, nos, hgrown, hnumbered, hkept, hnames⟩ :=
      ih (by omega) fun l' hl' => hrecords l' (List.mem_append_left _ hl')
    obtain ⟨opened, others, hgrown', hnumbered', hkept', hnames'⟩ :=
      hleaves.grown hnames hlimit hfuel
        (hrecords l (List.mem_append_right _ List.mem_cons_self))
    have hflatten : (made ++ [opened]).flatten = made.flatten ++ opened := by
      rw [List.flatten_append, List.flatten_singleton]
    refine ⟨made ++ [opened], nos ++ others, ?_, ?_, ?_, hnames'⟩
    · rw [hflatten]
      exact hgrown.trans hnumbered hgrown' hnumbered'
    · rw [hflatten]
      exact hnumbered.trans hgrown' hnumbered'
    · refine List.rel_append ?_ (List.Forall₂.cons hkept' List.Forall₂.nil)
      obtain ⟨hlength, hzip⟩ := List.forall₂_iff_zip.mp hkept
      refine List.forall₂_iff_zip.mpr ⟨hlength, fun {l' o'} hmem => ?_⟩
      refine (hzip hmem).congr (content_eq_of_grown hgrown' fun o ho => hgrown.valid o ?_)
      exact List.mem_flatten.mpr ⟨o', (List.of_mem_zip hmem).2, ho⟩

/-- A life that is killed, and the same to its end. -/
def cutLife : Life := ⟨1, 100, 60, 0, 0, WalWriter.sampleReceived, true⟩

/-- The same life, not killed. -/
def fullLife : Life := { cutLife with killed := false }

end SovProbe
