import SovProbe.Retention
import SovProbe.WalStream
import SovProbe.Writer

/-! # The log the segments hold

The records a run has accepted are spread over the segments it has opened: those it
is done with hold whole encodings, and the last one holds the encodings of the rest
up to what is still in the buffer.  `LogPrefix` is what a reader finds, in any state
of the disk: decoded in the order of their numbers, the segments give a prefix of
the accepted records.
-/

namespace SovProbe
open Process WalRecord

/-- The names of segments with ascending numbers. -/
def Ascending (opened : List (FileName × Nat)) : Prop :=
  ∃ nos : List Nat, opened.map Prod.fst = nos.map segPath ∧ nos.Pairwise (· < ·)

section
variable (crc32 : List UInt8 → UInt32) (start : FileSystem)

/-- The segments made since the start decode to a prefix of `A`: all of each but the
last, and of the last one what is there. -/
def LogPrefix (A : List WalRecord) (fs : FileSystem) : Prop :=
  ∃ (opened : List (FileName × Nat)) (last : FileName × Nat) (logs : List (List WalRecord))
    (log : List WalRecord) (residual : Nat),
    fs.created = start.created ++ (opened ++ [last]) ∧ Ascending (opened ++ [last]) ∧
      List.Forall₂ (fun o log => decodeStream crc32 (fs.content o.2) = .ok (log, 0)) opened logs ∧
      decodeStream crc32 (fs.content last.2) = .ok (log, residual) ∧
      logs.flatten ++ log <+: A.map normalised

/-- The segments opened since the start, when nothing is left in a buffer. -/
structure Closed (fs : FileSystem) (opened : List (FileName × Nat))
    (logs : List (List WalRecord)) : Prop where
  created : fs.created = start.created ++ opened
  ascending : Ascending opened
  sealed : List.Forall₂ (fun o rs => fs.content o.2 = encoding crc32 rs) opened logs
  valid : ∀ o ∈ opened, o.2 < fs.inodes.length ∧ fs.dir.lookup ledgerPath ≠ some o.2

/-- The segments opened since the start: `logs` in those the writer is done with, and
`cur` in the file it has open, under `name`, together with its buffer. -/
structure Segments (fs : FileSystem) (f : BufWriter) (name : FileName)
    (opened : List (FileName × Nat)) (logs : List (List WalRecord)) (cur : List WalRecord) :
    Prop where
  created : fs.created = start.created ++ (opened ++ [(name, f.inode)])
  ascending : Ascending (opened ++ [(name, f.inode)])
  sealed : List.Forall₂ (fun o rs => fs.content o.2 = encoding crc32 rs) opened logs
  current : fs.content f.inode ++ f.buffer = encoding crc32 cur
  valid : ∀ o ∈ opened ++ [(name, f.inode)],
    o.2 < fs.inodes.length ∧ fs.dir.lookup ledgerPath ≠ some o.2
  distinct : ∀ o ∈ opened, o.2 ≠ f.inode

end

variable {crc32 : List UInt8 → UInt32} {start fs t : FileSystem} {f : BufWriter} {name : FileName}
  {opened : List (FileName × Nat)} {logs : List (List WalRecord)} {cur : List WalRecord}
  {r : Rotator} {k : Nat}

/-- Equal contents decode equally. -/
theorem forall₂_congr_content {P : List UInt8 → List WalRecord → Prop}
    (h : List.Forall₂ (fun o rs => P (fs.content o.2) rs) opened logs)
    (hcontent : ∀ o ∈ opened, t.content o.2 = fs.content o.2) :
    List.Forall₂ (fun o rs => P (t.content o.2) rs) opened logs := by
  induction h with
  | nil => exact List.Forall₂.nil
  | @cons o rs opened logs hhead _ ih =>
    refine List.Forall₂.cons ?_ (ih fun x hx => hcontent x (List.mem_cons_of_mem _ hx))
    rw [hcontent o List.mem_cons_self]
    exact hhead

theorem content_inodes_length (fs : FileSystem) : fs.content fs.inodes.length = [] := by
  rw [FileSystem.content, List.getD_eq_getElem?_getD, List.getElem?_eq_none (Nat.le_refl _)]
  rfl

/-- What a call of `next_segment` leaves of an inode that is not the ledger's. -/
theorem Swept.keeps (ht : Swept (r.made fs) r.advanced k t) {i : Nat}
    (hi : i < fs.inodes.length + 1) (hledger : fs.dir.lookup ledgerPath ≠ some i) :
    t.content i = fs.content i ∧ i < t.inodes.length ∧ t.dir.lookup ledgerPath ≠ some i := by
  have hmade : (r.made fs).dir.lookup ledgerPath = fs.dir.lookup ledgerPath :=
    AList.lookup_insert_ne (Ne.symm (segPath_ne_ledgerPath _))
  have hlength : (r.made fs).inodes.length = fs.inodes.length + 1 := by
    rw [Rotator.made, FileSystem.length_record, FileSystem.length_link]
  have hle := ht.housekeeping.length
  refine ⟨?_, by omega, fun hlookup => ?_⟩
  · rw [ht.housekeeping.content (by omega) (by rwa [hmade]), Rotator.made,
      FileSystem.content_record]
    rcases Nat.lt_succ_iff_lt_or_eq.mp hi with hold | rfl
    · exact FileSystem.content_link hold
    · rw [FileSystem.content_link_new, content_inodes_length]
  · rcases ht.housekeeping.ledger hlookup with hsame | hnew
    · rw [hmade] at hsame
      exact hledger hsame
    · omega

theorem lookup_ledger_ne_length (fs : FileSystem) :
    fs.dir.lookup ledgerPath ≠ some fs.inodes.length :=
  fun h => absurd (fs.inode_lt h) (Nat.lt_irrefl _)

/-- The file the writer opens is the segment just made. -/
theorem Swept.lookup_wanted (ht : Swept (r.made fs) r.advanced k t) (hmem : r.wanted ∈ t) :
    t.dir.lookup r.wanted = some fs.inodes.length := by
  obtain ⟨i, hi⟩ := Option.isSome_iff_exists.mp (AList.lookup_isSome.mpr hmem)
  have hmade : (r.made fs).dir.lookup r.wanted = some fs.inodes.length := AList.lookup_insert _
  have hname : r.wanted ≠ ledgerPath := segPath_ne_ledgerPath _
  rw [hi, ← ht.housekeeping.lookup hname hi, hmade]

/-- One more segment, with a number above the others. -/
theorem Ascending.concat {no inode : Nat} (h : Ascending opened)
    (hlt : ∀ o ∈ opened, ∃ n, n < no ∧ o.1 = segPath n) :
    Ascending (opened ++ [(segPath no, inode)]) := by
  obtain ⟨nos, hnos, hpairwise⟩ := h
  refine ⟨nos ++ [no], by rw [List.map_append, List.map_append, hnos]; rfl, ?_⟩
  refine List.pairwise_append.mpr ⟨hpairwise, List.pairwise_singleton _ _, fun a ha b hb => ?_⟩
  obtain ⟨o, ho, heq⟩ := List.mem_map.mp (hnos ▸ List.mem_map_of_mem ha)
  obtain ⟨n, hn, hname⟩ := hlt o ho
  rw [List.mem_singleton.mp hb, ← segPath_injective (hname.symm.trans heq)]
  exact hn

/-- All segments made so far have numbers below the next. -/
theorem Retained.opened_lt {maxSegments limit : Nat} {allocated : List Nat}
    (h : Retained maxSegments start limit fs r allocated)
    (hcreated : fs.created = start.created ++ opened) :
    ∀ o ∈ opened, ∃ n, n < r.segNo.toNat ∧ o.1 = segPath n := by
  intro o ho
  have hlog := h.log
  rw [hcreated, List.map_append] at hlog
  have hmem : o.1 ∈ allocated.map segPath :=
    List.append_cancel_left hlog ▸ List.mem_map_of_mem ho
  obtain ⟨n, hn, heq⟩ := List.mem_map.mp hmem
  exact ⟨n, h.lt_segNo (Or.inr hn), heq.symm⟩

/-- The ledger of numbers follows the directory's segments. -/
theorem Retained.congr {maxSegments limit : Nat} {allocated : List Nat}
    (h : Retained maxSegments start limit fs r allocated) (hsegments : segments t = segments fs)
    (hcreated : t.created = fs.created) : Retained maxSegments start limit t r allocated where
  intact := ⟨hsegments ▸ h.intact.canonical, hsegments ▸ h.intact.within, h.intact.min_le⟩
  max_eq := h.max_eq
  bounded := h.bounded
  covered := hsegments ▸ h.covered
  log := hcreated ▸ h.log
  increasing := h.increasing
  fresh := h.fresh

theorem Retained.mono {maxSegments limit limit' : Nat} {allocated : List Nat}
    (h : Retained maxSegments start limit fs r allocated) (hle : limit ≤ limit') :
    Retained maxSegments start limit' fs r allocated :=
  { h with bounded := Nat.le_trans h.bounded hle }

/-- What follows for segments that hold whole encodings. -/
theorem forall₂_normalised {R : FileName × Nat → List WalRecord → Prop}
    (h : List.Forall₂ (fun o rs => fs.content o.2 = encoding crc32 rs) opened logs)
    (hR : ∀ o, ∀ rs ∈ logs, fs.content o.2 = encoding crc32 rs → R o (rs.map normalised)) :
    List.Forall₂ R opened (logs.map (List.map normalised)) := by
  rw [List.forall₂_map_right_iff, List.forall₂_iff_zip]
  obtain ⟨hlength, hzip⟩ := List.forall₂_iff_zip.mp h
  exact ⟨hlength, fun hmem => hR _ _ (List.of_mem_zip hmem).2 (hzip hmem)⟩

theorem decodeStream_sealed {o : FileName × Nat} {rs : List WalRecord}
    (h : fs.content o.2 = encoding crc32 rs) (hencodable : ∀ r ∈ rs, r.Encodable) :
    decodeStream crc32 (fs.content o.2) = .ok (rs.map normalised, 0) := by
  rw [h]
  exact decodeStream_encoding hencodable

namespace Closed

theorem first (crc32 : List UInt8 → UInt32) (fs : FileSystem) : Closed crc32 fs fs [] [] :=
  ⟨(List.append_nil _).symm, ⟨[], rfl, List.Pairwise.nil⟩, List.Forall₂.nil, nofun⟩

/-- The next segment, in any state `next_segment` leaves or passes through. -/
theorem next {maxSegments limit : Nat} {allocated : List Nat}
    (h : Closed crc32 start fs opened logs)
    (hkept : Retained maxSegments start limit fs r allocated)
    (ht : Swept (r.made fs) r.advanced k t) :
    Segments crc32 start t ⟨fs.inodes.length, []⟩ r.wanted opened logs [] where
  created := by
    rw [ht.housekeeping.created, Rotator.made, FileSystem.created_record, FileSystem.created_link,
      h.created, List.append_assoc]
  ascending := h.ascending.concat (hkept.opened_lt h.created)
  sealed := by
    refine forall₂_congr_content (P := fun bytes rs => bytes = encoding crc32 rs) h.sealed ?_
    intro o ho
    exact (ht.keeps (Nat.lt_succ_of_lt (h.valid o ho).1) (h.valid o ho).2).1
  current := by
    rw [(ht.keeps (Nat.lt_succ_self _) (lookup_ledger_ne_length fs)).1, content_inodes_length]
    rfl
  valid o ho := by
    rcases List.mem_append.mp ho with hold | hnew
    · exact (ht.keeps (Nat.lt_succ_of_lt (h.valid o hold).1) (h.valid o hold).2).2
    · rw [List.mem_singleton.mp hnew]
      exact (ht.keeps (Nat.lt_succ_self _) (lookup_ledger_ne_length fs)).2
  distinct o ho := Nat.ne_of_lt (h.valid o ho).1

end Closed

namespace Segments

/-- The writer has flushed. -/
theorem closed {i : Nat} (h : Segments crc32 start fs ⟨i, []⟩ name opened logs cur) :
    Closed crc32 start fs (opened ++ [(name, i)]) (logs ++ [cur]) where
  created := h.created
  ascending := h.ascending
  sealed := by
    refine List.rel_append h.sealed (List.Forall₂.cons ?_ List.Forall₂.nil)
    rw [← h.current, List.append_nil]
  valid := h.valid

/-- Bytes are added to the buffer, and any number of those waiting go to the file. -/
theorem write {bytes : List UInt8} {cur' : List WalRecord}
    (h : Segments crc32 start fs f name opened logs cur)
    (hcur : encoding crc32 cur' = encoding crc32 cur ++ bytes) (n : Nat) :
    Segments crc32 start (fs.append f.inode ((f.buffer ++ bytes).take n))
      ⟨f.inode, (f.buffer ++ bytes).drop n⟩ name opened logs cur' where
  created := h.created
  ascending := h.ascending
  sealed := by
    refine forall₂_congr_content (P := fun bytes rs => bytes = encoding crc32 rs) h.sealed ?_
    intro o ho
    exact FileSystem.content_append_ne (Ne.symm (h.distinct o ho))
  current := by
    have hinode := (h.valid _ (List.mem_append_right _ List.mem_cons_self)).1
    rw [FileSystem.content_append hinode, List.append_assoc, List.take_append_drop, hcur,
      ← h.current, List.append_assoc]
  valid o ho := by
    rw [FileSystem.length_append]
    exact h.valid o ho
  distinct := h.distinct

/-- Any number of the bytes in the buffer go to the file. -/
theorem writeOut (h : Segments crc32 start fs f name opened logs cur) (n : Nat) :
    Segments crc32 start (fs.append f.inode (f.buffer.take n)) ⟨f.inode, f.buffer.drop n⟩ name
      opened logs cur := by
  have hnothing : encoding crc32 cur = encoding crc32 cur ++ [] := (List.append_nil _).symm
  have hwritten := h.write hnothing n
  rwa [List.append_nil] at hwritten

/-- **What a reader finds** is a prefix of the log, wherever the buffer was cut. -/
theorem logPrefix {A : List WalRecord} (h : Segments crc32 start fs f name opened logs cur)
    (hA : ∀ r ∈ A, r.Encodable) (hpre : logs.flatten ++ cur <+: A) :
    LogPrefix crc32 start A fs := by
  have hencodable : ∀ r ∈ logs.flatten ++ cur, r.Encodable := fun r hr => hA r (hpre.subset hr)
  have htake : fs.content f.inode = (encoding crc32 cur).take (fs.content f.inode).length := by
    rw [← h.current, List.take_left]
  have hlen : (fs.content f.inode).length ≤ (encoding crc32 cur).length := by
    rw [← h.current, List.length_append]
    exact Nat.le_add_right _ _
  have hcur := decodeStream_encoding_take
    (fun r hr => hencodable r (List.mem_append_right _ hr)) hlen
  rw [← htake] at hcur
  refine ⟨opened, (name, f.inode), logs.map (List.map normalised), _, _, h.created, h.ascending,
    forall₂_normalised h.sealed fun o rs hrs ho => decodeStream_sealed ho fun r hr => ?_, hcur, ?_⟩
  · exact hencodable r (List.mem_append_left _ (List.mem_flatten.mpr ⟨rs, hrs, hr⟩))
  rw [← List.map_flatten, ← List.map_append]
  refine List.IsPrefix.map _ (List.IsPrefix.trans ?_ hpre)
  exact (List.prefix_append_right_inj _).mpr (List.take_prefix _ _)

end Segments
end SovProbe
