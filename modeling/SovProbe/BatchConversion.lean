import SovProbe.Sov2Pcap
import Mathlib.Algebra.BigOperators.Group.Finset.Basic
import Mathlib.Algebra.Order.BigOperators.Group.List

/-! # Batches of conversions

Which packets are left when several files are converted, one after the other.  A file that is
written twice has the packets of its last conversion; and a file that is written before it is
read has no records any more.  So a packet is kept exactly if it comes from a file that was
read as it was and whose output was not written again, and each as often as it was there
exactly if all files with packets are such files (`keeps_packets_iff`).

With `--out-dir`, and without `--output`, this is so for all files of a directory whose names
are printed as they are (`keeps_packets_of_printable`).
-/

namespace SovProbe
open PathName

variable {ν : Type} {crc32 : List UInt8 → UInt32} {format : PcapFormat} {volume : Volume ν}
  {cli : Cli} {s t start : Contents ν} {fs : List Path} {f g : Path} {n : ν} {p : PcapPacket}

/-- The file that the conversion of `f` writes. -/
def outputFile (volume : Volume ν) (cli : Cli) (f : Path) : Option ν :=
  (outputPath volume cli f).map volume.locate

/-- A record of the file passes the filter and makes this packet. -/
def Carries (crc32 : List UInt8 → UInt32) (format : PcapFormat) (volume : Volume ν) (cli : Cli)
    (contents : Contents ν) (f : Path) (p : PcapPacket) : Prop :=
  ∃ records, decoded crc32 format (contents (volume.locate f)) = some records ∧
    ∃ rec ∈ records, passes cli.filterPort rec = true ∧ rec.toPacket = p

/-- Every packet of the files is in an output in the end. -/
def KeepsPackets (crc32 : List UInt8 → UInt32) (format : PcapFormat) (volume : Volume ν)
    (cli : Cli) (fs : List Path) (start s : Contents ν) : Prop :=
  ∀ f ∈ fs, ∀ p, Carries crc32 format volume cli start f p →
    ∃ g ∈ fs, ∃ out packets, outputFile volume cli g = some out ∧
      s out = some (.pcap packets) ∧ p ∈ packets

/-- No conversion before that of `f` writes the file it reads, and none after it the one it
writes. -/
def Undisturbed (volume : Volume ν) (cli : Cli) (before : List Path) (f : Path)
    (after : List Path) :
    Prop :=
  (∀ g ∈ before, outputFile volume cli g ≠ some (volume.locate f)) ∧
    ∀ g ∈ after, outputFile volume cli g ≠ outputFile volume cli f

/-- The file is converted in the batch at such a place. -/
def Survives (volume : Volume ν) (cli : Cli) (fs : List Path) (f : Path) : Prop :=
  ∃ before after, fs = before ++ f :: after ∧ Undisturbed volume cli before f after

/-- The packets that the conversion of the file makes of its records. -/
def packetsOf (crc32 : List UInt8 → UInt32) (format : PcapFormat) (volume : Volume ν) (cli : Cli)
    (contents : Contents ν) (f : Path) : List PcapPacket :=
  writePackets cli.filterPort ((decoded crc32 format (contents (volume.locate f))).getD [])

/-- The packets that were written to a file. -/
def Content.packets : Option Content → List PcapPacket
  | some (pcap packets) => packets
  | _ => []

/-- Every packet is in the outputs in the end as often as it was in the files. -/
def KeepsOccurrences [DecidableEq ν] (crc32 : List UInt8 → UInt32) (format : PcapFormat)
    (volume : Volume ν) (cli : Cli) (fs : List Path) (start s : Contents ν) : Prop :=
  ∀ p, (fs.map fun f => (packetsOf crc32 format volume cli start f).count p).sum ≤
    ∑ out ∈ (fs.filterMap (outputFile volume cli)).toFinset, (Content.packets (s out)).count p

section Batch

variable [DecidableEq ν]

/-! ## What is in a file -/

theorem convert_output (h : convert crc32 format volume cli s f = some t) : ∃ out records,
    outputFile volume cli f = some out ∧ decoded crc32 format (s (volume.locate f)) = some records ∧
    t = Function.update s out (some (.pcap (writePackets cli.filterPort records))) := by
  obtain ⟨out, records, hout, hrecords, -, -, rfl⟩ := convert_eq_some.mp h
  exact ⟨volume.locate out, records, Option.map_eq_some_iff.mpr ⟨out, hout, rfl⟩, hrecords, rfl⟩

/-- `n` was last written by the conversion of `g`. -/
structure WrittenBy (crc32 : List UInt8 → UInt32) (format : PcapFormat) (volume : Volume ν)
    (cli : Cli) (start : Contents ν) (fs : List Path) (n : ν) (content : Option Content)
    (before after : List Path) (g : Path) : Prop where
  split : fs = before ++ g :: after
  output : outputFile volume cli g = some n
  last : ∀ h ∈ after, outputFile volume cli h ≠ some n
  packets : ∃ s records, Transition.run (convert crc32 format volume cli) start before = some s ∧
    decoded crc32 format (s (volume.locate g)) = some records ∧
    content = some (.pcap (writePackets cli.filterPort records))

/-- **A file** has been written last by one of the conversions, or is as it was. -/
theorem written_or_same (hrun : Transition.run (convert crc32 format volume cli) start fs = some s)
    (n : ν) :
    (∃ before after g, WrittenBy crc32 format volume cli start fs n (s n) before after g) ∨
      (∀ g ∈ fs, outputFile volume cli g ≠ some n) ∧ s n = start n := by
  induction fs using List.reverseRecOn generalizing s with
  | nil =>
    rw [Transition.run_nil] at hrun
    exact Or.inr ⟨fun g hg => absurd hg List.not_mem_nil, by rw [Option.some.inj hrun]⟩
  | append_singleton fs f ih =>
    obtain ⟨u, hu, hf⟩ := (Transition.run_concat_eq_some _).mp hrun
    obtain ⟨out, records, houtput, hrecords, rfl⟩ := convert_output hf
    by_cases hn : out = n
    · subst hn
      refine Or.inl ⟨fs, [], f, rfl, houtput, fun h hh => absurd hh List.not_mem_nil, u, records,
        hu, hrecords, ?_⟩
      rw [Function.update_self]
    · have hother : outputFile volume cli f ≠ some n := by
        rw [houtput]
        exact fun heq => hn (Option.some.inj heq)
      rw [Function.update_of_ne (Ne.symm hn)]
      rcases ih hu with ⟨before, after, g, hwritten⟩ | ⟨hnone, hsame⟩
      · refine Or.inl ⟨before, after ++ [f], g, ?_, hwritten.output, ?_, hwritten.packets⟩
        · rw [hwritten.split, List.append_assoc]
          rfl
        · intro h hh
          rcases List.mem_append.mp hh with hmem | hmem
          · exact hwritten.last h hmem
          · exact List.mem_singleton.mp hmem ▸ hother
      · refine Or.inr ⟨fun g hg => ?_, hsame⟩
        rcases List.mem_append.mp hg with hmem | hmem
        · exact hnone g hmem
        · exact List.mem_singleton.mp hmem ▸ hother

/-- The conversion of a file within a batch. -/
theorem run_of_mem {before after : List Path}
    (hrun : Transition.run (convert crc32 format volume cli) start (before ++ f :: after) =
      some s) :
    ∃ u out records, Transition.run (convert crc32 format volume cli) start before = some u ∧
      outputFile volume cli f = some out ∧
      decoded crc32 format (u (volume.locate f)) = some records ∧
      Transition.run (convert crc32 format volume cli)
        (Function.update u out (some (.pcap (writePackets cli.filterPort records)))) after =
          some s := by
  rw [Transition.run_append, Option.bind_eq_some_iff] at hrun
  obtain ⟨u, hu, hrest⟩ := hrun
  rw [Transition.run_cons, Option.bind_eq_some_iff] at hrest
  obtain ⟨v, hv, hafter⟩ := hrest
  obtain ⟨out, records, hout, hrecords, rfl⟩ := convert_output hv
  exact ⟨u, out, records, hu, hout, hrecords, hafter⟩

/-- A packet that a conversion writes comes from a file that no conversion has written. -/
theorem WrittenBy.carries {content : Option Content} {before after : List Path}
    (h : WrittenBy crc32 format volume cli start fs n content before after g)
    {packets : List PcapPacket} (hcontent : content = some (.pcap packets)) (hp : p ∈ packets) :
    Survives volume cli fs g ∧ Carries crc32 format volume cli start g p := by
  obtain ⟨s, records, hrun, hrecords, hpackets⟩ := h.packets
  obtain ⟨rec, hrec, hkept⟩ : ∃ rec ∈ records, passes cli.filterPort rec = true ∧
      rec.toPacket = p := by
    obtain rfl : packets = writePackets cli.filterPort records := by
      injection hcontent.symm.trans hpackets with heq
      injection heq
    exact mem_writePackets.mp hp
  rcases written_or_same hrun (volume.locate g) with ⟨_, _, _, hwritten⟩ | ⟨hnone, hsame⟩
  · -- a file that was written has no records any more
    obtain ⟨_, records', -, -, hpcap⟩ := hwritten.packets
    rw [hpcap, decoded_pcap] at hrecords
    rw [← Option.some.inj hrecords] at hrec
    cases hrec
  · rw [hsame] at hrecords
    refine ⟨⟨before, after, h.split, hnone, fun h' hh' => ?_⟩, records, hrecords, rec, hrec, hkept⟩
    rw [h.output]
    exact h.last h' hh'

omit [DecidableEq ν] in
theorem mem_packetsOf : p ∈ packetsOf crc32 format volume cli start f ↔
    Carries crc32 format volume cli start f p := by
  unfold packetsOf Carries
  cases decoded crc32 format (start (volume.locate f)) with
  | none => exact iff_of_false List.not_mem_nil fun ⟨_, h, _⟩ => nomatch h
  | some records =>
    rw [Option.getD_some, mem_writePackets]
    constructor
    · exact fun h => ⟨records, rfl, h⟩
    · rintro ⟨_, ⟨⟩, h⟩
      exact h

/-- **A file that survives** becomes the packets of its records, in order. -/
theorem Survives.output (h : Survives volume cli fs f)
    (hrun : Transition.run (convert crc32 format volume cli) start fs = some s) :
    f ∈ fs ∧ ∃ out, outputFile volume cli f = some out ∧
      s out = some (.pcap (packetsOf crc32 format volume cli start f)) := by
  obtain ⟨before, after, rfl, hread, hlast⟩ := h
  obtain ⟨u, out, records, hu, houtput, hrecords, hafter⟩ := run_of_mem hrun
  refine ⟨List.mem_append_right _ List.mem_cons_self, out, houtput, ?_⟩
  have hsame : packetsOf crc32 format volume cli start f =
      writePackets cli.filterPort records := by
    rcases written_or_same hu (volume.locate f) with ⟨_, _, g, hwritten⟩ | ⟨-, hunchanged⟩
    · have hmem : g ∈ before := hwritten.split ▸ List.mem_append_right _ List.mem_cons_self
      exact absurd hwritten.output (hread g hmem)
    · rw [packetsOf, ← hunchanged, hrecords, Option.getD_some]
  rcases written_or_same hafter out with ⟨_, _, g, hwritten⟩ | ⟨-, hunchanged⟩
  · have hmem : g ∈ after := hwritten.split ▸ List.mem_append_right _ List.mem_cons_self
    exact absurd (hwritten.output.trans houtput.symm) (hlast g hmem)
  · rw [hunchanged, Function.update_self, hsame]

/-- It has its packets in its output. -/
theorem Survives.kept (h : Survives volume cli fs f)
    (hrun : Transition.run (convert crc32 format volume cli) start fs = some s)
    (hcarries : Carries crc32 format volume cli start f p) :
    f ∈ fs ∧ ∃ out packets, outputFile volume cli f = some out ∧ s out = some (.pcap packets) ∧
      p ∈ packets := by
  obtain ⟨hf, out, houtput, hs⟩ := h.output hrun
  exact ⟨hf, out, _, houtput, hs, mem_packetsOf.mpr hcarries⟩

/-! ## How often -/

instance (before : List Path) (f : Path) (after : List Path) :
    Decidable (Undisturbed volume cli before f after) := inferInstanceAs (Decidable (_ ∧ _))

/-- The files that survive, when those in `before` have been converted. -/
def survivors (volume : Volume ν) (cli : Cli) (before : List Path) : List Path → List Path
  | [] => []
  | f :: after =>
    if Undisturbed volume cli before f after then
      f :: survivors volume cli (before ++ [f]) after
    else survivors volume cli (before ++ [f]) after

theorem mem_survivors {before fs : List Path} : f ∈ survivors volume cli before fs ↔
    ∃ pre post, fs = pre ++ f :: post ∧ Undisturbed volume cli (before ++ pre) f post := by
  induction fs generalizing before with
  | nil =>
    refine iff_of_false List.not_mem_nil ?_
    rintro ⟨pre, post, heq, -⟩
    exact absurd heq (by simp)
  | cons g after ih =>
    have hrest : f ∈ survivors volume cli (before ++ [g]) after ↔ ∃ pre post,
        after = pre ++ f :: post ∧ Undisturbed volume cli (before ++ g :: pre) f post := by
      simp only [ih, List.append_assoc, List.singleton_append]
    have hsplit : (∃ pre post, g :: after = pre ++ f :: post ∧
        Undisturbed volume cli (before ++ pre) f post) ↔
        (g = f ∧ Undisturbed volume cli before g after) ∨ ∃ pre post,
          after = pre ++ f :: post ∧ Undisturbed volume cli (before ++ g :: pre) f post := by
      constructor
      · rintro ⟨pre, post, heq, hintact⟩
        cases pre with
        | nil =>
          obtain ⟨rfl, rfl⟩ := List.cons.inj heq
          rw [List.append_nil] at hintact
          exact Or.inl ⟨rfl, hintact⟩
        | cons g' pre =>
          obtain ⟨rfl, rfl⟩ := List.cons.inj heq
          exact Or.inr ⟨pre, post, rfl, hintact⟩
      · rintro (⟨rfl, hintact⟩ | ⟨pre, post, rfl, hintact⟩)
        · exact ⟨[], after, rfl, by rwa [List.append_nil]⟩
        · exact ⟨g :: pre, post, rfl, hintact⟩
    rw [hsplit, survivors]
    by_cases hintact : Undisturbed volume cli before g after
    · rw [if_pos hintact, List.mem_cons, hrest, eq_comm]
      exact or_congr_left (and_iff_left hintact).symm
    · rw [if_neg hintact, hrest]
      exact (or_iff_right fun h => hintact h.2).symm

theorem survivors_sublist (before fs : List Path) :
    (survivors volume cli before fs).Sublist fs := by
  induction fs generalizing before with
  | nil => exact List.Sublist.refl []
  | cons f after ih =>
    rw [survivors]
    split
    · exact (ih _).cons_cons f
    · exact (ih _).cons f

/-- Each of them has an output of its own. -/
theorem pairwise_survivors (before fs : List Path) :
    (survivors volume cli before fs).Pairwise
      fun f g => outputFile volume cli g ≠ outputFile volume cli f := by
  induction fs generalizing before with
  | nil => exact List.Pairwise.nil
  | cons f after ih =>
    rw [survivors]
    split
    · rename_i hintact
      exact List.pairwise_cons.mpr
        ⟨fun g hg => hintact.2 g ((survivors_sublist _ _).subset hg), ih _⟩
    · exact ih _

/-- All is counted exactly if what is not among them has nothing. -/
theorem sum_le_survivors_iff {count : PcapPacket → Path → Nat} (before fs : List Path) :
    (∀ p, (fs.map (count p)).sum ≤ ((survivors volume cli before fs).map (count p)).sum) ↔
      ∀ pre f post, fs = pre ++ f :: post → (∃ p, count p f ≠ 0) →
        Undisturbed volume cli (before ++ pre) f post := by
  induction fs generalizing before with
  | nil =>
    refine iff_of_true (fun p => Nat.le_refl _) fun pre f post heq => ?_
    exact absurd heq (by simp)
  | cons g after ih =>
    have hless : ∀ p, ((survivors volume cli (before ++ [g]) after).map (count p)).sum ≤
        (after.map (count p)).sum := fun p =>
      ((survivors_sublist (before ++ [g]) after).map (count p)).sum_le_sum
        fun _ _ => Nat.zero_le _
    have hhead : (∀ p, ((g :: after).map (count p)).sum ≤
        ((survivors volume cli before (g :: after)).map (count p)).sum) ↔
        ((∃ p, count p g ≠ 0) → Undisturbed volume cli before g after) ∧ ∀ p,
          (after.map (count p)).sum ≤
            ((survivors volume cli (before ++ [g]) after).map (count p)).sum := by
      by_cases hintact : Undisturbed volume cli before g after
      · have hthere : survivors volume cli before (g :: after) =
            g :: survivors volume cli (before ++ [g]) after := if_pos hintact
        simp only [hthere, List.map_cons, List.sum_cons, Nat.add_le_add_iff_left, hintact,
          implies_true, true_and]
      · have hgone : survivors volume cli before (g :: after) =
            survivors volume cli (before ++ [g]) after := if_neg hintact
        simp only [hgone, List.map_cons, List.sum_cons, hintact, imp_false, not_exists, not_not]
        constructor
        · intro h
          refine ⟨fun p => ?_, fun p => ?_⟩
          · have hp := h p
            have hl := hless p
            omega
          · exact Nat.le_trans (Nat.le_add_left _ _) (h p)
        · rintro ⟨hzero, h⟩ p
          rw [hzero p, Nat.zero_add]
          exact h p
    rw [hhead, ih]
    constructor
    · rintro ⟨hfirst, hrest⟩ pre f post heq hcount
      cases pre with
      | nil =>
        obtain ⟨rfl, rfl⟩ := List.cons.inj heq
        rw [List.append_nil]
        exact hfirst hcount
      | cons g' pre =>
        obtain ⟨rfl, rfl⟩ := List.cons.inj heq
        have hintact := hrest pre f post rfl hcount
        rwa [List.append_assoc] at hintact
    · intro h
      refine ⟨fun hcount => ?_, fun pre f post heq hcount => ?_⟩
      · have hintact := h [] g after rfl hcount
        rwa [List.append_nil] at hintact
      · have hintact := h (g :: pre) f post (congrArg (g :: ·) heq) hcount
        rwa [List.append_assoc]

/-- What the outputs have, where each is read as one of the files. -/
theorem map_filterMap_eq {α β γ : Type} {o : α → Option β} {c : β → γ} {d : α → γ} {l : List α}
    (h : ∀ a ∈ l, ∃ b, o a = some b ∧ c b = d a) : (l.filterMap o).map c = l.map d := by
  induction l with
  | nil => rfl
  | cons a l ih =>
    obtain ⟨b, hb, hc⟩ := h a List.mem_cons_self
    rw [List.filterMap_cons_some hb, List.map_cons, List.map_cons, hc,
      ih fun a' ha' => h a' (List.mem_cons_of_mem a ha')]

theorem survives_iff_mem_survivors :
    Survives volume cli fs f ↔ f ∈ survivors volume cli [] fs := by
  rw [mem_survivors]
  simp only [Survives, List.nil_append]

/-- **The outputs of a batch** have each packet as often as the files that survive. -/
theorem sum_outputs (hrun : Transition.run (convert crc32 format volume cli) start fs = some s)
    (p : PcapPacket) :
    ∑ out ∈ (fs.filterMap (outputFile volume cli)).toFinset, (Content.packets (s out)).count p =
      ((survivors volume cli [] fs).map fun f =>
        (packetsOf crc32 format volume cli start f).count p).sum := by
  have houtputs : ∀ f ∈ survivors volume cli [] fs, ∃ out, outputFile volume cli f = some out ∧
      (Content.packets (s out)).count p =
        (packetsOf crc32 format volume cli start f).count p := by
    intro f hf
    obtain ⟨-, out, houtput, hs⟩ := (survives_iff_mem_survivors.mpr hf).output hrun
    exact ⟨out, houtput, by rw [hs]; rfl⟩
  have hnodup : ((survivors volume cli [] fs).filterMap (outputFile volume cli)).Nodup := by
    refine List.pairwise_filterMap.mpr ((pairwise_survivors [] fs).imp ?_)
    rintro f g hne out hout _ hout' rfl
    exact hne (hout'.trans hout.symm)
  rw [← map_filterMap_eq houtputs, ← List.sum_toFinset _ hnodup]
  refine (Finset.sum_subset ?_ fun out hout hnone => ?_).symm
  · intro out hout
    exact List.mem_toFinset.mpr
      (((survivors_sublist [] fs).filterMap _).subset (List.mem_toFinset.mp hout))
  · -- an output with packets is that of a file that survives
    rw [List.count_eq_zero]
    intro hp
    obtain ⟨g, hg, houtput⟩ := List.mem_filterMap.mp (List.mem_toFinset.mp hout)
    rcases written_or_same hrun out with ⟨_, _, g', hwritten⟩ | ⟨hnobody, -⟩
    · obtain ⟨_, _, -, -, hpackets⟩ := hwritten.packets
      rw [hpackets] at hp
      obtain ⟨hsurvives, -⟩ := hwritten.carries hpackets hp
      refine hnone (List.mem_toFinset.mpr (List.mem_filterMap.mpr ⟨g', ?_, hwritten.output⟩))
      exact survives_iff_mem_survivors.mp hsurvives
    · exact hnobody g hg houtput

theorem keepsOccurrences_iff
    (hrun : Transition.run (convert crc32 format volume cli) start fs = some s) :
    KeepsOccurrences crc32 format volume cli fs start s ↔ ∀ before f after,
      fs = before ++ f :: after → (∃ p, Carries crc32 format volume cli start f p) →
        Undisturbed volume cli before f after := by
  have hcarries : ∀ f, (∃ p, (packetsOf crc32 format volume cli start f).count p ≠ 0) ↔
      ∃ p, Carries crc32 format volume cli start f p := fun f =>
    exists_congr fun p => by rw [← mem_packetsOf, ← List.count_pos_iff, Nat.pos_iff_ne_zero]
  unfold KeepsOccurrences
  simp only [sum_outputs hrun]
  rw [sum_le_survivors_iff]
  simp only [hcarries, List.nil_append]

/-! ## Which packets are kept -/

/-- **Batches keep every packet** exactly if each packet of each file is also one of a file
that is read as it was and whose output is not written again; and they keep each as often as
it was there exactly if every file with packets is one of these. -/
theorem keeps_packets_iff (h : sov2pcap crc32 format volume cli start = some s) :
    ∃ fs, cli.files volume = some fs ∧
      (KeepsPackets crc32 format volume cli fs start s ↔
        ∀ f ∈ fs, ∀ p, Carries crc32 format volume cli start f p →
          ∃ g, Survives volume cli fs g ∧ Carries crc32 format volume cli start g p) ∧
      (KeepsOccurrences crc32 format volume cli fs start s ↔
        ∀ before f after, fs = before ++ f :: after →
          (∃ p, Carries crc32 format volume cli start f p) →
            Undisturbed volume cli before f after) := by
  obtain ⟨fs, hfs, hrun⟩ := Option.bind_eq_some_iff.mp h
  refine ⟨fs, hfs, ?_, keepsOccurrences_iff hrun⟩
  constructor
  · intro hkeeps f hf p hcarries
    obtain ⟨g, hg, out, packets, houtput, hout, hp⟩ := hkeeps f hf p hcarries
    rcases written_or_same hrun out with ⟨_, _, g', hwritten⟩ | ⟨hnone, -⟩
    · exact ⟨g', hwritten.carries hout hp⟩
    · exact absurd houtput (hnone g hg)
  · intro hall f hf p hcarries
    obtain ⟨g, hsurvives, hcarries'⟩ := hall f hf p hcarries
    obtain ⟨hg, out, packets, houtput, hout, hp⟩ := hsurvives.kept hrun hcarries'
    exact ⟨g, hg, out, packets, houtput, hout, hp⟩

/-- A directory `d` with two files, on a disk without links. -/
def sampleVolume : Volume Path where
  readDir dir := if dir = ascii "d" then some [ascii "a.wal", ascii "b.wal"] else none
  createDirAll _ := true
  creates _ := true
  locate f := f

/-- The record in the second file. -/
def sampleAnswer : WalRecord := { sampleRecord with srcPort := 443, dstPort := 12345 }

/-- A record in each of the two files. -/
def sampleContents : Contents Path := fun f =>
  if f = ascii "d/a.wal" then some (.raw (WalRecord.encoding Crc.ieee [sampleRecord]))
  else if f = ascii "d/b.wal" then some (.raw (WalRecord.encoding Crc.ieee [sampleAnswer]))
  else none

/-- `--dir d`, for one port. -/
def sampleCli (output outDir : Option Path) : Cli where
  input := none
  dir := some (ascii "d")
  output := output
  outDir := outDir
  filterPort := some 443

theorem sampleCli_files (output outDir : Option Path) :
    (sampleCli output outDir).files sampleVolume = some [ascii "d/a.wal", ascii "d/b.wal"] := by
  have hpaths : ([ascii "a.wal", ascii "b.wal"].map (join (ascii "d"))).filter
      (fun p => extension p = some (ascii "wal")) = [ascii "d/a.wal", ascii "d/b.wal"] := by
    decide +kernel
  have hsorted : [ascii "d/a.wal", ascii "d/b.wal"].Pairwise fun a b => pathLe a b = true := by
    decide +kernel
  show some (List.mergeSort (List.filter _ _) pathLe) = _
  rw [hpaths, List.mergeSort_of_pairwise hsorted]

/-- The conversion of a file with one record, which passes. -/
theorem convert_sample (contents : Contents Path) {output outDir : Option Path} {f out : Path}
    {rec : WalRecord} (hencodable : rec.Encodable)
    (hcontents : contents f = some (.raw (WalRecord.encoding Crc.ieee [rec])))
    (hpasses : passes (some 443) rec.normalised = true)
    (hfits : rec.normalised.toPacket.Fits)
    (hout : outputPath sampleVolume (sampleCli output outDir) f = some out) :
    convert Crc.ieee PcapFormat.standard sampleVolume (sampleCli output outDir) contents f =
      some (Function.update contents out (some (.pcap [rec.normalised.toPacket]))) := by
  have hpackets : writePackets (some 443) [rec.normalised] = [rec.normalised.toPacket] := by
    rw [writePackets, if_pos hpasses, writePackets]
  refine convert_eq_some.mpr ⟨out, [rec.normalised], hout, ?_, rfl, ?_, ?_⟩
  · show decoded Crc.ieee PcapFormat.standard (contents f) = _
    rw [hcontents, decoded_frame _ _ hencodable]
  · intro p hp
    have hpacket : p = rec.normalised.toPacket := List.mem_singleton.mp (hpackets ▸ hp)
    exact hpacket ▸ PcapFormat.standard.accepts_of_fits _ hfits
  · show _ = Function.update contents out (some (.pcap (writePackets (some 443) _)))
    rw [hpackets]

/-- A run over the two files. -/
theorem sov2pcap_sample {output outDir : Option Path} {out out' : Path}
    (hout : outputPath sampleVolume (sampleCli output outDir) (ascii "d/a.wal") = some out)
    (hout' : outputPath sampleVolume (sampleCli output outDir) (ascii "d/b.wal") = some out')
    (hne : ascii "d/b.wal" ≠ out) :
    sov2pcap Crc.ieee PcapFormat.standard sampleVolume (sampleCli output outDir) sampleContents =
      some (Function.update
        (Function.update sampleContents out (some (.pcap [sampleRecord.normalised.toPacket])))
        out' (some (.pcap [sampleAnswer.normalised.toPacket]))) := by
  have hanswer : sampleAnswer.Encodable := ⟨by decide, by decide⟩
  have hkept : Function.update sampleContents out
      (some (.pcap [sampleRecord.normalised.toPacket])) (ascii "d/b.wal") =
        some (.raw (WalRecord.encoding Crc.ieee [sampleAnswer])) := Function.update_of_ne hne _ _
  have hfirst := convert_sample sampleContents sampleRecord_encodable rfl (by decide)
    (by decide +kernel) hout
  have hsecond := convert_sample _ hanswer hkept (by decide) (by decide +kernel) hout'
  rw [sov2pcap, sampleCli_files, Option.bind_eq_bind, Option.bind_some, Transition.run_cons, hfirst,
    Option.bind_some, Transition.run_cons, hsecond, Option.bind_some, Transition.run_nil]

theorem keeps_packets_iff_two :
    ∃ s, sov2pcap Crc.ieee PcapFormat.standard sampleVolume (sampleCli none (some (ascii "out")))
        sampleContents = some s ∧
      ∃ fs, (sampleCli none (some (ascii "out"))).files sampleVolume = some fs ∧
        KeepsPackets Crc.ieee PcapFormat.standard sampleVolume
          (sampleCli none (some (ascii "out"))) fs sampleContents s ∧
        KeepsOccurrences Crc.ieee PcapFormat.standard sampleVolume
          (sampleCli none (some (ascii "out"))) fs sampleContents s := by
  have hout : outputPath sampleVolume (sampleCli none (some (ascii "out"))) (ascii "d/a.wal") =
      some (ascii "out/a.pcap") := by decide +kernel
  have hout' : outputPath sampleVolume (sampleCli none (some (ascii "out"))) (ascii "d/b.wal") =
      some (ascii "out/b.pcap") := by decide +kernel
  have hrun := sov2pcap_sample hout hout' (by decide)
  obtain ⟨fs, hfs, hkeeps, hoccurrences⟩ := keeps_packets_iff hrun
  obtain rfl := Option.some.inj ((sampleCli_files _ _).symm.trans hfs)
  have hfirst : Undisturbed sampleVolume (sampleCli none (some (ascii "out"))) [] (ascii "d/a.wal")
      [ascii "d/b.wal"] := by decide +kernel
  have hsecond : Undisturbed sampleVolume (sampleCli none (some (ascii "out"))) [ascii "d/a.wal"]
      (ascii "d/b.wal") [] := by decide +kernel
  have hintact : ∀ before f after, [ascii "d/a.wal", ascii "d/b.wal"] = before ++ f :: after →
      Undisturbed sampleVolume (sampleCli none (some (ascii "out"))) before f after := by
    intro before f after heq
    rcases before with _ | ⟨g, _ | ⟨g', before⟩⟩
    · obtain ⟨rfl, rfl⟩ := List.cons.inj heq
      exact hfirst
    · obtain ⟨rfl, hrest⟩ := List.cons.inj heq
      obtain ⟨rfl, rfl⟩ := List.cons.inj hrest
      exact hsecond
    · have hlength := congrArg List.length heq
      simp at hlength
  refine ⟨_, hrun, _, hfs, hkeeps.mpr fun f hf p hcarries => ?_,
    hoccurrences.mpr fun before f after heq _ => hintact before f after heq⟩
  obtain ⟨before, after, hsplit⟩ := List.append_of_mem hf
  exact ⟨f, ⟨before, after, hsplit, hintact before f after hsplit⟩, hcarries⟩

/-- **One `--output` for two files** has the packets of the second one only. -/
theorem output_of_directory_overwritten :
    ¬ ∀ (crc32 : List UInt8 → UInt32) (format : PcapFormat) (volume : Volume Path) (cli : Cli)
        (start s : Contents Path) (fs : List Path), cli.files volume = some fs →
        sov2pcap crc32 format volume cli start = some s →
        KeepsPackets crc32 format volume cli fs start s := by
  intro h
  have hout : ∀ f, outputPath sampleVolume (sampleCli (some (ascii "out.pcap")) none) f =
      some (ascii "out.pcap") := fun _ => rfl
  have hrun := sov2pcap_sample (hout _) (hout _) (by decide)
  have hcarries : Carries Crc.ieee PcapFormat.standard sampleVolume
      (sampleCli (some (ascii "out.pcap")) none) sampleContents (ascii "d/a.wal")
      sampleRecord.normalised.toPacket := by
    refine ⟨[sampleRecord.normalised], ?_, _, List.mem_singleton_self _, by decide, rfl⟩
    exact decoded_frame _ _ sampleRecord_encodable
  obtain ⟨g, -, out, packets, hout, hwritten, hp⟩ :=
    h _ _ _ _ _ _ _ (sampleCli_files _ _) hrun _ List.mem_cons_self _ hcarries
  obtain rfl : ascii "out.pcap" = out := Option.some.inj hout
  rw [Function.update_self] at hwritten
  obtain rfl : [sampleAnswer.normalised.toPacket] = packets := by
    injection hwritten with heq
    injection heq
  -- the two packets have different ports
  exact absurd hp (by decide +kernel)

end Batch

/-! ## Directories

The files of a directory have their own names, which end in `.wal`; so the names of the
outputs are their own as well, and end in `.pcap`. -/

/-- What is taken of the path is printed as it is. -/
def Printable (cli : Cli) (f : Path) : Prop :=
  match cli.outDir with
  | some _ => ∀ stem, fileStem f = some stem → lossy stem = stem
  | none => lossy f = f

/-- An input or an output of the batch. -/
def InUse (volume : Volume ν) (cli : Cli) (fs : List Path) (f : Path) : Prop :=
  f ∈ fs ∨ ∃ g ∈ fs, outputPath volume cli g = some f

/-- The directory of a batch, and what `main` does with it. -/
structure Listed (volume : Volume ν) (cli : Cli) (dir : Path) (names fs : List Path) : Prop where
  dir_eq : cli.dir = some dir
  names_eq : volume.readDir dir = some names
  files_eq : cli.files volume = some fs
  entries : ∀ name ∈ names, IsEntry name
  nodup : names.Nodup

namespace Listed

variable {dir : Path} {names : List Path}

theorem files_perm (h : Listed volume cli dir names fs) :
    fs.Perm ((names.map (join dir)).filter fun p => extension p = some (ascii "wal")) := by
  have hfiles := h.files_eq
  rw [Cli.files, h.dir_eq] at hfiles
  obtain ⟨_, hread, hsort⟩ := Option.bind_eq_some_iff.mp hfiles
  obtain rfl := Option.some.inj (h.names_eq.symm.trans hread)
  rw [← Option.some.inj hsort]
  exact List.mergeSort_perm _ _

theorem files_nodup (h : Listed volume cli dir names fs) : fs.Nodup := by
  rw [h.files_perm.nodup_iff]
  exact (h.nodup.map (join_injective dir)).filter _

/-- A file of the batch is a stem and `.wal`. -/
theorem file_eq (h : Listed volume cli dir names fs) (hf : f ∈ fs) :
    ∃ stem, fileStem f = some stem ∧ f = join dir (stem ++ dot :: ascii "wal") := by
  obtain ⟨hmem, hext⟩ := List.mem_filter.mp (h.files_perm.mem_iff.mp hf)
  obtain ⟨name, hname, rfl⟩ := List.mem_map.mp hmem
  obtain ⟨stem, hstem, hfile⟩ := fileName_of_extension (of_decide_eq_true hext)
  rw [fileName_join (h.entries name hname)] at hfile
  exact ⟨stem, hstem, congrArg (join dir) (Option.some.inj hfile)⟩

end Listed

/-- The output for a file whose name is printed as it is. -/
theorem outputPath_eq_some {out : Path} (hmode : cli.outDir = none → cli.output = none)
    (hprintable : Printable cli f) (hout : outputPath volume cli f = some out) :
    (∃ dir stem, cli.outDir = some dir ∧ fileStem f = some stem ∧
        out = join dir (stem ++ ascii ".pcap")) ∨
      cli.outDir = none ∧ out = f ++ ascii ".pcap" := by
  unfold outputPath at hout
  unfold Printable at hprintable
  cases houtDir : cli.outDir with
  | some dir =>
    simp only [houtDir] at hout hprintable
    by_cases hcreated : volume.createDirAll dir = true
    · rw [if_pos hcreated] at hout
      obtain ⟨stem, hstem, hjoin⟩ := Option.bind_eq_some_iff.mp hout
      refine Or.inl ⟨dir, stem, rfl, hstem, ?_⟩
      rw [← Option.some.inj hjoin, hprintable stem hstem]
    · rw [if_neg hcreated] at hout
      cases hout
  | none =>
    simp only [houtDir, hmode houtDir] at hout hprintable
    refine Or.inr ⟨rfl, ?_⟩
    rw [← Option.some.inj hout, hprintable]

theorem outputPath_suffix {out : Path} (hmode : cli.outDir = none → cli.output = none)
    (hprintable : Printable cli f) (hout : outputPath volume cli f = some out) :
    ∃ front, out = front ++ ascii ".pcap" := by
  rcases outputPath_eq_some hmode hprintable hout with ⟨dir, stem, -, -, rfl⟩ | ⟨-, rfl⟩
  · obtain ⟨front, hfront⟩ := join_eq_append dir
    exact ⟨front ++ stem, by rw [hfront, List.append_assoc]⟩
  · exact ⟨f, rfl⟩

namespace Listed

variable {dir : Path} {names : List Path}

/-- An output is not one of the files. -/
theorem outputPath_ne (h : Listed volume cli dir names fs)
    (hmode : cli.outDir = none → cli.output = none) (hprintable : Printable cli g) (hf : f ∈ fs) :
    outputPath volume cli g ≠ some f := by
  intro hout
  obtain ⟨front, hpcap⟩ := outputPath_suffix hmode hprintable hout
  obtain ⟨stem, -, hwal⟩ := h.file_eq hf
  obtain ⟨front', hfront'⟩ := join_eq_append dir
  rw [hfront'] at hwal
  -- the one ends in a `p`, the other in an `l`
  have hlast : f.getLast? = some 112 := by
    rw [hpcap, List.getLast?_append]
    rfl
  have hlast' : f.getLast? = some 108 := by
    rw [hwal, ← List.append_assoc, List.getLast?_append]
    rfl
  exact absurd (hlast.symm.trans hlast') (by decide)

/-- Different files have different outputs. -/
theorem outputPath_injective (h : Listed volume cli dir names fs)
    (hmode : cli.outDir = none → cli.output = none)
    (hprintable : ∀ f ∈ fs, Printable cli f) (hf : f ∈ fs) (hg : g ∈ fs) {out : Path}
    (hout : outputPath volume cli f = some out) (hout' : outputPath volume cli g = some out) :
    f = g := by
  rcases outputPath_eq_some hmode (hprintable f hf) hout with
    ⟨outDir, stem, houtDir, hstem, hpath⟩ | ⟨hnone, hpath⟩
  · rcases outputPath_eq_some hmode (hprintable g hg) hout' with
      ⟨outDir', stem', houtDir', hstem', hpath'⟩ | ⟨hnone, -⟩
    · obtain rfl := Option.some.inj (houtDir.symm.trans houtDir')
      have hstems : stem = stem' :=
        List.append_cancel_right (join_injective outDir (hpath.symm.trans hpath'))
      obtain ⟨_, hf_stem, hf_eq⟩ := h.file_eq hf
      obtain ⟨_, hg_stem, hg_eq⟩ := h.file_eq hg
      rw [hf_eq, hg_eq, ← Option.some.inj (hstem.symm.trans hf_stem),
        ← Option.some.inj (hstem'.symm.trans hg_stem), hstems]
    · rw [houtDir] at hnone
      cases hnone
  · rcases outputPath_eq_some hmode (hprintable g hg) hout' with
      ⟨_, _, houtDir, -, -⟩ | ⟨-, hpath'⟩
    · rw [houtDir] at hnone
      cases hnone
    · exact List.append_cancel_right (hpath.symm.trans hpath')

/-- No conversion is undone by another one. -/
theorem intact (h : Listed volume cli dir names fs)
    (hmode : cli.outDir = none → cli.output = none) (hprintable : ∀ f ∈ fs, Printable cli f)
    (hlocate : Set.InjOn volume.locate {f | InUse volume cli fs f}) {before after : List Path}
    (hsplit : fs = before ++ f :: after) {n : ν} (houtput : outputFile volume cli f = some n) :
    Undisturbed volume cli before f after := by
  obtain ⟨out, hout, rfl⟩ := Option.map_eq_some_iff.mp houtput
  have hf : f ∈ fs := hsplit ▸ List.mem_append_right _ List.mem_cons_self
  have hnodup : (before ++ f :: after).Nodup := hsplit ▸ h.files_nodup
  refine ⟨fun g hg hread => ?_, fun g hg hsame => ?_⟩
  · have hgfs : g ∈ fs := hsplit ▸ List.mem_append_left _ hg
    obtain ⟨out', hout', hlocated⟩ := Option.map_eq_some_iff.mp hread
    have heq : out' = f := hlocate (Or.inr ⟨g, hgfs, hout'⟩) (Or.inl hf) hlocated
    exact h.outputPath_ne hmode (hprintable g hgfs) hf (hout'.trans (congrArg some heq))
  · have hgfs : g ∈ fs := hsplit ▸ List.mem_append_right _ (List.mem_cons_of_mem f hg)
    obtain ⟨out', hout', hlocated⟩ := Option.map_eq_some_iff.mp (hsame.trans houtput)
    have heq : out' = out :=
      hlocate (Or.inr ⟨g, hgfs, hout'⟩) (Or.inr ⟨f, hf, hout⟩) hlocated
    obtain rfl := h.outputPath_injective hmode hprintable hgfs hf hout' (heq ▸ hout)
    exact (List.nodup_cons.mp hnodup.of_append_right).1 hg

/-- Every file survives. -/
theorem survives (h : Listed volume cli dir names fs)
    (hmode : cli.outDir = none → cli.output = none) (hprintable : ∀ f ∈ fs, Printable cli f)
    (hlocate : Set.InjOn volume.locate {f | InUse volume cli fs f}) (hf : f ∈ fs)
    {n : ν} (houtput : outputFile volume cli f = some n) : Survives volume cli fs f := by
  obtain ⟨before, after, hsplit⟩ := List.append_of_mem hf
  exact ⟨before, after, hsplit, h.intact hmode hprintable hlocate hsplit houtput⟩

end Listed

/-- **With `--out-dir`, or without `--output`,** nothing is lost of a directory whose names are
printed as they are, if no two of its files and their outputs are the same file. -/
theorem keeps_packets_of_printable [DecidableEq ν] {dir : Path} {names : List Path}
    (h : Listed volume cli dir names fs) (hmode : cli.outDir = none → cli.output = none)
    (hprintable : ∀ f ∈ fs, Printable cli f)
    (hlocate : Set.InjOn volume.locate {f | InUse volume cli fs f})
    (hrun : sov2pcap crc32 format volume cli start = some s) :
    KeepsPackets crc32 format volume cli fs start s ∧
      KeepsOccurrences crc32 format volume cli fs start s := by
  obtain ⟨fs', hfs', hruns⟩ := Option.bind_eq_some_iff.mp hrun
  obtain rfl := Option.some.inj (hfs'.symm.trans h.files_eq)
  have hintact : ∀ before f after, fs' = before ++ f :: after →
      Undisturbed volume cli before f after := by
    intro before f after hsplit
    obtain ⟨_, n, _, -, houtput, -⟩ := run_of_mem (hsplit ▸ hruns)
    exact h.intact hmode hprintable hlocate hsplit houtput
  refine ⟨fun f hf p hcarries => ?_, (keepsOccurrences_iff hruns).mpr
    fun before f after hsplit _ => hintact before f after hsplit⟩
  obtain ⟨before, after, hsplit⟩ := List.append_of_mem hf
  have hsurvives : Survives volume cli fs' f :=
    ⟨before, after, hsplit, hintact before f after hsplit⟩
  obtain ⟨-, out, packets, hout, hpcap, hp⟩ := hsurvives.kept hruns hcarries
  exact ⟨f, hf, out, packets, hout, hpcap, hp⟩

end SovProbe
