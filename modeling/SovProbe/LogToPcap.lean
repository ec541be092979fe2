import SovProbe.BatchConversion
import SovProbe.Incarnations

/-! # From the log to the PCAP files

`sov2pcap --dir .. --out-dir ..` on a directory that the writer has left, after any
number of lives.  Each segment that is still there becomes a PCAP file of its own, with
the packets of its records in order.  Read in the order of the segment numbers, those of
a life are the packets of what the life accepted and did not evict, and nothing else.
-/

namespace SovProbe
open PathName WalRecord

variable {ν : Type} {crc32 : List UInt8 → UInt32} {format : PcapFormat}
  {volume : Volume ν} {cli : Cli} {s contents : Contents ν} {fs : List Path} {f : Path}

/-! ## A batch as a whole -/

section Batch

/-- Fewer records have fewer packets. -/
theorem Accepted.subset {filterPort : Option UInt16} {records records' : List WalRecord}
    (h : Accepted format filterPort records) (hsub : records' ⊆ records) :
    Accepted format filterPort records' := by
  intro p hp
  obtain ⟨rec, hrec, hpasses, rfl⟩ := mem_writePackets.mp hp
  exact h _ (mem_writePackets.mpr ⟨rec, hsub hrec, hpasses, rfl⟩)

/-- `pcap-file` takes the packets of what is in the file. -/
def Fitting (crc32 : List UInt8 → UInt32) (format : PcapFormat) (filterPort : Option UInt16)
    (bytes : List UInt8) : Prop :=
  ∀ records residual, decodeStream crc32 bytes = .ok (records, residual) →
    Accepted format filterPort records

variable [DecidableEq ν]

/-- A batch goes through if its files are there, their packets are taken, and their outputs can
be created.  A file that is written by the batch itself has no records any more. -/
theorem exists_run_convert (hout : ∀ f ∈ fs, ∃ out, outputPath volume cli f = some out ∧
      volume.creates out = true)
    (hthere : ∀ f ∈ fs, ∃ records, decoded crc32 format (contents (volume.locate f)) =
      some records ∧ Accepted format cli.filterPort records) :
    ∃ s, Transition.run (convert crc32 format volume cli) contents fs = some s := by
  induction fs generalizing contents with
  | nil => exact ⟨contents, rfl⟩
  | cons f fs ih =>
    obtain ⟨out, houtput, hcreates⟩ := hout f List.mem_cons_self
    obtain ⟨records, hrecords, haccepted⟩ := hthere f List.mem_cons_self
    have hconvert := convert_eq_some.mpr
      ⟨out, records, houtput, hrecords, hcreates, haccepted, rfl⟩
    have hthere' : ∀ g ∈ fs, ∃ records', decoded crc32 format (Function.update contents
        (volume.locate out) (some (.pcap (writePackets cli.filterPort records)))
          (volume.locate g)) = some records' ∧ Accepted format cli.filterPort records' := by
      intro g hg
      by_cases hsame : volume.locate g = volume.locate out
      · rw [hsame, Function.update_self, decoded_pcap]
        exact ⟨[], rfl, fun p hp => absurd hp List.not_mem_nil⟩
      · rw [Function.update_of_ne hsame]
        exact hthere g (List.mem_cons_of_mem f hg)
    obtain ⟨s, hs⟩ := ih (fun g hg => hout g (List.mem_cons_of_mem f hg)) hthere'
    exact ⟨s, by rw [Transition.run_cons, hconvert, Option.bind_some, hs]⟩

end Batch

/-! ## The writer's directory -/

/-- The directory of the writer, as the converter finds it under `dir`. -/
structure Mounted (volume : Volume ν) (contents : Contents ν) (dir : Path) (t : FileSystem) :
    Prop where
  readDir : volume.readDir dir = some t.names
  contents : ∀ name ∈ t, contents (volume.locate (join dir name)) = (t.file? name).map Content.raw

/-- The paths `main` reads and writes there stand for different files. -/
def Apart (volume : Volume ν) (cli : Cli) (dir : Path) (t : FileSystem) : Prop :=
  Set.InjOn volume.locate {f | (∃ name ∈ t, f = join dir name) ∨
    ∃ name ∈ t, outputPath volume cli (join dir name) = some f}

/-- The PCAP file of a segment. -/
def pcapPath (out : Path) (no : Nat) : Path :=
  join out (segmentPrefix ++ Decimal.pad 4 no ++ ascii ".pcap")

variable {dir out : Path} {t : FileSystem} {no : Nat}

theorem isStem_segment (no : Nat) : IsStem (segmentPrefix ++ Decimal.pad 4 no) where
  nonempty := List.append_ne_nil_of_left_ne_nil (by decide) _
  ascii b hb := by
    rcases List.mem_append.mp hb with hfront | hdigit
    · exact (by decide +kernel : ∀ b ∈ segmentPrefix, b < 0x80) b hfront
    · exact Decimal.lt_of_isDigit (Decimal.isDigit_of_mem_pad hdigit)
  noSlash hslash := by
    rcases List.mem_append.mp hslash with hfront | hdigit
    · exact absurd hfront (by decide)
    · exact absurd (Decimal.isDigit_of_mem_pad hdigit) (by decide)

theorem isEntry_segPath (no : Nat) : IsEntry (segPath no) :=
  (isStem_segment no).isEntry (by decide) (by decide)

theorem isEntry_ledgerPath : IsEntry ledgerPath := ⟨by decide, by decide, by decide, by decide⟩

section
variable {stem : Path} (h : IsStem stem)
include h

theorem extension_wal : extension (join dir (stem ++ dot :: ascii "wal")) = some (ascii "wal") :=
  h.extension_join (by decide) (by decide) (by decide)

theorem fileStem_wal : fileStem (join dir (stem ++ dot :: ascii "wal")) = some stem :=
  h.fileStem_join (by decide) (by decide) (by decide)

/-- A name of this kind is printed as it is. -/
theorem printable_wal (hout : cli.outDir = some out) :
    Printable cli (join dir (stem ++ dot :: ascii "wal")) := by
  unfold Printable
  rw [hout]
  intro stem' hstem
  rw [fileStem_wal h] at hstem
  exact Option.some.inj hstem ▸ h.lossy_eq

theorem outputPath_wal (hout : cli.outDir = some out) (hcreated : volume.createDirAll out = true) :
    outputPath volume cli (join dir (stem ++ dot :: ascii "wal")) =
      some (join out (stem ++ ascii ".pcap")) := by
  rw [outputPath, hout]
  simp only [hcreated, if_true, fileStem_wal h, Option.bind_eq_bind, Option.bind_some,
    h.lossy_eq]
  rfl

end

/-- The files of the writer are printed as they are. -/
theorem printable_of_written (hout : cli.outDir = some out) {name : FileName}
    (hname : (∃ no, name = segPath no) ∨ name = ledgerPath) : Printable cli (join dir name) := by
  rcases hname with ⟨no, rfl⟩ | rfl
  · exact printable_wal (isStem_segment no) hout
  · unfold Printable
    rw [hout]
    intro stem hstem
    rw [fileStem, fileName_join isEntry_ledgerPath] at hstem
    obtain rfl : ledgerPath = stem := Option.some.inj hstem
    exact lossy_of_ascii (by decide +kernel)

/-! ## A directory to convert -/

theorem mem_of_file? {name : FileName} {bytes : List UInt8} (h : t.file? name = some bytes) :
    name ∈ t := by
  obtain ⟨i, hi, -⟩ := Option.map_eq_some_iff.mp h
  exact AList.lookup_isSome.mp (hi ▸ rfl)

/-- The directory is there for `--dir dir --out-dir out`, and the files can be created. -/
structure Convertible (volume : Volume ν) (contents : Contents ν) (cli : Cli) (dir out : Path)
    (t : FileSystem) : Prop where
  mounted : Mounted volume contents dir t
  dir_eq : cli.dir = some dir
  outDir_eq : cli.outDir = some out
  created : volume.createDirAll out = true
  creates : ∀ f, volume.creates f = true
  apart : Apart volume cli dir t

/-- Each of these can be listed, and its name is printed as it is. -/
def Listable (cli : Cli) (dir : Path) (t : FileSystem) : Prop :=
  ∀ name ∈ t, IsEntry name ∧ Printable cli (join dir name)

namespace Convertible

/-- The files of the batch, none of which is lost. -/
theorem listed (h : Convertible volume contents cli dir out t) (hlistable : Listable cli dir t) :
    ∃ fs, Listed volume cli dir t.names fs ∧ (∀ f ∈ fs, ∃ name ∈ t, f = join dir name) ∧
      ∀ f ∈ fs, ∀ n, outputFile volume cli f = some n → Survives volume cli fs f := by
  have hfiles : ∃ fs, cli.files volume = some fs := by
    rw [Cli.files, h.dir_eq]
    simp only [h.mounted.readDir, Option.bind_eq_bind, Option.bind_some]
    exact ⟨_, rfl⟩
  obtain ⟨fs, hfs⟩ := hfiles
  have hlisted : Listed volume cli dir t.names fs :=
    ⟨h.dir_eq, h.mounted.readDir, hfs, fun name hname => (hlistable name hname).1, t.names_nodup⟩
  have hnames : ∀ f ∈ fs, ∃ name ∈ t, f = join dir name := by
    intro f hf
    obtain ⟨hmem, -⟩ := List.mem_filter.mp (hlisted.files_perm.mem_iff.mp hf)
    obtain ⟨name, hname, rfl⟩ := List.mem_map.mp hmem
    exact ⟨name, hname, rfl⟩
  have hmode : cli.outDir = none → cli.output = none := by
    intro hnone
    rw [h.outDir_eq] at hnone
    cases hnone
  have hprintable : ∀ f ∈ fs, Printable cli f := by
    intro f hf
    obtain ⟨name, hname, rfl⟩ := hnames f hf
    exact (hlistable name hname).2
  have hlocate : Set.InjOn volume.locate {f | InUse volume cli fs f} := by
    refine Set.InjOn.mono (fun f hf => ?_) h.apart
    rcases hf with hinput | ⟨g, hg, houtput⟩
    · exact Or.inl (hnames f hinput)
    · obtain ⟨name, hname, rfl⟩ := hnames g hg
      exact Or.inr ⟨name, hname, houtput⟩
  exact ⟨fs, hlisted, hnames, fun f hf n => hlisted.survives hmode hprintable hlocate hf⟩

/-- A file of the directory, as the converter reads it. -/
theorem decoded_eq (h : Convertible volume contents cli dir out t) {name : FileName}
    {bytes : List UInt8} (hbytes : t.file? name = some bytes) {records : List WalRecord}
    {residual : Nat} (hrecords : decodeStream crc32 bytes = .ok (records, residual)) :
    decoded crc32 format (contents (volume.locate (join dir name))) = some records := by
  rw [h.mounted.contents name (mem_of_file? hbytes), hbytes, Option.map_some]
  simp only [decoded, Option.bind_eq_bind, Option.bind_some, Content.bytes, hrecords]

/-- **The conversion goes through** if `pcap-file` takes the packets of every file `.wal`. -/
theorem goes_through [DecidableEq ν] (h : Convertible volume contents cli dir out t)
    (hlistable : Listable cli dir t) (hfitting : ∀ stem bytes,
      t.file? (stem ++ dot :: ascii "wal") = some bytes →
        Fitting crc32 format cli.filterPort bytes) :
    ∃ s, sov2pcap crc32 format volume cli contents = some s := by
  obtain ⟨fs, hlisted, hnames, -⟩ := h.listed hlistable
  have houtputs : ∀ f ∈ fs, ∃ out', outputPath volume cli f = some out' ∧
      volume.creates out' = true := by
    intro f hf
    obtain ⟨stem, hstem, -⟩ := hlisted.file_eq hf
    rw [outputPath, h.outDir_eq]
    simp only [h.created, if_true, hstem, Option.bind_eq_bind, Option.bind_some]
    exact ⟨_, rfl, h.creates _⟩
  have hthere : ∀ f ∈ fs, ∃ records, decoded crc32 format (contents (volume.locate f)) =
      some records ∧ Accepted format cli.filterPort records := by
    intro f hf
    obtain ⟨stem, -, hfile⟩ := hlisted.file_eq hf
    obtain ⟨name, hname, hpath⟩ := hnames f hf
    obtain rfl : name = stem ++ dot :: ascii "wal" :=
      join_injective dir (hpath.symm.trans hfile)
    obtain ⟨i, hi⟩ := Option.isSome_iff_exists.mp (AList.lookup_isSome.mpr hname)
    have hbytes := FileSystem.file?_of_lookup hi
    have hrecords := decodeStream_eq crc32 (t.content i)
    exact ⟨_, hpath ▸ h.decoded_eq hbytes hrecords, hfitting stem _ hbytes _ _ hrecords⟩
  obtain ⟨s, hrun⟩ := exists_run_convert houtputs hthere
  refine ⟨s, ?_⟩
  rw [sov2pcap, hlisted.files_eq]
  exact hrun

/-- **Each file `.wal`** becomes the packets of its records. -/
theorem output [DecidableEq ν] {s : Contents ν} (h : Convertible volume contents cli dir out t)
    (hlistable : Listable cli dir t) (hs : sov2pcap crc32 format volume cli contents = some s)
    {stem : Path} (hstem : IsStem stem) {bytes : List UInt8}
    (hbytes : t.file? (stem ++ dot :: ascii "wal") = some bytes) {records : List WalRecord}
    {residual : Nat} (hrecords : decodeStream crc32 bytes = .ok (records, residual)) :
    s (volume.locate (join out (stem ++ ascii ".pcap"))) =
      some (.pcap (writePackets cli.filterPort records)) := by
  obtain ⟨fs, hlisted, -, hsurvives⟩ := h.listed hlistable
  obtain ⟨fs', hfs', hrun⟩ := Option.bind_eq_some_iff.mp hs
  obtain rfl := Option.some.inj (hlisted.files_eq.symm.trans hfs')
  have hmem := mem_of_file? hbytes
  have hf : join dir (stem ++ dot :: ascii "wal") ∈ fs := by
    refine hlisted.files_perm.mem_iff.mpr (List.mem_filter.mpr ⟨List.mem_map_of_mem hmem, ?_⟩)
    exact decide_eq_true (extension_wal hstem)
  have houtput : outputFile volume cli (join dir (stem ++ dot :: ascii "wal")) =
      some (volume.locate (join out (stem ++ ascii ".pcap"))) := by
    rw [outputFile, outputPath_wal hstem h.outDir_eq h.created, Option.map_some]
  obtain ⟨-, n, hn, hpackets⟩ := (hsurvives _ hf _ houtput).output hrun
  obtain rfl := Option.some.inj (houtput.symm.trans hn)
  rw [hpackets, packetsOf, h.decoded_eq hbytes hrecords, Option.getD_some]

end Convertible

/-! ## What the lives leave -/

/-- What has become of the records `A`, written to the segments `opened` and cut off somewhere
or not: those in the first segments may have been evicted, and each of the other segments has
a PCAP file; together these have the packets of the rest, in order. -/
def Converted (volume : Volume ν) (out : Path) (filterPort : Option UInt16) (s : Contents ν)
    (t : FileSystem) (A : List WalRecord) (cut : Bool) (opened : List (FileName × Nat)) : Prop :=
  ∃ (gone kept : List (FileName × Nat)) (lost rest : List WalRecord)
    (outputs : List (List PcapPacket)),
    opened = gone ++ kept ∧ (∀ o ∈ gone, o.1 ∉ t) ∧ (gone = [] → lost = []) ∧
      List.Forall₂ (fun o packets => o.1 ∈ t ∧ ∃ no, o.1 = segPath no ∧
        s (volume.locate (pcapPath out no)) = some (.pcap packets)) kept outputs ∧
      outputs.flatten = writePackets filterPort rest ∧
      if cut then lost ++ rest <+: A.map normalised else lost ++ rest = A.map normalised

theorem writePackets_append (filterPort : Option UInt16) (records more : List WalRecord) :
    writePackets filterPort (records ++ more) =
      writePackets filterPort records ++ writePackets filterPort more := by
  induction records with
  | nil => rfl
  | cons rec records ih =>
    rw [List.cons_append, writePackets, writePackets]
    by_cases hpasses : passes filterPort rec = true
    · rw [if_pos hpasses, if_pos hpasses, ih, List.cons_append]
    · rw [if_neg hpasses, if_neg hpasses, ih]

theorem writePackets_flatten (filterPort : Option UInt16) (logs : List (List WalRecord)) :
    writePackets filterPort logs.flatten = (logs.map (writePackets filterPort)).flatten := by
  induction logs with
  | nil => rfl
  | cons log logs ih =>
    rw [List.flatten_cons, writePackets_append, ih, List.map_cons, List.flatten_cons]

/-- What the segments of a life decode to, one by one. -/
theorem Life.Kept.logs {l : Life} {opened : List (FileName × Nat)} (h : l.Kept crc32 t opened) :
    ∃ logs : List (List WalRecord),
      List.Forall₂ (fun o log => ∃ residual, decodeStream crc32 (t.content o.2) =
        .ok (log, residual)) opened logs ∧
      if l.killed then logs.flatten <+: (Received.accepted l.received).map normalised
      else logs.flatten = (Received.accepted l.received).map normalised := by
  unfold Life.Kept at h
  by_cases hkilled : l.killed = true
  · simp only [if_pos hkilled] at h ⊢
    obtain ⟨whole, last, logs, log, residual, rfl, hlogs, hlast, hA⟩ := h
    refine ⟨logs ++ [log], ?_, ?_⟩
    · exact List.rel_append (hlogs.imp fun _ _ hlog => ⟨0, hlog⟩)
        (List.Forall₂.cons ⟨residual, hlast⟩ List.Forall₂.nil)
    · rw [List.flatten_append, List.flatten_singleton]
      exact hA
  · simp only [if_neg hkilled] at h ⊢
    obtain ⟨logs, hlogs, hA⟩ := h
    exact ⟨logs, hlogs.imp fun _ _ hlog => ⟨0, hlog⟩, hA⟩

/-- The part of a list that goes with the second part of another. -/
theorem forall₂_append_left {α β : Type} {R : α → β → Prop} {as more : List α} {bs : List β}
    (h : List.Forall₂ R (as ++ more) bs) :
    ∃ cs ds, bs = cs ++ ds ∧ (as = [] → cs = []) ∧ List.Forall₂ R more ds := by
  induction as generalizing bs with
  | nil => exact ⟨[], bs, rfl, fun _ => rfl, h⟩
  | cons a as ih =>
    rw [List.cons_append, List.forall₂_cons_left_iff] at h
    obtain ⟨b, bs, -, htail, rfl⟩ := h
    obtain ⟨cs, ds, rfl, -, hmore⟩ := ih htail
    exact ⟨b :: cs, ds, rfl, fun hnil => absurd hnil (List.cons_ne_nil a as), hmore⟩

/-- The ledger is not converted. -/
theorem wal_ne_ledgerPath (stem : Path) : stem ++ dot :: ascii "wal" ≠ ledgerPath := by
  intro heq
  have hlast : (stem ++ dot :: ascii "wal").getLast? = some 108 := by
    rw [List.getLast?_append]
    rfl
  rw [heq] at hlast
  exact absurd hlast (by decide)

theorem forall₂_exists_of_mem {α β : Type} {R : α → β → Prop} {as : List α} {bs : List β}
    (h : List.Forall₂ R as bs) {a : α} (ha : a ∈ as) : ∃ b ∈ bs, R a b := by
  induction h with
  | nil => cases ha
  | cons hR _ ih =>
    rcases List.mem_cons.mp ha with rfl | hmem
    · exact ⟨_, List.mem_cons_self, hR⟩
    · obtain ⟨b, hb, hab⟩ := ih hmem
      exact ⟨b, List.mem_cons_of_mem _ hb, hab⟩

/-- A file of a life decodes to records that the life has accepted. -/
theorem Life.Kept.records {l : Life} {opened : List (FileName × Nat)} (h : l.Kept crc32 t opened)
    {o : FileName × Nat} (ho : o ∈ opened) : ∃ records residual,
      decodeStream crc32 (t.content o.2) = .ok (records, residual) ∧
      records ⊆ (Received.accepted l.received).map normalised := by
  obtain ⟨logs, hlogs, hA⟩ := h.logs
  have hsub : logs.flatten ⊆ (Received.accepted l.received).map normalised := by
    by_cases hkilled : l.killed = true
    · rw [if_pos hkilled] at hA
      exact hA.subset
    · rw [if_neg hkilled] at hA
      exact hA ▸ List.Subset.refl _
  obtain ⟨log, hlog, residual, hdecoded⟩ := forall₂_exists_of_mem hlogs ho
  exact ⟨log, residual, hdecoded,
    fun r hr => hsub (List.mem_flatten.mpr ⟨log, hlog, hr⟩)⟩

/-- **From the log to PCAP**, over any sequence of lives.  Whatever lives have passed, each
killed anywhere or come to its end, the conversion of the directory they have left goes
through, if `pcap-file` takes the packets of what they have accepted and of the files that
were there before.  What can then be read in the PCAP files of a life, in the order of its
segments, are the packets of the records it accepted, from the first one that has not been
evicted with its segment, and of no others: all of the rest if the life came to its end, and
the beginning of it if it was killed. -/
theorem Lived.converted [DecidableEq ν] {start : FileSystem} {limit fuel : Nat} {lives : List Life}
    (h : Lived crc32 fuel start lives t)
    (hstart : ∀ name ∈ segments start, ∃ no, no < limit ∧ name = segPath no)
    (hlimit : limit + (lives.map Life.cost).sum < 2 ^ 64) (hfuel : 2 ^ 64 < fuel)
    (hrecords : ∀ l ∈ lives, ∀ r ∈ Received.accepted l.received, r.Encodable)
    (hconvertible : Convertible volume contents cli dir out t) (hlistable : Listable cli dir start)
    (haccepted : ∀ l ∈ lives,
      Accepted format cli.filterPort ((Received.accepted l.received).map normalised))
    (hold : ∀ stem bytes, stem ++ dot :: ascii "wal" ∈ start →
      t.file? (stem ++ dot :: ascii "wal") = some bytes →
        Fitting crc32 format cli.filterPort bytes) :
    ∃ s made, sov2pcap crc32 format volume cli contents = some s ∧
      t.created = start.created ++ made.flatten ∧ Ascending made.flatten ∧
      List.Forall₂ (fun l opened => Converted volume out cli.filterPort s t
        (Received.accepted l.received) l.killed opened) lives made := by
  obtain ⟨made, nos, hgrown, hascent, hkept, hcanonical⟩ :=
    h.grown hstart hlimit hfuel hrecords
  have hwritten : ∀ name ∈ t, ((∃ no, name = segPath no) ∨ name = ledgerPath) ∨ name ∈ start := by
    intro name hmem
    rcases hgrown.others name hmem with hsegment | hledger | hold
    · obtain ⟨no, -, heq⟩ := hcanonical name (mem_segments.mpr ⟨hmem, hsegment⟩)
      exact Or.inl (Or.inl ⟨no, heq⟩)
    · exact Or.inl (Or.inr hledger)
    · exact Or.inr hold
  have hlistable' : Listable cli dir t := by
    intro name hmem
    rcases hwritten name hmem with hours | hthere
    · refine ⟨?_, printable_of_written hconvertible.outDir_eq hours⟩
      rcases hours with ⟨no, rfl⟩ | rfl
      · exact isEntry_segPath no
      · exact isEntry_ledgerPath
    · exact hlistable name hthere
  have hfitting : ∀ stem bytes, t.file? (stem ++ dot :: ascii "wal") = some bytes →
      Fitting crc32 format cli.filterPort bytes := by
    intro stem bytes hbytes
    by_cases hbefore : stem ++ dot :: ascii "wal" ∈ start
    · exact hold stem bytes hbefore hbytes
    -- the others have been made by the lives
    have hmem := mem_of_file? hbytes
    obtain ⟨i, hi, rfl⟩ := Option.map_eq_some_iff.mp hbytes
    rcases hgrown.others _ hmem with hsegment | hledger | hthere
    · rcases hgrown.origin _ (mem_segments.mpr ⟨hmem, hsegment⟩) with hfirst | hopened
      · exact absurd (mem_segments.mp hfirst).1 hbefore
      · obtain ⟨o, ho, hname⟩ := List.mem_map.mp hopened
        have hlookup := hgrown.named o ho (hname ▸ hmem)
        rw [hname, hi] at hlookup
        obtain rfl := Option.some.inj hlookup
        obtain ⟨opened, hmade, ho⟩ := List.mem_flatten.mp ho
        obtain ⟨l, hl, hlife⟩ := forall₂_exists_of_mem hkept.flip hmade
        obtain ⟨records, residual, hdecoded, hsub⟩ := Life.Kept.records hlife ho
        intro records' residual' hrecords'
        obtain ⟨rfl, -⟩ := Prod.mk.inj (Except.ok.inj (hdecoded.symm.trans hrecords'))
        exact (haccepted l hl).subset hsub
    · exact absurd hledger (wal_ne_ledgerPath stem)
    · exact absurd hthere hbefore
  obtain ⟨s, hs⟩ := hconvertible.goes_through hlistable' hfitting
  refine ⟨s, made, hs, hgrown.created, ⟨nos, hascent.names, hascent.increasing⟩, ?_⟩
  obtain ⟨hlength, hzip⟩ := List.forall₂_iff_zip.mp hkept
  refine List.forall₂_iff_zip.mpr ⟨hlength, fun {l opened} hmem => ?_⟩
  have hopened : opened ∈ made := (List.of_mem_zip hmem).2
  have hpresent : opened.Pairwise fun a b => a.1 ∈ t → b.1 ∈ t :=
    (Grown.pairwise_mem hascent).sublist (List.sublist_flatten_of_mem hopened)
  obtain ⟨gone, kept, rfl, hgone, hthere⟩ := exists_split hpresent
  obtain ⟨logs, hlogs, hA⟩ := (hzip hmem).logs
  obtain ⟨lost, rest, rfl, hnone, hrest⟩ := forall₂_append_left hlogs
  rw [List.flatten_append] at hA
  refine ⟨gone, kept, lost.flatten, rest.flatten, rest.map (writePackets cli.filterPort), rfl,
    hgone, fun hnil => by rw [hnone hnil]; rfl, ?_, (writePackets_flatten _ _).symm, hA⟩
  rw [List.forall₂_map_right_iff]
  obtain ⟨hlength', hzip'⟩ := List.forall₂_iff_zip.mp hrest
  refine List.forall₂_iff_zip.mpr ⟨hlength', fun {o log} hpair => ?_⟩
  have ho : o ∈ kept := (List.of_mem_zip hpair).1
  have hmade : o ∈ made.flatten :=
    List.mem_flatten.mpr ⟨_, hopened, List.mem_append_right _ ho⟩
  obtain ⟨no, -, heq⟩ := isSegment_of_mem_names hascent.names hmade
  obtain ⟨residual, hdecoded⟩ := hzip' hpair
  have hfile := FileSystem.file?_of_lookup (hgrown.named o hmade (hthere o ho))
  rw [heq] at hfile
  exact ⟨hthere o ho, no, heq,
    hconvertible.output hlistable' hs (isStem_segment no) hfile hdecoded⟩

/-- A disk on which the directory has been mounted, without links. -/
def mountedVolume (t : FileSystem) : Volume Path where
  readDir dir := if dir = ascii "shm" then some t.names else none
  createDirAll _ := true
  creates _ := true
  locate f := f

/-- The files of the directory, and no others. -/
def mountedContents (t : FileSystem) : Contents Path := fun f =>
  (t.names.find? fun name => join (ascii "shm") name = f).bind fun name =>
    (t.file? name).map Content.raw

theorem mounted_sample (t : FileSystem) :
    Mounted (mountedVolume t) (mountedContents t) (ascii "shm") t where
  readDir := rfl
  contents name hname := by
    obtain ⟨found, hfound⟩ : ∃ found, t.names.find? (fun other =>
        join (ascii "shm") other = join (ascii "shm") name) = some found := by
      refine Option.isSome_iff_exists.mp (List.find?_isSome.mpr ⟨name, hname, ?_⟩)
      exact decide_eq_true rfl
    have hfits := List.find?_some hfound
    have hsame : found = name := join_injective _ (by simpa using hfits)
    have hopen : mountedContents t (join (ascii "shm") name) = (t.names.find? fun other =>
        join (ascii "shm") other = join (ascii "shm") name).bind fun other =>
          (t.file? other).map Content.raw := rfl
    exact hopen.trans (by rw [hfound, hsame, Option.bind_some])

/-- `--dir shm --out-dir out`, for one port. -/
def shmCli : Cli := ⟨none, some (ascii "shm"), none, some (ascii "out"), some 443⟩

end SovProbe
