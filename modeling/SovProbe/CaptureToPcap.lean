import SovProbe.LogToPcap
import SovProbe.PortFilter
import SovProbe.ProbeLog
import Mathlib.Data.List.ReduceOption

/-! # From the capture to the PCAP files

The whole way of a packet: taken from the ring buffer by the capture thread, made a record,
queued, written to a segment by the writer thread, and converted by
`sov2pcap --dir .. --out-dir ..` after any number of sessions of the probe on the directory.

`pcap-file` does not take every packet, and `main` ends at the first one it does not take.  It
takes all of those that come from frames the kernel program has submitted, until the clock
has passed 2^32 seconds (`fits_of_process`).
-/

namespace SovProbe
open PathName WalRecord Pipeline Received

/-! ## Packets that fit -/

/-- The payload a parser returns is a part of the frame. -/
def PayloadWithin (fromEthernet : FromEthernet) : Prop :=
  ∀ frame packet, fromEthernet frame = some packet → packet.payload.length ≤ frame.length

theorem payloadWithin_headersOnly : PayloadWithin headersOnly := by
  intro frame packet h
  obtain ⟨found, -, rfl⟩ := Option.map_eq_some_iff.mp h
  rw [List.length_drop]
  exact Nat.sub_le _ _

/-- **What becomes of a submitted frame fits**, when it was taken at such a time. -/
theorem fits_of_process {fromEthernet : FromEthernet} {slicer : Slicer} {frame : List UInt8}
    {tsNs : UInt64} {degraded : Bool} {r : WalRecord} (hparser : PayloadWithin fromEthernet)
    (hframe : frame.length ≤ maxCopy.toNat)
    (h : slicer.process fromEthernet frame tsNs degraded = some r)
    (htime : r.timestampNs.toNat / 1000000000 < 2 ^ 32) : r.normalised.toPacket.Fits := by
  obtain ⟨packet, hdr, transport, hpacket, -, htransport, hsliced⟩ := slicedFrom_of_process h
  have hmax : maxCopy.toNat = 4608 := rfl
  have hpayload : r.payload.length ≤ transport.app.length := by
    rw [hsliced.payload]
    exact List.length_take_le' ..
  have happ : transport.app.length ≤ frame.length := by
    rw [app_of_transportHeader htransport]
    exact hparser frame packet hpacket
  have horig : r.origPayloadLen.toNat = transport.app.length := by
    rw [hsliced.origPayloadLen, UInt32.toNat_ofNat']
    exact Nat.mod_eq_of_lt (by omega)
  have hheader : l4HeaderLen r.proto ≤ 20 := by
    unfold l4HeaderLen
    split <;> omega
  have hlen : (origLen r).toNat = 14 + 20 + l4HeaderLen r.proto + r.origPayloadLen.toNat := by
    have hof : origLen r =
        UInt32.ofNat (14 + 20 + l4HeaderLen r.proto + r.origPayloadLen.toNat) := rfl
    rw [hof, UInt32.toNat_ofNat']
    exact Nat.mod_eq_of_lt (by omega)
  have hdata : (synthesize r).length = 14 + 20 + l4HeaderLen r.proto + r.payload.length := by
    rw [synthesize_length, totalLen]
    omega
  refine ⟨htime, ?_, ?_⟩
  · show (synthesize r).length ≤ 65535
    omega
  · show (synthesize r).length ≤ (origLen r).toNat
    omega

/-! ## Sessions of the probe -/

/-- A session of the probe: its configuration, when its writer is made, what its threads do, and
whether it is killed or its writer comes to an end. -/
structure Session where
  cfg : Config
  rotateInterval : Nat
  made : Nat
  actions : List Probe.Action
  killed : Bool

/-- What the threads of a session have done. -/
abbrev Session.Log := Traced (List UInt8) WalRecord

variable (fromEthernet : FromEthernet) (crc32 : List UInt8 → UInt32) (fuel : Nat)

/-- From `fs`, the session can leave `t`, its threads having done this. -/
def Session.Leaves (x : Session) (fs t : FileSystem) (threads : Session.Log) : Prop :=
  ∃ w s, WalWriter.new fs x.cfg.maxSegments.toNat x.cfg.segmentSize x.rotateInterval x.made 0 0 =
      some w ∧
    Probe.run fromEthernet crc32 x.cfg fuel fs w x.actions = some s ∧
    if x.killed then Probe.KilledAt fromEthernet crc32 x.cfg fuel s t threads
    else s.threads.state.writer = .done ∧ t = s.disk ∧ threads = s.threads

/-- One session after the other, and what their threads have done. -/
inductive Served (start : FileSystem) : List (Session × Session.Log) → FileSystem → Prop
  | start : Served start [] start
  | next {served : List (Session × Session.Log)} {fs t : FileSystem} {x : Session}
      {threads : Session.Log} :
      Served start served fs → x.cfg.validate = .ok () →
      x.Leaves fromEthernet crc32 fuel fs t threads → Served start (served ++ [(x, threads)]) t

/-- The segments the sessions can make at most. -/
def Session.cost (x : Session × Session.Log) : Nat := 1 + 2 * (Event.taken x.2.log).length

variable {fromEthernet crc32 fuel} {start fs t : FileSystem}
  {served : List (Session × Session.Log)} {x : Session} {threads : Session.Log}

/-- The life of its writer that a session is; none if it has left the directory as it was. -/
def Session.LivesAs (x : Session × Session.Log) (l? : Option Life) : Prop :=
  match l? with
  | some l => accepted l.received = Event.written x.2.log ∧ l.killed = x.1.killed ∧
      l.cost ≤ Session.cost x
  | none => x.1.killed = true

/-- What is known of a session from its run. -/
structure Session.Known (fromEthernet : FromEthernet) (x : Session × Session.Log) : Prop where
  valid : x.1.cfg.validate = .ok ()
  sound : Probe.Sound fromEthernet x.1.cfg x.2
  /-- What it has written has times that it has read. -/
  times : ∀ r ∈ Event.written x.2.log, .capture (.process r.timestampNs) ∈ x.1.actions

theorem Session.Leaves.known (hvalid : x.cfg.validate = .ok ())
    (h : x.Leaves fromEthernet crc32 fuel fs t threads) :
    Session.Known fromEthernet (x, threads) := by
  obtain ⟨w, s, -, hrun, hend⟩ := h
  have hkilledAt : ∃ t', Probe.KilledAt fromEthernet crc32 x.cfg fuel s t' threads := by
    by_cases hkilled : x.killed = true
    · rw [if_pos hkilled] at hend
      exact ⟨t, hend⟩
    · rw [if_neg hkilled] at hend
      exact ⟨s.disk, Or.inl ⟨rfl, hend.2.2⟩⟩
  obtain ⟨t', hend⟩ := hkilledAt
  exact ⟨hvalid, (Probe.sound_of_killedAt hrun hend).1, Probe.time_of_killedAt hrun hend⟩

/-- **A session is a life of its writer.** -/
theorem Session.Leaves.life (h : x.Leaves fromEthernet crc32 fuel fs t threads) :
    (∃ l : Life, l.Leaves crc32 fuel fs t ∧ Session.LivesAs (x, threads) (some l)) ∨
      (t = fs ∧ Session.LivesAs (x, threads) none) := by
  obtain ⟨w, s, hnew, hrun, hend⟩ := h
  by_cases hkilled : x.killed = true
  · rw [if_pos hkilled] at hend
    rcases Probe.life_of_killedAt hnew hrun hend with
      hsame | ⟨now, received, hleaves, haccepted, hle⟩
    · exact Or.inr ⟨hsame, hkilled⟩
    · rw [← (Probe.sound_of_killedAt hrun hend).2] at hle
      refine Or.inl ⟨_, hleaves, haccepted, hkilled.symm, ?_⟩
      exact Nat.add_le_add_left (Nat.mul_le_mul_left 2 hle) 1
  · rw [if_neg hkilled] at hend
    obtain ⟨hdone, rfl, rfl⟩ := hend
    obtain ⟨now, received, hleaves, haccepted, hle⟩ := Probe.life_of_done hnew hrun hdone
    refine Or.inl ⟨_, hleaves, haccepted, (Bool.not_eq_true _ ▸ hkilled).symm, ?_⟩
    exact Nat.add_le_add_left (Nat.mul_le_mul_left 2 hle) 1

/-- **Sessions are lives.** -/
theorem Served.lived (h : Served fromEthernet crc32 fuel start served t) :
    ∃ lives : List (Option Life), Lived crc32 fuel start lives.reduceOption t ∧
      List.Forall₂ Session.LivesAs served lives ∧
      ∀ x ∈ served, Session.Known fromEthernet x := by
  induction h with
  | start => exact ⟨[], .start, .nil, fun x hx => absurd hx List.not_mem_nil⟩
  | @next served fs t x threads hserved hvalid hleaves ih =>
    obtain ⟨lives, hlived, hall, hknown⟩ := ih
    have hknown' : ∀ y ∈ served ++ [(x, threads)], Session.Known fromEthernet y := by
      intro y hy
      rcases List.mem_append.mp hy with hbefore | hlast
      · exact hknown y hbefore
      · rw [List.mem_singleton.mp hlast]
        exact hleaves.known hvalid
    rcases hleaves.life with ⟨l, hlife, has⟩ | ⟨rfl, has⟩
    · refine ⟨lives ++ [some l], ?_, List.rel_append hall (.cons has .nil), hknown'⟩
      rw [List.reduceOption_append]
      exact hlived.next hlife
    · refine ⟨lives ++ [none], ?_, List.rel_append hall (.cons has .nil), hknown'⟩
      rw [List.reduceOption_append, List.reduceOption_singleton, Option.toList_none,
        List.append_nil]
      exact hlived

/-! ## All the way -/

/-- What goes with the lives goes with the sessions, and nothing with one that is no life. -/
theorem forall₂_of_reduceOption {α β γ : Type} {R : α → Option β → Prop} {P : β → List γ → Prop}
    {xs : List α} {bs : List (Option β)} {ms : List (List γ)} (h : List.Forall₂ R xs bs)
    (hms : List.Forall₂ P bs.reduceOption ms) :
    ∃ ms', ms'.flatten = ms.flatten ∧
      List.Forall₂ (fun x m => (∃ b, R x (some b) ∧ P b m) ∨ R x none ∧ m = []) xs ms' := by
  induction h generalizing ms with
  | nil =>
    rw [List.reduceOption_nil, List.forall₂_nil_left_iff] at hms
    exact ⟨[], by rw [hms], .nil⟩
  | @cons x b xs bs hx _ ih =>
    cases b with
    | none =>
      rw [List.reduceOption_cons_of_none] at hms
      obtain ⟨ms', hflatten, hall⟩ := ih hms
      exact ⟨[] :: ms', hflatten, .cons (Or.inr ⟨hx, rfl⟩) hall⟩
    | some b =>
      rw [List.reduceOption_cons_of_some, List.forall₂_cons_left_iff] at hms
      obtain ⟨m, ms, hm, hrest, rfl⟩ := hms
      obtain ⟨ms', hflatten, hall⟩ := ih hrest
      refine ⟨m :: ms', ?_, .cons (Or.inl ⟨b, hx, hm⟩) hall⟩
      rw [List.flatten_cons, List.flatten_cons, hflatten]

/-- The lives make no more segments than is allowed for the sessions. -/
theorem cost_le {lives : List (Option Life)} (h : List.Forall₂ Session.LivesAs served lives) :
    (lives.reduceOption.map Life.cost).sum ≤ (served.map Session.cost).sum := by
  induction h with
  | nil => exact Nat.le_refl _
  | @cons x l? served lives hx _ ih =>
    cases l? with
    | none =>
      rw [List.reduceOption_cons_of_none, List.map_cons, List.sum_cons]
      exact Nat.le_trans ih (Nat.le_add_left _ _)
    | some l =>
      rw [List.reduceOption_cons_of_some, List.map_cons, List.sum_cons, List.map_cons,
        List.sum_cons]
      exact Nat.add_le_add hx.2.2 ih

/-- A life has the log of its session. -/
theorem exists_session {lives : List (Option Life)}
    (h : List.Forall₂ Session.LivesAs served lives) {l : Life} (hl : l ∈ lives.reduceOption) :
    ∃ x ∈ served, accepted l.received = Event.written x.2.log := by
  induction h with
  | nil => cases hl
  | @cons x l? served lives hx _ ih =>
    cases l? with
    | none =>
      rw [List.reduceOption_cons_of_none] at hl
      obtain ⟨y, hy, hlog⟩ := ih hl
      exact ⟨y, List.mem_cons_of_mem _ hy, hlog⟩
    | some l' =>
      rw [List.reduceOption_cons_of_some] at hl
      rcases List.mem_cons.mp hl with rfl | hrest
      · exact ⟨x, List.mem_cons_self, hx.1⟩
      · obtain ⟨y, hy, hlog⟩ := ih hrest
        exact ⟨y, List.mem_cons_of_mem _ hy, hlog⟩

theorem Converted.nothing {ν : Type} (volume : Volume ν) (out : Path)
    (filterPort : Option UInt16) (s : Contents ν) (t : FileSystem) (A : List WalRecord) :
    Converted volume out filterPort s t A true [] :=
  ⟨[], [], [], [], [], rfl, fun _ ho => absurd ho List.not_mem_nil, fun _ => rfl, .nil, rfl,
    List.nil_prefix⟩

/-- What a session gets from outside: frames as the kernel program submits them, and times of less
than 2^32 seconds. -/
structure Session.Ordinary (x : Session × Session.Log) : Prop where
  frames : ∀ frame ∈ Event.taken x.2.log, frame.length ≤ maxCopy.toNat
  clock : ∀ tsNs, .capture (.process tsNs) ∈ x.1.actions → tsNs.toNat / 1000000000 < 2 ^ 32

/-- What such a session has written is taken by `pcap-file`. -/
theorem Session.Known.accepted {x : Session × Session.Log} (h : Session.Known fromEthernet x)
    (hordinary : Session.Ordinary x) (hparser : PayloadWithin fromEthernet) (format : PcapFormat)
    (filterPort : Option UInt16) :
    Accepted format filterPort ((Event.written x.2.log).map normalised) := by
  intro p hp
  obtain ⟨rec, hrec, -, rfl⟩ := mem_writePackets.mp hp
  obtain ⟨r, hr, rfl⟩ := List.mem_map.mp hrec
  obtain ⟨frame, hframe, tsNs, degraded, hprocess⟩ :=
    h.sound.processed.exists_of_mem (List.mem_append_left _ hr)
  exact format.accepts_of_fits _ (fits_of_process hparser (hordinary.frames frame hframe)
    hprocess (hordinary.clock _ (h.times r hr)))

variable {ν : Type} {volume : Volume ν} {cli : Cli} {contents : Contents ν} {dir out : Path}

/-- **From the capture to PCAP.**  Whatever sessions of the probe have passed on a directory, with
their threads interleaving in any way and each session killed anywhere or come to its end, the
conversion of the directory goes through, if it does for the files that were there before the
first session.  In the PCAP files of a session, read in the order of its segments, are the
packets of the records it has written, from the first one that has not been evicted with its
segment and, if it was killed, up to some point; and what it has written was made by the
slicer from frames taken from the ring buffer, in the order in which these were taken. -/
theorem frames_to_pcap [DecidableEq ν] {limit : Nat} (hparser : PayloadWithin fromEthernet)
    (h : Served fromEthernet crc32 fuel start served t)
    (hordinary : ∀ x ∈ served, Session.Ordinary x)
    (hstart : ∀ name ∈ segments start, ∃ no, no < limit ∧ name = segPath no)
    (hlimit : limit + (served.map Session.cost).sum < 2 ^ 64) (hfuel : 2 ^ 64 < fuel)
    (hconvertible : Convertible volume contents cli dir out t) (hlistable : Listable cli dir start)
    (format : PcapFormat)
    (hold : ∀ stem bytes, stem ++ dot :: ascii "wal" ∈ start →
      t.file? (stem ++ dot :: ascii "wal") = some bytes →
        Fitting crc32 format cli.filterPort bytes) :
    ∃ s made, sov2pcap crc32 format volume cli contents = some s ∧
      t.created = start.created ++ made.flatten ∧ Ascending made.flatten ∧
      List.Forall₂ (fun x opened =>
        Converted volume out cli.filterPort s t (Event.written x.2.log) x.1.killed opened ∧
        List.SublistForall₂
          (fun record frame => ∃ tsNs degraded, (Slicer.mk x.1.cfg.sliceBytes.toNat).process
            fromEthernet frame tsNs degraded = some record)
          (Event.written x.2.log) (Event.taken x.2.log)) served made := by
  obtain ⟨lives, hlived, hall, hknown⟩ := h.lived
  have hcost := cost_le hall
  have hrecords : ∀ l ∈ lives.reduceOption, ∀ r ∈ accepted l.received, r.Encodable := by
    intro l hl r hr
    obtain ⟨x, hx, hlog⟩ := exists_session hall hl
    exact (hknown x hx).sound.encodable (hknown x hx).valid r (hlog ▸ hr)
  have haccepted : ∀ l ∈ lives.reduceOption,
      Accepted format cli.filterPort ((accepted l.received).map normalised) := by
    intro l hl
    obtain ⟨x, hx, hlog⟩ := exists_session hall hl
    rw [hlog]
    exact (hknown x hx).accepted (hordinary x hx) hparser format cli.filterPort
  obtain ⟨s, made, hs, hmade, hascending, hconverted⟩ := hlived.converted hstart (by omega) hfuel
    hrecords hconvertible hlistable haccepted hold
  obtain ⟨made', hflatten, hserved⟩ := forall₂_of_reduceOption hall hconverted
  refine ⟨s, made', hs, hflatten ▸ hmade, hflatten ▸ hascending, ?_⟩
  obtain ⟨hlength, hzip⟩ := List.forall₂_iff_zip.mp hserved
  refine List.forall₂_iff_zip.mpr ⟨hlength, fun {x opened} hmem => ⟨?_, ?_⟩⟩
  · rcases hzip hmem with ⟨l, ⟨haccepted, hkilled, -⟩, hl⟩ | ⟨hkilled, rfl⟩
    · rw [← haccepted, ← hkilled]
      exact hl
    · have hnone : x.1.killed = true := hkilled
      rw [hnone]
      exact Converted.nothing volume out cli.filterPort s t _
  · exact (hknown x (List.of_mem_zip hmem).1).sound.processed.of_sublist_left
      (List.sublist_append_left _ _)

/-- A session that ends when it has written the record of a frame. -/
def oneFrameSession : Session := ⟨defaultConfig, 5, 0, Probe.oneFrame, false⟩

theorem frames_to_pcap_oneFrame : ∃ threads t s opened,
    Served headersOnly Crc.ieee (2 ^ 64 + 1) FileSystem.empty [(oneFrameSession, threads)] t ∧
      (Event.written threads.log).length = 1 ∧
      sov2pcap Crc.ieee PcapFormat.standard (mountedVolume t) shmCli (mountedContents t) =
        some s ∧
      Converted (mountedVolume t) (ascii "out") (some 443) s t (Event.written threads.log) false
        opened := by
  have hnone : ∀ name, name ∉ FileSystem.empty := fun name hname => AList.notMem_empty name hname
  have hstart : ∀ name ∈ segments FileSystem.empty, ∃ no, no < 0 ∧ name = segPath no :=
    fun name hname => absurd (mem_segments.mp hname).1 (hnone name)
  obtain ⟨w, u, hw, hu, ⟨htaken, hwritten⟩, hdone⟩ := Probe.exists_run_oneFrame
  have hleaves : oneFrameSession.Leaves headersOnly Crc.ieee (2 ^ 64 + 1) FileSystem.empty u.disk
      u.threads := ⟨w, u, hw, hu, hdone, rfl, rfl⟩
  have hserved : Served headersOnly Crc.ieee (2 ^ 64 + 1) FileSystem.empty
      [(oneFrameSession, u.threads)] u.disk := Served.start.next defaultConfig_valid hleaves
  have hlimit : 0 + ([(oneFrameSession, u.threads)].map Session.cost).sum < 2 ^ 64 := by
    rw [List.map_singleton, List.sum_singleton, Session.cost, htaken]
    decide
  have hordinary : Session.Ordinary (oneFrameSession, u.threads) := by
    refine ⟨fun frame hframe => ?_, fun tsNs hmem => ?_⟩
    · rw [htaken] at hframe
      obtain rfl := List.mem_singleton.mp hframe
      decide
    · obtain rfl : tsNs = 7 := by simpa [oneFrameSession, Probe.oneFrame] using hmem
      decide
  have hconvertible : Convertible (mountedVolume u.disk) (mountedContents u.disk) shmCli
      (ascii "shm") (ascii "out") u.disk :=
    ⟨mounted_sample u.disk, rfl, rfl, rfl, fun _ => rfl, Set.injOn_of_injective fun _ _ h => h⟩
  obtain ⟨s, made, hs, -, -, hall⟩ := frames_to_pcap payloadWithin_headersOnly hserved
    (fun x hx => List.mem_singleton.mp hx ▸ hordinary) hstart hlimit (Nat.lt_succ_self _)
    hconvertible (fun name hname => absurd hname (hnone name)) PcapFormat.standard
    (fun stem bytes hstem => absurd hstem (hnone _))
  obtain ⟨opened, -, ⟨hconverted, -⟩, -, -⟩ := List.forall₂_cons_left_iff.mp hall
  exact ⟨u.threads, u.disk, s, opened, hserved, hwritten, hs, hconverted⟩

end SovProbe
