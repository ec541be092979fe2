import SovProbe.Subscriber
import SovProbe.Transition
import Mathlib.Order.Basic

/-! # Files only grow

The disks of the receiver are ordered: a later one has the files of an earlier one, and in
front of each what was in it before, and besides only files of segments.  A process whose
single steps all go up in an order goes up as a whole: however it ends, of two disks it
passes through the later one is above the earlier one (`Ascends`).  All that the receiver
does to its files is to make them and to append to them, so it ascends, also where its
operations fail, where messages are garbage, and where it is killed and started again
(`Subscriber.Chronicle.ascends`).
-/

/-- The disk an execution ends on, unless it is still running. -/
def Outcome.disk? {δ ρ α : Type} : Outcome δ ρ α → Option δ
  | .done _ disk _ => some disk
  | .failed disk _ => some disk
  | .running => none

namespace Process
variable {δ ρ τ α β : Type}

/-- The disks of an execution in their order: the first one, those on the way, the last one. -/
def disks (x : Process δ ρ α) (d : δ) (m : ρ) : List δ :=
  d :: (x d m).trace ++ (x d m).outcome.disk?.toList

/-- What follows is given what is read. -/
theorem read_bind_eq {g : δ → α} {f : α → Process δ ρ β} (d : δ) (m : ρ) :
    (read g >>= f) d m = f (g d) d m := rfl

variable [Preorder δ] {x : Process δ ρ α}

/-- From every state, of two disks the later one is above the earlier one. -/
def Ascends (x : Process δ ρ α) : Prop :=
  ∀ d m, (x.disks d m).Pairwise (· ≤ ·)

/-- Two ascents, the second from the point where the first one ends. -/
theorem ascent_join {l l' : List δ} {d : δ} (h : (l ++ [d]).Pairwise (· ≤ ·))
    (h' : (d :: l').Pairwise (· ≤ ·)) : (l ++ d :: l').Pairwise (· ≤ ·) := by
  obtain ⟨hfirst, -, hto⟩ := List.pairwise_append.mp h
  refine List.pairwise_append.mpr ⟨hfirst, h', fun t ht u hu => ?_⟩
  have hd : t ≤ d := hto t ht d (List.mem_singleton.mpr rfl)
  rcases List.mem_cons.mp hu with rfl | hu
  · exact hd
  · exact le_trans hd ((List.pairwise_cons.mp h').1 u hu)

theorem Ascends.pure (a : α) : Ascends (Pure.pure a : Process δ ρ α) :=
  fun d _ => List.pairwise_pair.mpr (le_refl d)

theorem Ascends.fail : Ascends (fail : Process δ ρ α) :=
  fun d _ => List.pairwise_pair.mpr (le_refl d)

theorem Ascends.stuck : Ascends (stuck : Process δ ρ α) := fun d _ => List.pairwise_singleton _ d

theorem Ascends.get : Ascends (get : Process δ ρ ρ) :=
  fun d _ => List.pairwise_pair.mpr (le_refl d)

theorem Ascends.modify (f : ρ → ρ) : Ascends (modify f : Process δ ρ Unit) :=
  fun d _ => List.pairwise_pair.mpr (le_refl d)

theorem Ascends.read (f : δ → α) : Ascends (read f : Process δ ρ α) :=
  fun d _ => List.pairwise_pair.mpr (le_refl d)

/-- The steps of a write are below each other. -/
theorem Ascends.writeSteps {n : Nat} {f : Nat → δ → δ} (hfirst : ∀ d, d ≤ f 0 d)
    (hnext : ∀ k d, k < n → f k d ≤ f (k + 1) d) :
    Ascends (writeSteps n f : Process δ ρ Unit) := by
  intro d m
  have hmono : ∀ j k, j ≤ k → k ≤ n → f j d ≤ f k d := by
    intro j k hjk hk
    induction hjk with
    | refl => exact le_refl _
    | step _ ih => exact le_trans (ih (Nat.le_of_succ_le hk)) (hnext _ d hk)
  have hsteps : ((List.range (n + 1)).map fun k => f k d).Pairwise (· ≤ ·) := by
    refine List.pairwise_map.mpr (List.pairwise_lt_range.imp_of_mem ?_)
    intro j k _ hk hjk
    exact hmono j k (Nat.le_of_lt hjk) (Nat.le_of_lt_succ (List.mem_range.mp hk))
  have hlast : ∀ t ∈ (List.range (n + 1)).map (fun k => f k d), d ≤ t ∧ t ≤ f n d := by
    refine List.forall_mem_map.mpr fun k hk => ?_
    have hkn : k ≤ n := Nat.le_of_lt_succ (List.mem_range.mp hk)
    exact ⟨le_trans (hfirst d) (hmono 0 k (Nat.zero_le k) hkn), hmono k n hkn (Nat.le_refl n)⟩
  have hend : d ≤ f n d := le_trans (hfirst d) (hmono 0 n (Nat.zero_le n) (Nat.le_refl n))
  refine List.pairwise_append.mpr ⟨?_, List.pairwise_singleton _ _, ?_⟩
  · exact List.pairwise_cons.mpr ⟨fun t ht => (hlast t ht).1, hsteps⟩
  · intro t ht u hu
    obtain rfl : u = f n d := List.mem_singleton.mp hu
    rcases List.mem_cons.mp ht with rfl | ht
    · exact hend
    · exact (hlast t ht).2

/-- The part that comes second starts where the first one ends. -/
theorem Ascends.bind {f : α → Process δ ρ β} (hx : Ascends x) (hf : ∀ a, Ascends (f a)) :
    Ascends (x >>= f) := by
  intro d m
  have hfirst := hx d m
  have hbind : (x >>= f) d m = Process.bind x f d m := rfl
  rw [disks] at hfirst
  cases h : x d m with
  | mk trace outcome =>
    rw [h] at hfirst
    cases outcome with
    | done a d' m' =>
      have hdone : (x d m).outcome = .done a d' m' := by rw [h]
      have hboth : (d :: trace ++ d' :: ((f a d' m').trace ++
          (f a d' m').outcome.disk?.toList)).Pairwise (· ≤ ·) := ascent_join hfirst (hf a d' m')
      obtain ⟨htrace, hout⟩ := bind_of_done hdone f
      rw [disks, htrace, hout, h, ← List.cons_append, List.append_assoc]
      exact hboth.sublist ((List.sublist_cons_self d' _).append_left _)
    | failed d' m' =>
      rw [disks, hbind, Process.bind, h]
      exact hfirst
    | running =>
      rw [disks, hbind, Process.bind, h]
      exact hfirst

theorem Ascends.zoom {get : τ → ρ} {set : ρ → τ → τ} (hx : Ascends x) :
    Ascends (zoom get set x) := by
  intro d m
  have hpart := hx d (get m)
  unfold disks at hpart ⊢
  unfold Process.zoom
  cases h : x d (get m) with
  | mk trace outcome =>
    rw [h] at hpart
    cases outcome <;> exact hpart

theorem Ascends.forM {f : β → Process δ ρ Unit} (hf : ∀ b, Ascends (f b)) (bs : List β) :
    Ascends (bs.forM f) := by
  induction bs with
  | nil => exact Ascends.pure ()
  | cons b bs ih => exact (hf b).bind fun _ => ih

/-- The disks of a process that has returned. -/
theorem Ascends.returned (hx : Ascends x) {d : δ} {m : ρ} {s : δ × ρ}
    (h : (x d m).outcome.state? = some s) :
    ((d :: (x d m).trace) ++ [s.1]).Pairwise (· ≤ ·) := by
  obtain ⟨a, hdone⟩ := Outcome.state?_eq_some.mp h
  have hdisks := hx d m
  rw [disks, hdone] at hdisks
  exact hdisks

/-- The disks of a process that is cut somewhere. -/
theorem Ascends.cut (hx : Ascends x) (d : δ) (m : ρ) :
    (d :: (x d m).trace).Pairwise (· ≤ ·) := (List.pairwise_append.mp (hx d m)).1

end Process

namespace SovProbe
open Process

/-! ## The order on disks -/

/-- Every file is still there, with what was in it in front; a new one is that of a segment. -/
structure Accrued (fs t : FileSystem) : Prop where
  files : ∀ name bytes, fs.file? name = some bytes →
    ∃ bytes', t.file? name = some bytes' ∧ bytes <+: bytes'
  names : ∀ name ∈ t, name ∈ fs ∨ ∃ key, name = segmentName key

instance : Preorder FileSystem where
  le := Accrued
  le_refl _ := ⟨fun _ bytes h => ⟨bytes, h, List.prefix_refl bytes⟩, fun _ h => Or.inl h⟩
  le_trans _ _ _ h h' := by
    refine ⟨fun name bytes hbytes => ?_, fun name hname => ?_⟩
    · obtain ⟨bytes₁, hbytes₁, hpre₁⟩ := h.files name bytes hbytes
      obtain ⟨bytes₂, hbytes₂, hpre₂⟩ := h'.files name bytes₁ hbytes₁
      exact ⟨bytes₂, hbytes₂, hpre₁.trans hpre₂⟩
    · rcases h'.names name hname with hbefore | hsegment
      · exact h.names name hbefore
      · exact Or.inr hsegment

section
open FileSystem
variable {fs : FileSystem} {key : SegmentKey} {bytes : List UInt8}

theorem le_link (h : fs.dir.lookup (segmentName key) = none) :
    fs ≤ fs.link (segmentName key) := by
  refine ⟨fun name' bytes hbytes => ?_, fun name' hname => ?_⟩
  · have hne : name' ≠ segmentName key := by
      rintro rfl
      rw [file?, h] at hbytes
      cases hbytes
    exact ⟨bytes, (file?_link_ne hne).trans hbytes, List.prefix_refl bytes⟩
  · rcases FileSystem.mem_link.mp hname with rfl | hbefore
    · exact Or.inr ⟨key, rfl⟩
    · exact Or.inl hbefore

theorem le_append (fs : FileSystem) (i : Nat) (bytes : List UInt8) : fs ≤ fs.append i bytes := by
  refine ⟨fun name old hold => ?_, fun name hname => Or.inl hname⟩
  rw [file?, Option.map_eq_some_iff] at hold
  obtain ⟨j, hj, rfl⟩ := hold
  by_cases hij : i = j
  · subst hij
    exact ⟨_, file?_append hj, List.prefix_append _ _⟩
  · have hlookup : (fs.append i bytes).dir.lookup name = some j := hj
    refine ⟨fs.content j, ?_, List.prefix_refl _⟩
    rw [file?_of_lookup hlookup, content_append_ne hij]

/-- Of two beginnings of what is appended, the longer one leaves the later disk. -/
theorem append_le_append (fs : FileSystem) (i : Nat) {more : List UInt8} (h : bytes <+: more) :
    fs.append i bytes ≤ fs.append i more := by
  obtain ⟨rest, rfl⟩ := h
  by_cases hi : i < fs.inodes.length
  · rw [← FileSystem.append_append hi]
    exact le_append _ i rest
  · -- an append to no file leaves the disk as it is
    have hsame : ∀ bytes, fs.append i bytes = fs := fun bytes =>
      eq_of_data rfl (List.set_eq_of_length_le (Nat.not_lt.mp hi)) rfl
    rw [hsame, hsame]

end

/-! ## The receiver ascends -/

namespace SegmentBuf
variable {ρ : Type} (env : Environment)

/-- The file that is linked was not there. -/
theorem ascends_openAppend (devId seq : UInt32) :
    Ascends (openAppend (segPath devId seq) : Process FileSystem ρ Nat) := by
  intro fs m
  cases h : fs.dir.lookup (segPath devId seq) with
  | some i =>
    rw [disks, openAppend, read_bind_eq, h]
    exact List.pairwise_pair.mpr (le_refl fs)
  | none =>
    have hkey : fs ≤ fs.link (segmentName (devId, seq)) := le_link h
    rw [disks, openAppend, read_bind_eq, h]
    refine ascent_join (l := [fs]) ?_ (List.pairwise_pair.mpr (le_refl _))
    exact List.pairwise_pair.mpr hkey

theorem ascends_writeAll (i : Nat) (bytes : List UInt8) :
    Ascends (writeAll i bytes : Process FileSystem ρ Unit) := by
  refine Ascends.writeSteps (fun fs => le_append fs i _) fun k fs _ => ?_
  exact append_le_append fs i (List.take_prefix_take_left (Nat.le_succ k))

theorem ascends_openBuf (devId seq : UInt32) :
    Ascends (openBuf env devId seq : Process FileSystem ρ SegmentBuf) := by
  unfold openBuf
  dsimp only
  split
  · exact (ascends_openAppend _ _).bind fun _ => (Ascends.read _).bind fun _ => Ascends.pure _
  · exact Ascends.pure _

theorem ascends_writeBytes (fault : Option Nat) (bytes : List UInt8) :
    Ascends (writeBytes fault bytes) := by
  refine Ascends.get.bind fun buf => ?_
  split
  · split
    · exact (ascends_writeAll _ _).bind fun _ => Ascends.modify _
    · exact (ascends_writeAll _ _).bind fun _ => Ascends.modify _
  · exact Ascends.modify _

theorem ascends_releaseBytes (n : Nat) : Ascends (releaseBytes n) := by
  refine Ascends.get.bind fun buf => ?_
  split
  · exact Ascends.modify _
  · exact Ascends.fail

/-- The loop, by its fuel. -/
theorem ascends_refill (fuel : Nat) : ∀ n, Ascends (refill env fuel n) := by
  induction fuel with
  | zero => exact fun _ => Ascends.stuck
  | succ fuel ih =>
    intro n
    refine Ascends.get.bind fun buf => ?_
    split
    · split
      · refine (Ascends.modify _).bind fun _ => (ascends_releaseBytes _).bind fun _ => ?_
        refine (ascends_writeBytes _ _).bind fun _ => (Ascends.modify _).bind fun _ => ih (n + 1)
      · exact Ascends.pure ()
    · exact Ascends.pure ()

theorem ascends_place (offset : Nat) (bytes : List UInt8) : Ascends (place env offset bytes) := by
  refine Ascends.get.bind fun buf => ?_
  split_ifs
  · exact Ascends.pure false
  · exact (Ascends.modify _).bind fun _ => Ascends.pure false
  · exact (Ascends.modify _).bind fun _ => Ascends.pure true
  · refine (ascends_writeBytes _ _).bind fun _ => (Ascends.modify _).bind fun _ => ?_
    exact (ascends_refill env _ 1).bind fun _ => Ascends.pure true

theorem ascends_onSeal (crc32 : List UInt8 → UInt32) (sealedSize : Nat) :
    Ascends (onSeal crc32 sealedSize) := by
  have hcount : Ascends (countRecords crc32) := by
    refine Ascends.get.bind fun buf => (Ascends.read _).bind fun bytes => ?_
    cases bytes with
    | none => exact Ascends.pure ()
    | some bytes =>
      dsimp only
      split
      · exact Ascends.modify _
      · exact Ascends.fail
  refine Ascends.get.bind fun buf => (Ascends.modify _).bind fun _ => ?_
  exact hcount.bind fun _ => Ascends.pure _

end SegmentBuf

namespace Reassembler
variable (env : Environment)

theorem ascends_onSegment {α : Type} {key : SegmentKey} {buf : SegmentBuf}
    {x : Process FileSystem SegmentBuf α} (hx : Ascends x) : Ascends (onSegment key buf x) :=
  hx.zoom

/-- An eviction leaves the files alone. -/
theorem ascends_enforcePendingBudget (fuel : Nat) :
    ∀ n, Ascends (enforcePendingBudget env fuel n) := by
  induction fuel with
  | zero => exact fun _ => Ascends.stuck
  | succ fuel ih =>
    intro n
    refine Ascends.get.bind fun r => ?_
    split
    · split
      · dsimp only
        split
        · split
          · refine Ascends.bind (ascends_onSegment ?_) fun _ =>
              (Ascends.modify _).bind fun _ => ih _
            exact (Ascends.modify _).bind fun _ => SegmentBuf.ascends_releaseBytes _
          · exact ih (n + 1)
        · exact ih (n + 1)
      · exact Ascends.pure ()
    · exact Ascends.pure ()

theorem ascends_placeRaw (devId segmentSeq : UInt32) (offset : Nat) (plaintext : List UInt8) :
    Ascends (placeRaw env devId segmentSeq offset plaintext) := by
  have hentry : Ascends (entry env devId segmentSeq) := by
    refine Ascends.get.bind fun r => ?_
    split
    · exact Ascends.pure _
    · refine (SegmentBuf.ascends_openBuf env devId segmentSeq).bind fun _ => ?_
      exact (Ascends.modify _).bind fun _ => Ascends.pure _
  refine (Ascends.modify _).bind fun _ => hentry.bind fun buf => ?_
  refine (ascends_onSegment (SegmentBuf.ascends_place env offset plaintext)).bind fun _ => ?_
  exact Ascends.get.bind fun r => ascends_enforcePendingBudget env _ 0

theorem ascends_onSealFrame (crc32 : List UInt8 → UInt32) (devId segmentSeq : UInt32)
    (sealedSize : Nat) : Ascends (onSealFrame crc32 devId segmentSeq sealedSize) := by
  refine (Ascends.modify _).bind fun _ => Ascends.get.bind fun r => ?_
  split
  · refine (ascends_onSegment (SegmentBuf.ascends_onSeal crc32 sealedSize)).bind fun missing => ?_
    split
    · refine (Ascends.modify _).bind fun _ => ?_
      split
      · exact Ascends.pure _
      · exact Ascends.pure _
    · exact Ascends.pure _
  · exact Ascends.pure _

end Reassembler

theorem ascends_onChunkFrame (codec : Codec) (env : Environment) (key payload : List UInt8) :
    Ascends (onChunkFrame codec env key payload) := by
  refine Ascends.get.bind fun receiver => ?_
  split
  · exact Ascends.fail
  · refine (Ascends.modify _).bind fun _ => ?_
    split
    · exact (Reassembler.ascends_placeRaw env _ _ _ _).zoom
    · exact Ascends.pure ()

theorem ascends_onBatchFrame (codec : Codec) (env : Nat → Environment) (payload : List UInt8) :
    Ascends (onBatchFrame codec env payload) := by
  unfold onBatchFrame
  split
  · refine Ascends.forM (fun e => (Ascends.modify _).bind fun _ => ?_) _
    split
    · exact (Reassembler.ascends_placeRaw _ _ _ _ _).zoom
    · exact Ascends.pure ()
  · exact Ascends.modify _

/-- **A step of a task ascends**, whatever it has received. -/
theorem TaskStep.ascends_perform (codec : WireCodec) (crc32 : List UInt8 → UInt32) (e : TaskStep) :
    Ascends (e.perform codec crc32) := by
  cases e with
  | data env key payload => exact (ascends_onChunkFrame codec.toCodec env key payload).zoom
  | batch env payload => exact (ascends_onBatchFrame codec.toCodec env payload).zoom
  | sealSignal payload =>
    simp only [perform]
    split
    · refine Ascends.bind (Ascends.zoom ?_) fun _ => Ascends.modify _
      exact Reassembler.ascends_onSealFrame crc32 _ _ _
    · exact Ascends.pure ()
  | replies rs => exact Ascends.modify _
  | tick => exact Ascends.modify _
  | finish =>
    refine Ascends.get.bind fun subscriber => ?_
    split
    · exact (Ascends.zoom (Ascends.modify _)).bind fun _ => Ascends.modify _
    · exact Ascends.pure ()
  | query key => exact Ascends.pure ()

theorem TaskStep.state?_of_step {codec : WireCodec} {crc32 : List UInt8 → UInt32} {e : TaskStep}
    {s u : FileSystem × Subscriber} (h : e.step codec crc32 s = some u) :
    (e.perform codec crc32 s.1 s.2).outcome.state? = some u := by
  unfold step at h
  split at h
  · exact h
  · cases h

/-- The disks a run passes through behind the first one: those inside each step, and the one
each step leaves. -/
def Subscriber.runDisks (codec : WireCodec) (crc32 : List UInt8 → UInt32) :
    FileSystem × Subscriber → List TaskStep → List FileSystem
  | _, [] => []
  | s, e :: es => (e.perform codec crc32 s.1 s.2).trace ++
    match e.step codec crc32 s with
    | some u => u.1 :: runDisks codec crc32 u es
    | none => []

/-- **A run of the tasks ascends.**  Induction on the steps: what a step passes through is below
what it leaves, where the rest begins. -/
theorem Subscriber.ascends_run {codec : WireCodec} {crc32 : List UInt8 → UInt32}
    {es : List TaskStep} {s u : FileSystem × Subscriber}
    (h : Transition.run (TaskStep.step codec crc32) s es = some u) :
    (s.1 :: runDisks codec crc32 s es ++ [u.1]).Pairwise (· ≤ ·) := by
  induction es generalizing s with
  | nil =>
    obtain rfl := Option.some.inj h
    exact List.pairwise_pair.mpr (le_refl s.1)
  | cons e es ih =>
    rw [Transition.run_cons, Option.bind_eq_some_iff] at h
    obtain ⟨v, hv, hrest⟩ := h
    have hinside := (TaskStep.ascends_perform codec crc32 e).returned (TaskStep.state?_of_step hv)
    simp only [runDisks, hv]
    rw [← List.cons_append, List.append_assoc]
    exact ascent_join hinside (ih hrest)

/-! ## Lives of the receiver -/

/-- A life of the receiver. -/
structure Subscriber.Life where
  /-- The steps its tasks have taken to the end. -/
  steps : List TaskStep
  /-- The step it was killed in, if it was in one. -/
  last : Option TaskStep

/-- It is started on the files `fs` with nothing in memory, and leaves `t`. -/
def Subscriber.Life.Leaves (codec : WireCodec) (crc32 : List UInt8 → UInt32) (fs t : FileSystem)
    (life : Subscriber.Life) : Prop :=
  ∃ s, Transition.run (TaskStep.step codec crc32) (fs, .new) life.steps = some s ∧
    match life.last with
    | none => t = s.1
    | some e => e.enabled s.2.sealTask = true ∧ t ∈ (e.perform codec crc32 s.1 s.2).trace

/-- One life after another, each on the files that are left. -/
inductive Subscriber.Lives (codec : WireCodec) (crc32 : List UInt8 → UInt32) (fs : FileSystem) :
    List Subscriber.Life → FileSystem → Prop
  | nil : Lives codec crc32 fs [] fs
  | snoc {lives life t u} : Lives codec crc32 fs lives t → life.Leaves codec crc32 t u →
    Lives codec crc32 fs (lives ++ [life]) u

/-- The life is started on `fs`, passes through `disks`, and leaves `t`; if it is killed in the
middle of a step, that is one of the disks inside it. -/
def Subscriber.Life.Passes (codec : WireCodec) (crc32 : List UInt8 → UInt32) (fs : FileSystem)
    (disks : List FileSystem) (t : FileSystem) (life : Subscriber.Life) : Prop :=
  ∃ s, Transition.run (TaskStep.step codec crc32) (fs, .new) life.steps = some s ∧
    match life.last with
    | none => disks = Subscriber.runDisks codec crc32 (fs, .new) life.steps ∧ t = s.1
    | some e => e.enabled s.2.sealTask = true ∧ ∃ inside after,
      (e.perform codec crc32 s.1 s.2).trace = inside ++ t :: after ∧
        disks = Subscriber.runDisks codec crc32 (fs, .new) life.steps ++ inside

/-- One life after another, with all the disks before the last one in their order. -/
inductive Subscriber.Chronicle (codec : WireCodec) (crc32 : List UInt8 → UInt32) (fs : FileSystem) :
    List Subscriber.Life → List FileSystem → FileSystem → Prop
  | nil : Chronicle codec crc32 fs [] [] fs
  | snoc {lives life disks inside t u} : Chronicle codec crc32 fs lives disks t →
    life.Passes codec crc32 t inside u →
    Chronicle codec crc32 fs (lives ++ [life]) (disks ++ t :: inside) u

namespace Subscriber
variable {codec : WireCodec} {crc32 : List UInt8 → UInt32} {fs t : FileSystem}

/-- A life that leaves something has passed through something. -/
theorem Life.leaves_iff_passes {life : Life} :
    life.Leaves codec crc32 fs t ↔ ∃ disks, life.Passes codec crc32 fs disks t := by
  unfold Leaves Passes
  cases life.last with
  | none =>
    constructor
    · rintro ⟨s, hrun, rfl⟩
      exact ⟨_, s, hrun, rfl, rfl⟩
    · rintro ⟨_, s, hrun, -, rfl⟩
      exact ⟨s, hrun, rfl⟩
  | some e =>
    constructor
    · rintro ⟨s, hrun, henabled, hmem⟩
      obtain ⟨inside, after, htrace⟩ := List.append_of_mem hmem
      exact ⟨_, s, hrun, henabled, inside, after, htrace, rfl⟩
    · rintro ⟨_, s, hrun, henabled, inside, after, htrace, -⟩
      refine ⟨s, hrun, henabled, htrace ▸ ?_⟩
      exact List.mem_append_right inside List.mem_cons_self

/-- Any number of lives has passed through something. -/
theorem lives_iff_chronicle {lives : List Life} :
    Lives codec crc32 fs lives t ↔ ∃ disks, Chronicle codec crc32 fs lives disks t := by
  constructor
  · intro h
    induction h with
    | nil => exact ⟨[], Chronicle.nil⟩
    | snoc _ hlife ih =>
      obtain ⟨disks, hdisks⟩ := ih
      obtain ⟨inside, hinside⟩ := Life.leaves_iff_passes.mp hlife
      exact ⟨_, hdisks.snoc hinside⟩
  · rintro ⟨disks, h⟩
    induction h with
    | nil => exact Lives.nil
    | snoc _ hlife ih => exact ih.snoc (Life.leaves_iff_passes.mpr ⟨_, hlife⟩)

/-- **A life ascends.** -/
theorem Life.Passes.ascends {life : Life} {disks : List FileSystem}
    (h : life.Passes codec crc32 fs disks t) : (fs :: disks ++ [t]).Pairwise (· ≤ ·) := by
  obtain ⟨s, hrun, hlast⟩ := h
  have hsteps : (fs :: runDisks codec crc32 (fs, .new) life.steps ++ [s.1]).Pairwise (· ≤ ·) :=
    ascends_run hrun
  cases hkilled : life.last with
  | none =>
    rw [hkilled] at hlast
    obtain ⟨rfl, rfl⟩ := hlast
    exact hsteps
  | some e =>
    rw [hkilled] at hlast
    obtain ⟨-, inside, after, htrace, rfl⟩ := hlast
    have hinside := (TaskStep.ascends_perform codec crc32 e).cut s.1 s.2
    rw [htrace] at hinside
    have hcut : (s.1 :: (inside ++ [t])).Pairwise (· ≤ ·) := by
      refine hinside.sublist (List.Sublist.cons_cons _ ?_)
      exact (List.Sublist.cons_cons t (List.nil_sublist after)).append_left inside
    have hsub : (fs :: (runDisks codec crc32 (fs, .new) life.steps ++ inside) ++ [t]).Sublist
        (fs :: runDisks codec crc32 (fs, .new) life.steps ++ s.1 :: (inside ++ [t])) := by
      rw [← List.cons_append, List.append_assoc]
      exact (List.sublist_cons_self s.1 _).append_left _
    exact (ascent_join hsteps hcut).sublist hsub

/-- **Any number of lives ascends**: of all the disks passed through, those inside the steps
of every life included, each one is above those before it. -/
theorem Chronicle.ascends {lives : List Life} {disks : List FileSystem}
    (h : Chronicle codec crc32 fs lives disks t) : (disks ++ [t]).Pairwise (· ≤ ·) := by
  induction h with
  | nil => exact List.pairwise_singleton _ fs
  | snoc _ hlife ih =>
    rw [List.append_assoc, List.cons_append]
    exact ascent_join ih hlife.ascends

theorem Life.Leaves.le {life : Life} (h : life.Leaves codec crc32 fs t) : fs ≤ t := by
  obtain ⟨disks, hdisks⟩ := Life.leaves_iff_passes.mp h
  exact (List.pairwise_append.mp hdisks.ascends).2.2 fs List.mem_cons_self t
    (List.mem_singleton.mpr rfl)

theorem Lives.le {lives : List Life} (h : Lives codec crc32 fs lives t) : fs ≤ t := by
  induction h with
  | nil => exact le_refl fs
  | snoc _ hlife ih => exact le_trans ih hlife.le

end Subscriber
end SovProbe
