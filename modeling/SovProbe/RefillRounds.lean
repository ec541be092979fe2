import SovProbe.SubscriberSafety

/-! # How a refill ends

`refill_segment` asks at most four times and looks at most four times after each reply, so
its task comes to its end whatever is replied and whatever the other tasks do between
(`refill_ends`).  It stops before that only when the sender says that it has the segment
no more, or when a check has seen the whole of the segment written (`refill_verdict`).  A
check never takes a segment without a buffer for a complete one, since the task is the
only one that drops buffers.
-/

namespace SovProbe
open Process

/-! ## What is left of a refill -/

namespace SealTask

/-- The rounds are counted from one, and the checks of a round from zero. -/
def Proper : SealTask → Prop
  | asking _ _ attempt => 1 ≤ attempt ∧ attempt ≤ maxRetries
  | verifying _ _ attempt ticks => 1 ≤ attempt ∧ attempt ≤ maxRetries ∧ ticks < verifyTicks
  | _ => True

/-- How many replies the refill can still wait for. -/
def queriesLeft : SealTask → Nat
  | asking _ _ attempt => maxRetries - attempt + 1
  | verifying _ _ attempt _ => maxRetries - attempt
  | _ => 0

/-- How many checks it can still make. -/
def checksLeft : SealTask → Nat
  | asking _ _ attempt => (maxRetries - attempt + 1) * verifyTicks
  | verifying _ _ attempt ticks => (maxRetries - attempt) * verifyTicks + (verifyTicks - ticks)
  | _ => 0

/-- How many buffers it can still drop. -/
def removalsLeft : SealTask → Nat
  | waiting => 0
  | _ => 1

/-- The task is at the refill of this request, or through with it. -/
def At (gq : GapQuery) (sealedSize : Nat) (task : SealTask) : Prop :=
  task = waiting ∨ task = removing gq ∨ (∃ attempt, task = asking gq sealedSize attempt) ∨
    ∃ attempt ticks, task = verifying gq sealedSize attempt ticks

end SealTask

namespace TaskStep

/-- The replies to a query are in. -/
def isQuery : TaskStep → Bool
  | replies _ => true
  | _ => false

/-- A check of how far the segment has come. -/
def isCheck : TaskStep → Bool
  | tick => true
  | _ => false

/-- The buffer is dropped. -/
def isRemoval : TaskStep → Bool
  | finish => true
  | _ => false

/-- A seal signal starts a new refill. -/
def isSeal : TaskStep → Bool
  | sealSignal _ => true
  | _ => false

/-- The sender says that it has the segment no more. -/
def Gone (e : TaskStep) : Prop := ∃ rs, e = replies rs ∧ saysGone rs = true

/-- A check sees the whole segment written. -/
def Completes (self : Subscriber) (e : TaskStep) : Prop :=
  e = tick ∧ ∃ gq sealedSize attempt ticks buf,
    self.sealTask = .verifying gq sealedSize attempt ticks ∧
    self.receiver.reassembler.segments.lookup gq.key = some buf ∧ sealedSize ≤ buf.nextExpected

end TaskStep

variable {codec : WireCodec} {crc32 : List UInt8 → UInt32} {self : Subscriber} {e : TaskStep}
  {gq : GapQuery} {sealedSize attempt ticks : Nat} {task : SealTask} {r : Reassembler}
  {s u : FileSystem × Subscriber} {es : List TaskStep}

/-! ## One step -/

theorem SealTask.proper_sealed (request : Option GapQuery) (sealedSize : Nat) :
    (SealTask.sealed request sealedSize).Proper := by
  cases request with
  | none => trivial
  | some gq => exact ⟨Nat.le_refl 1, by decide⟩

theorem SealTask.Proper.replied (h : task.Proper) (rs : Option (List Reply)) :
    (task.replied rs).Proper := by
  cases task with
  | asking gq sealedSize attempt =>
    simp only [SealTask.replied]
    split
    · trivial
    · exact ⟨h.1, h.2, by decide⟩
  | waiting => exact h
  | verifying gq sealedSize attempt ticks => exact h
  | removing gq => exact h

/-- **A check** completes the segment, goes on with the round or with the next one, or gives
up. -/
theorem SealTask.verify_verifying :
    (SealTask.verifying gq sealedSize attempt ticks).verify r =
      if sealedSize ≤ ((r.segments.lookup gq.key).map SegmentBuf.nextExpected).getD sealedSize
      then removing gq
      else if ticks + 1 < verifyTicks then verifying gq sealedSize attempt (ticks + 1)
      else if attempt < maxRetries then asking gq sealedSize (attempt + 1)
      else removing gq := rfl

theorem SealTask.Proper.verify (h : task.Proper) (r : Reassembler) : (task.verify r).Proper := by
  cases task with
  | verifying gq sealedSize attempt ticks =>
    obtain ⟨hone, hlast, -⟩ := h
    rw [verify_verifying]
    split_ifs with hcomplete hticks hattempt
    · trivial
    · exact ⟨hone, hlast, hticks⟩
    · exact ⟨Nat.le_add_left 1 attempt, hattempt⟩
    · trivial
  | waiting => exact h
  | asking gq sealedSize attempt => exact h
  | removing gq => exact h

theorem TaskStep.proper_nextTask (h : self.sealTask.Proper) (e : TaskStep) :
    (e.nextTask codec self).Proper := by
  cases e with
  | sealSignal payload =>
    unfold nextTask
    dsimp only
    split
    · exact SealTask.proper_sealed _ _
    · exact h
  | replies rs => exact h.replied rs
  | tick => exact h.verify _
  | finish => trivial
  | data env key payload => exact h
  | batch env payload => exact h
  | query key => exact h

/-- What a step takes off what is left: `q` queries and `c` checks. -/
structure SealTask.Spends (q c f : Nat) (task task' : SealTask) : Prop where
  queries : q + task'.queriesLeft ≤ task.queriesLeft
  checks : c + task'.checksLeft ≤ task.checksLeft
  removals : f + task'.removalsLeft ≤ task.removalsLeft

/-- **The replies** to a query. -/
theorem SealTask.replied_asking (gq : GapQuery) (sealedSize attempt : Nat)
    (rs : Option (List Reply)) :
    SealTask.Spends 1 0 0 (asking gq sealedSize attempt)
        ((asking gq sealedSize attempt).replied rs) ∧
      (saysGone rs = false → 1 + ((asking gq sealedSize attempt).replied rs).queriesLeft =
          (asking gq sealedSize attempt).queriesLeft ∧
        ((asking gq sealedSize attempt).replied rs).checksLeft =
          (asking gq sealedSize attempt).checksLeft) := by
  unfold SealTask.replied
  cases saysGone rs with
  | true =>
    refine ⟨⟨?_, Nat.zero_le _, Nat.le_refl _⟩, nofun⟩
    exact Nat.succ_le_succ (Nat.zero_le _)
  | false =>
    have hchecks : (maxRetries - attempt) * verifyTicks + verifyTicks =
        (maxRetries - attempt + 1) * verifyTicks := (Nat.succ_mul _ _).symm
    refine ⟨⟨Nat.le_of_eq (Nat.add_comm _ _), ?_, Nat.le_refl _⟩, fun _ =>
      ⟨Nat.add_comm _ _, hchecks⟩⟩
    exact Nat.le_of_eq ((Nat.zero_add _).trans hchecks)

/-- **A check** of a segment that has a buffer. -/
theorem SealTask.verify_spends {buf : SegmentBuf}
    (h : (verifying gq sealedSize attempt ticks).Proper)
    (hlookup : r.segments.lookup gq.key = some buf) :
    SealTask.Spends 0 1 0 (verifying gq sealedSize attempt ticks)
        ((verifying gq sealedSize attempt ticks).verify r) ∧
      (buf.nextExpected < sealedSize →
        ((verifying gq sealedSize attempt ticks).verify r).queriesLeft =
          (verifying gq sealedSize attempt ticks).queriesLeft ∧
        1 + ((verifying gq sealedSize attempt ticks).verify r).checksLeft =
          (verifying gq sealedSize attempt ticks).checksLeft) := by
  obtain ⟨-, hlast, hticks⟩ := h
  have hpos : 1 ≤ (verifying gq sealedSize attempt ticks).checksLeft :=
    Nat.le_trans (Nat.sub_pos_of_lt hticks) (Nat.le_add_left _ _)
  rw [verify_verifying, hlookup, Option.map_some, Option.getD_some]
  split_ifs with hcomplete hmore hround
  · exact ⟨⟨Nat.zero_le _, hpos, Nat.le_refl _⟩, fun hlt => absurd hcomplete (Nat.not_le.mpr hlt)⟩
  · have hchecks : 1 + (verifying gq sealedSize attempt (ticks + 1)).checksLeft =
        (verifying gq sealedSize attempt ticks).checksLeft := by
      simp only [checksLeft]
      omega
    exact ⟨⟨Nat.le_of_eq (Nat.zero_add _), Nat.le_of_eq hchecks, Nat.le_refl _⟩,
      fun _ => ⟨rfl, hchecks⟩⟩
  · -- the last check of a round that is not the last
    have hqueries : (asking gq sealedSize (attempt + 1)).queriesLeft =
        (verifying gq sealedSize attempt ticks).queriesLeft := by
      simp only [queriesLeft]
      omega
    have hchecks : 1 + (asking gq sealedSize (attempt + 1)).checksLeft =
        (verifying gq sealedSize attempt ticks).checksLeft := by
      have hrounds : maxRetries - (attempt + 1) + 1 = maxRetries - attempt := by omega
      simp only [checksLeft, hrounds]
      omega
    exact ⟨⟨Nat.le_of_eq ((Nat.zero_add _).trans hqueries), Nat.le_of_eq hchecks,
      Nat.le_refl _⟩, fun _ => ⟨hqueries, hchecks⟩⟩
  · have hround' : maxRetries - attempt = 0 := by omega
    refine ⟨⟨Nat.zero_le _, hpos, Nat.le_refl _⟩, fun _ => ⟨hround'.symm, ?_⟩⟩
    simp only [checksLeft, hround']
    omega

/-- **A step** other than a seal takes off what it is itself, and no more unless it ends the
rounds. -/
theorem TaskStep.nextTask_spends (codec : WireCodec) (hproper : self.sealTask.Proper)
    (hsound : self.Sound) (henabled : e.enabled self.sealTask = true) (hseal : e.isSeal = false) :
    SealTask.Spends e.isQuery.toNat e.isCheck.toNat e.isRemoval.toNat self.sealTask
        (e.nextTask codec self) ∧
      (¬ e.Gone → ¬ e.Completes self →
        e.isQuery.toNat + (e.nextTask codec self).queriesLeft = self.sealTask.queriesLeft ∧
        e.isCheck.toNat + (e.nextTask codec self).checksLeft = self.sealTask.checksLeft) := by
  have hidle : ∀ task : SealTask, SealTask.Spends 0 0 0 task task ∧
      0 + task.queriesLeft = task.queriesLeft ∧ 0 + task.checksLeft = task.checksLeft := fun task =>
    ⟨⟨Nat.le_of_eq (Nat.zero_add _), Nat.le_of_eq (Nat.zero_add _), Nat.le_of_eq (Nat.zero_add _)⟩,
      Nat.zero_add _, Nat.zero_add _⟩
  cases e with
  | sealSignal payload => cases hseal
  | data env key payload => exact ⟨(hidle _).1, fun _ _ => (hidle _).2⟩
  | batch env payload => exact ⟨(hidle _).1, fun _ _ => (hidle _).2⟩
  | query key => exact ⟨(hidle _).1, fun _ _ => (hidle _).2⟩
  | replies rs =>
    unfold nextTask
    cases htask : self.sealTask with
    | asking gq sealedSize attempt =>
      obtain ⟨hspends, hexact⟩ := SealTask.replied_asking gq sealedSize attempt rs
      refine ⟨hspends, fun hgone _ => ?_⟩
      have hsays : saysGone rs = false :=
        Bool.eq_false_iff.mpr fun h => hgone ⟨rs, rfl, h⟩
      obtain ⟨hqueries, hchecks⟩ := hexact hsays
      exact ⟨hqueries, (Nat.zero_add _).trans hchecks⟩
    | waiting => simp [enabled, htask] at henabled
    | verifying gq sealedSize attempt ticks => simp [enabled, htask] at henabled
    | removing gq => simp [enabled, htask] at henabled
  | tick =>
    unfold nextTask
    cases htask : self.sealTask with
    | verifying gq sealedSize attempt ticks =>
      have hmem : gq.key ∈ self.receiver.reassembler.segments :=
        hsound.refilling gq.key (by rw [htask]; rfl)
      obtain ⟨buf, hlookup⟩ := Option.isSome_iff_exists.mp (AList.lookup_isSome.mpr hmem)
      obtain ⟨hspends, hexact⟩ := SealTask.verify_spends (htask ▸ hproper) hlookup
      refine ⟨hspends, fun _ hcompletes => ?_⟩
      have hlt : buf.nextExpected < sealedSize := Nat.not_le.mp fun hle =>
        hcompletes ⟨rfl, gq, sealedSize, attempt, ticks, buf, htask, hlookup, hle⟩
      obtain ⟨hqueries, hchecks⟩ := hexact hlt
      exact ⟨(Nat.zero_add _).trans hqueries, hchecks⟩
    | waiting => simp [enabled, htask] at henabled
    | asking gq sealedSize attempt => simp [enabled, htask] at henabled
    | removing gq => simp [enabled, htask] at henabled
  | finish =>
    unfold nextTask
    cases htask : self.sealTask with
    | removing gq => exact ⟨⟨Nat.le_refl _, Nat.le_refl _, Nat.le_refl _⟩, fun _ _ => ⟨rfl, rfl⟩⟩
    | waiting => simp [enabled, htask] at henabled
    | asking gq sealedSize attempt => simp [enabled, htask] at henabled
    | verifying gq sealedSize attempt ticks => simp [enabled, htask] at henabled

/-- And it stays at the same refill. -/
theorem TaskStep.nextTask_at (h : self.sealTask.At gq sealedSize) (hseal : e.isSeal = false) :
    (e.nextTask codec self).At gq sealedSize := by
  cases e with
  | sealSignal payload => cases hseal
  | data env key payload => exact h
  | batch env payload => exact h
  | query key => exact h
  | finish => exact Or.inl rfl
  | replies rs =>
    unfold nextTask
    rcases h with htask | htask | ⟨attempt, htask⟩ | ⟨attempt, ticks, htask⟩ <;> rw [htask]
    · exact Or.inl rfl
    · exact Or.inr (Or.inl rfl)
    · simp only [SealTask.replied]
      split
      · exact Or.inr (Or.inl rfl)
      · exact Or.inr (Or.inr (Or.inr ⟨attempt, 0, rfl⟩))
    · exact Or.inr (Or.inr (Or.inr ⟨attempt, ticks, rfl⟩))
  | tick =>
    unfold nextTask
    rcases h with htask | htask | ⟨attempt, htask⟩ | ⟨attempt, ticks, htask⟩ <;> rw [htask]
    · exact Or.inl rfl
    · exact Or.inr (Or.inl rfl)
    · exact Or.inr (Or.inr (Or.inl ⟨attempt, rfl⟩))
    · rw [SealTask.verify_verifying]
      split_ifs
      · exact Or.inr (Or.inl rfl)
      · exact Or.inr (Or.inr (Or.inr ⟨attempt, ticks + 1, rfl⟩))
      · exact Or.inr (Or.inr (Or.inl ⟨attempt + 1, rfl⟩))
      · exact Or.inr (Or.inl rfl)

/-! ## Runs -/

/-- What is known of the task for the seals in every state that can be reached. -/
structure Subscriber.Paced (subscriber : Subscriber) : Prop where
  sound : subscriber.Sound
  proper : subscriber.sealTask.Proper

theorem Subscriber.Paced.step (hcodec : codec.HasHeader) (h : s.2.Paced)
    (hstep : e.step codec crc32 s = some u) :
    u.2.Paced ∧ u.2.sealTask = e.nextTask codec s.2 := by
  obtain ⟨hsound, htask, -⟩ := h.sound.step hcodec hstep
  exact ⟨⟨hsound, htask ▸ TaskStep.proper_nextTask h.proper e⟩, htask⟩

theorem Subscriber.paced_run {start : FileSystem} (hcodec : codec.HasHeader)
    (hrun : Transition.run (TaskStep.step codec crc32) (start, .new) es = some s) : s.2.Paced := by
  have hnew : (start, Subscriber.new).2.Paced := ⟨Subscriber.Sound.new, trivial⟩
  have hstep : ∀ (s : FileSystem × Subscriber) (e : TaskStep) (u : FileSystem × Subscriber),
      s.2.Paced → e.step codec crc32 s = some u → u.2.Paced :=
    fun _ _ _ hs hstep => (hs.step hcodec hstep).1
  exact Transition.run_invariant hstep hnew hrun

/-- **What a run without a seal signal spends.** -/
theorem Subscriber.Paced.run_spends (hcodec : codec.HasHeader) (h : s.2.Paced)
    (hseal : ∀ e ∈ es, e.isSeal = false)
    (hrun : Transition.run (TaskStep.step codec crc32) s es = some u) :
    u.2.Paced ∧ SealTask.Spends (es.countP TaskStep.isQuery) (es.countP TaskStep.isCheck)
      (es.countP TaskStep.isRemoval) s.2.sealTask u.2.sealTask := by
  induction es generalizing s with
  | nil =>
    obtain rfl := Option.some.inj hrun
    exact ⟨h, Nat.le_of_eq (Nat.zero_add _), Nat.le_of_eq (Nat.zero_add _),
      Nat.le_of_eq (Nat.zero_add _)⟩
  | cons e es ih =>
    rw [Transition.run_cons, Option.bind_eq_some_iff] at hrun
    obtain ⟨v, hv, hrest⟩ := hrun
    obtain ⟨hpaced, htask⟩ := h.step hcodec hv
    obtain ⟨hstep, -⟩ := TaskStep.nextTask_spends codec h.proper h.sound
      (TaskStep.step_eq_some.mp hv).1 (hseal e List.mem_cons_self)
    obtain ⟨hu, hspends⟩ := ih hpaced (fun e' he' => hseal e' (List.mem_cons_of_mem e he')) hrest
    rw [← htask] at hstep
    have hcount : ∀ p : TaskStep → Bool, (e :: es).countP p = es.countP p + (p e).toNat := by
      intro p
      rw [List.countP_cons]
      cases p e <;> rfl
    refine ⟨hu, ?_, ?_, ?_⟩ <;> rw [hcount]
    · have := hstep.queries
      have := hspends.queries
      omega
    · have := hstep.checks
      have := hspends.checks
      omega
    · have := hstep.removals
      have := hspends.removals
      omega

/-- **And one in which the sender has the segment and no check sees it complete.** -/
theorem Subscriber.Paced.run_exact (hcodec : codec.HasHeader) (h : s.2.Paced)
    (hseal : ∀ e ∈ es, e.isSeal = false) (hgone : ∀ e ∈ es, ¬ e.Gone)
    (hcompletes : ∀ pre e v, pre ++ [e] <+: es →
      Transition.run (TaskStep.step codec crc32) s pre = some v → ¬ e.Completes v.2)
    (hrun : Transition.run (TaskStep.step codec crc32) s es = some u) :
    es.countP TaskStep.isQuery + u.2.sealTask.queriesLeft = s.2.sealTask.queriesLeft ∧
      es.countP TaskStep.isCheck + u.2.sealTask.checksLeft = s.2.sealTask.checksLeft := by
  induction es generalizing s with
  | nil =>
    obtain rfl := Option.some.inj hrun
    exact ⟨Nat.zero_add _, Nat.zero_add _⟩
  | cons e es ih =>
    rw [Transition.run_cons, Option.bind_eq_some_iff] at hrun
    obtain ⟨v, hv, hrest⟩ := hrun
    obtain ⟨hpaced, htask⟩ := h.step hcodec hv
    obtain ⟨-, hexact⟩ := TaskStep.nextTask_spends codec h.proper h.sound
      (TaskStep.step_eq_some.mp hv).1 (hseal e List.mem_cons_self)
    obtain ⟨hqueries, hchecks⟩ := hexact (hgone e List.mem_cons_self)
      (hcompletes [] e s (List.prefix_append [e] es) rfl)
    obtain ⟨hqueries', hchecks'⟩ := ih hpaced
      (fun e' he' => hseal e' (List.mem_cons_of_mem e he'))
      (fun e' he' => hgone e' (List.mem_cons_of_mem e he'))
      (fun pre e' w hpre hw => hcompletes (e :: pre) e' w (List.cons_prefix_cons.mpr ⟨rfl, hpre⟩)
        (by rw [Transition.run_cons, hv, Option.bind_some, hw])) hrest
    rw [← htask] at hqueries hchecks
    have hcount : ∀ p : TaskStep → Bool, (e :: es).countP p = es.countP p + (p e).toNat := by
      intro p
      rw [List.countP_cons]
      cases p e <;> rfl
    rw [hcount, hcount]
    omega

theorem Subscriber.run_at (hcodec : codec.HasHeader) (h : s.2.Paced)
    (hat : s.2.sealTask.At gq sealedSize) (hseal : ∀ e ∈ es, e.isSeal = false)
    (hrun : Transition.run (TaskStep.step codec crc32) s es = some u) :
    u.2.sealTask.At gq sealedSize := by
  induction es generalizing s with
  | nil => exact Option.some.inj hrun ▸ hat
  | cons e es ih =>
    rw [Transition.run_cons, Option.bind_eq_some_iff] at hrun
    obtain ⟨v, hv, hrest⟩ := hrun
    obtain ⟨hpaced, htask⟩ := h.step hcodec hv
    refine ih hpaced ?_ (fun e' he' => hseal e' (List.mem_cons_of_mem e he')) hrest
    rw [htask]
    exact TaskStep.nextTask_at hat (hseal e List.mem_cons_self)

/-- A task that is in a refill can go on with it. -/
theorem SealTask.exists_enabled (h : task ≠ waiting) :
    ∃ e : TaskStep, e.ofRefill = true ∧ e.enabled task = true := by
  cases task with
  | waiting => exact absurd rfl h
  | asking gq sealedSize attempt => exact ⟨.replies none, rfl, rfl⟩
  | verifying gq sealedSize attempt ticks => exact ⟨.tick, rfl, rfl⟩
  | removing gq => exact ⟨.finish, rfl, rfl⟩

/-- **A refill ends.**  From the moment a seal has found a gap, whatever the sender replies and
whatever the other tasks do between, the task asks at most four times, checks at most
sixteen times and drops the buffer once; and as long as it is not through, it can take its
next step, so that it waits for the next seal signal after at most twenty-one steps. -/
theorem refill_ends (hcodec : codec.HasHeader) {start : FileSystem} {before : List TaskStep}
    (hbefore : Transition.run (TaskStep.step codec crc32) (start, .new) before = some s)
    (hasks : s.2.sealTask = .asking gq sealedSize 1) (hseal : ∀ e ∈ es, e.isSeal = false)
    (hrun : Transition.run (TaskStep.step codec crc32) s es = some u) :
    es.countP TaskStep.isQuery ≤ 4 ∧ es.countP TaskStep.isCheck ≤ 16 ∧
      es.countP TaskStep.isRemoval ≤ 1 ∧
      (u.2.sealTask ≠ .waiting → ∃ e : TaskStep, e.ofRefill = true ∧
        ∃ v, e.step codec crc32 u = some v) := by
  have hpaced := Subscriber.paced_run hcodec hbefore
  obtain ⟨hu, hqueries, hchecks, hremovals⟩ := hpaced.run_spends hcodec hseal hrun
  rw [hasks] at hqueries hchecks hremovals
  refine ⟨Nat.le_trans (Nat.le_add_right _ _) hqueries, Nat.le_trans (Nat.le_add_right _ _) hchecks,
    Nat.le_trans (Nat.le_add_right _ _) hremovals, fun hbusy => ?_⟩
  obtain ⟨e, hown, henabled⟩ := SealTask.exists_enabled hbusy
  have hwhole :
      Transition.run (TaskStep.step codec crc32) (start, .new) (before ++ es) = some u := by
    rw [Transition.run_append, hbefore, Option.bind_some, hrun]
  obtain ⟨-, -, -, hgoes⟩ := subscriber_bounded hcodec crc32 hwhole
  exact ⟨e, hown, hgoes e henabled⟩

/-- **Why a refill ended.**  When the task is about to drop the buffer, it is the one it has
asked for; and the sender has said that it has the segment no more, or a check has seen the
whole of the sealed size written, or the task has asked four times and checked sixteen
times, and at every check the segment still had its buffer and was incomplete. -/
theorem refill_verdict (hcodec : codec.HasHeader) {start : FileSystem} {before : List TaskStep}
    {gq' : GapQuery}
    (hbefore : Transition.run (TaskStep.step codec crc32) (start, .new) before = some s)
    (hasks : s.2.sealTask = .asking gq sealedSize 1) (hseal : ∀ e ∈ es, e.isSeal = false)
    (hrun : Transition.run (TaskStep.step codec crc32) s es = some u)
    (hends : u.2.sealTask = .removing gq') :
    gq' = gq ∧
      ((∃ rs, .replies rs ∈ es ∧ saysGone rs = true) ∨
        (∃ pre v buf, pre ++ [.tick] <+: es ∧
          Transition.run (TaskStep.step codec crc32) s pre = some v ∧
          v.2.receiver.reassembler.segments.lookup gq.key = some buf ∧
          sealedSize ≤ buf.nextExpected) ∨
        es.countP TaskStep.isQuery = 4 ∧ es.countP TaskStep.isCheck = 16 ∧
          ∀ pre v, pre ++ [.tick] <+: es →
            Transition.run (TaskStep.step codec crc32) s pre = some v →
            ∃ buf, v.2.receiver.reassembler.segments.lookup gq.key = some buf ∧
              buf.nextExpected < sealedSize) := by
  have hpaced := Subscriber.paced_run hcodec hbefore
  have hfirst : s.2.sealTask.At gq sealedSize := Or.inr (Or.inr (Or.inl ⟨1, hasks⟩))
  -- where the task is before a check
  have hchecking : ∀ pre v, pre ++ [.tick] <+: es →
      Transition.run (TaskStep.step codec crc32) s pre = some v →
      ∃ attempt ticks buf, v.2.sealTask = .verifying gq sealedSize attempt ticks ∧
        v.2.receiver.reassembler.segments.lookup gq.key = some buf := by
    intro pre v hpre hv
    have hpreseal : ∀ e ∈ pre, e.isSeal = false := fun e he =>
      hseal e (hpre.subset (List.mem_append_left _ he))
    have hat := Subscriber.run_at hcodec hpaced hfirst hpreseal hv
    obtain ⟨hv', -⟩ := hpaced.run_spends hcodec hpreseal hv
    obtain ⟨w, hw⟩ := Transition.run_prefix (TaskStep.step codec crc32) hpre hrun
    obtain ⟨v', hv'', htick⟩ := (Transition.run_concat_eq_some _).mp hw
    obtain rfl := Option.some.inj (hv.symm.trans hv'')
    have henabled := (TaskStep.step_eq_some.mp htick).1
    rcases hat with htask | htask | ⟨attempt, htask⟩ | ⟨attempt, ticks, htask⟩
    · simp [TaskStep.enabled, htask] at henabled
    · simp [TaskStep.enabled, htask] at henabled
    · simp [TaskStep.enabled, htask] at henabled
    · have hmem := hv'.sound.refilling gq.key (by rw [htask]; rfl)
      obtain ⟨buf, hlookup⟩ := Option.isSome_iff_exists.mp (AList.lookup_isSome.mpr hmem)
      exact ⟨attempt, ticks, buf, htask, hlookup⟩
  constructor
  · rcases Subscriber.run_at hcodec hpaced hfirst hseal hrun with htask | htask | ⟨_, htask⟩ |
      ⟨_, _, htask⟩ <;> rw [hends] at htask <;> cases htask
    rfl
  by_cases hgone : ∃ rs, .replies rs ∈ es ∧ saysGone rs = true
  · exact Or.inl hgone
  refine Or.inr ?_
  by_cases hcomplete : ∃ pre v buf, pre ++ [.tick] <+: es ∧
      Transition.run (TaskStep.step codec crc32) s pre = some v ∧
      v.2.receiver.reassembler.segments.lookup gq.key = some buf ∧ sealedSize ≤ buf.nextExpected
  · exact Or.inl hcomplete
  have hexact := hpaced.run_exact hcodec hseal
    (fun e he => by
      rintro ⟨rs, rfl, hsays⟩
      exact hgone ⟨rs, he, hsays⟩)
    (fun pre e v hpre hv => by
      rintro ⟨rfl, gq₁, size, attempt, ticks, buf, htask, hlookup, hle⟩
      obtain ⟨_, _, buf', htask', hlookup'⟩ := hchecking pre v hpre hv
      rw [htask'] at htask
      obtain ⟨rfl, rfl, -, -⟩ := SealTask.verifying.inj htask
      exact hcomplete ⟨pre, v, buf, hpre, hv, hlookup, hle⟩)
    hrun
  rw [hasks, hends] at hexact
  refine Or.inr ⟨hexact.1, hexact.2, fun pre v hpre hv => ?_⟩
  obtain ⟨_, _, buf, -, hlookup⟩ := hchecking pre v hpre hv
  exact ⟨buf, hlookup, Nat.not_le.mp fun hle => hcomplete ⟨pre, v, buf, hpre, hv, hlookup, hle⟩⟩

/-- The seal of `lateSecond` finds that one byte of two is missing. -/
theorem lateSecond_asks : ∃ s u,
    Transition.run (TaskStep.step byteWire Crc.ieee) (FileSystem.empty, .new)
      (lateSecond.take 2) = some s ∧
    s.2.sealTask = .asking ⟨1, 0, 1⟩ 2 1 ∧
    Transition.run (TaskStep.step byteWire Crc.ieee) s ((lateSecond.drop 2).take 3) = some u ∧
    u.2.sealTask = .removing ⟨1, 0, 1⟩ := by
  have htasks : (Transition.run (TaskStep.step byteWire Crc.ieee) (FileSystem.empty, .new)
      (lateSecond.take 2)).map (fun s => (s.2.sealTask,
        (Transition.run (TaskStep.step byteWire Crc.ieee) s ((lateSecond.drop 2).take 3)).map
          fun u => u.2.sealTask)) =
      some (.asking ⟨1, 0, 1⟩ 2 1, some (.removing ⟨1, 0, 1⟩)) := by decide +kernel
  obtain ⟨s, hs, hpair⟩ := Option.map_eq_some_iff.mp htasks
  obtain ⟨hasks, hends⟩ := Prod.mk.inj hpair
  obtain ⟨u, hu, hremoving⟩ := Option.map_eq_some_iff.mp hends
  exact ⟨s, u, hs, hasks, hu, hremoving⟩

theorem lateSecond_unsealed : ∀ e ∈ (lateSecond.drop 2).take 3, e.isSeal = false := by
  intro e he
  simp only [lateSecond, List.drop_succ_cons, List.drop_zero, List.take_succ_cons, List.take_zero,
    List.mem_cons, List.not_mem_nil, or_false] at he
  rcases he with rfl | rfl | rfl <;> rfl

theorem refill_ends_late : ∃ s u : FileSystem × Subscriber,
    Transition.run (TaskStep.step byteWire Crc.ieee) s ((lateSecond.drop 2).take 3) = some u ∧
    (u.2.sealTask ≠ .waiting → ∃ e : TaskStep, e.ofRefill = true ∧
      ∃ v, e.step byteWire Crc.ieee u = some v) := by
  obtain ⟨s, u, hs, hasks, hu, -⟩ := lateSecond_asks
  exact ⟨s, u, hu, (refill_ends byteWire_hasHeader hs hasks lateSecond_unsealed hu).2.2.2⟩

theorem refill_verdict_late : ∃ s u : FileSystem × Subscriber,
    Transition.run (TaskStep.step byteWire Crc.ieee) s ((lateSecond.drop 2).take 3) = some u ∧
    ((∃ rs, .replies rs ∈ (lateSecond.drop 2).take 3 ∧ saysGone rs = true) ∨
      (∃ pre v buf, pre ++ [.tick] <+: (lateSecond.drop 2).take 3 ∧
        Transition.run (TaskStep.step byteWire Crc.ieee) s pre = some v ∧
        v.2.receiver.reassembler.segments.lookup (1, 0) = some buf ∧ 2 ≤ buf.nextExpected) ∨
      ((lateSecond.drop 2).take 3).countP TaskStep.isQuery = 4) := by
  obtain ⟨s, u, hs, hasks, hu, hends⟩ := lateSecond_asks
  have hverdict := refill_verdict byteWire_hasHeader hs hasks lateSecond_unsealed hu hends
  exact ⟨s, u, hu, hverdict.2.imp_right (Or.imp_right And.left)⟩

end SovProbe
