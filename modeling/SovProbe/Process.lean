import Mathlib.Logic.Basic

/-! # Processes on a store that survives them

A process works on a disk, which survives a crash, and on its memory, which does
not.  An execution records the disk after every single step that changed it, so
that a crash is a cut of the trace: what is found after it is one of the states
passed through.  A loop is given fuel and is still `running` when that is used up.

`Holds` is the assertion about one execution: all states of the disk on the way
satisfy the crash condition, and the end the postcondition.  Its rules are
equivalences, one for each construct, so that a proof about a process rewrites
with them along its text.
-/

/-- How an execution ended. -/
inductive Outcome (δ ρ α : Type) where
  | done (a : α) (disk : δ) (mem : ρ)
  | failed (disk : δ) (mem : ρ)
  | running

/-- The state a process that returned has left. -/
def Outcome.state? {δ ρ α : Type} : Outcome δ ρ α → Option (δ × ρ)
  | .done _ disk mem => some (disk, mem)
  | .failed _ _ => none
  | .running => none

theorem Outcome.state?_eq_some {δ ρ α : Type} {o : Outcome δ ρ α} {s : δ × ρ} :
    o.state? = some s ↔ ∃ a, o = .done a s.1 s.2 := by
  cases o with
  | done a disk mem =>
    constructor
    · intro h
      rw [← Option.some.inj h]
      exact ⟨a, rfl⟩
    · rintro ⟨b, h⟩
      injection h with _ hdisk hmem
      rw [Outcome.state?, hdisk, hmem]
  | failed disk mem => exact ⟨nofun, nofun⟩
  | running => exact ⟨nofun, nofun⟩

/-- The states of the disk passed through, and the end. -/
structure Execution (δ ρ α : Type) where
  trace : List δ
  outcome : Outcome δ ρ α

/-- A process with disk `δ`, memory `ρ` and result `α`. -/
def Process (δ ρ α : Type) : Type := δ → ρ → Execution δ ρ α

namespace Process
variable {δ ρ τ α β : Type}

/-- `x`, and then `f` on its result, unless `x` failed or is still running. -/
def bind (x : Process δ ρ α) (f : α → Process δ ρ β) : Process δ ρ β := fun d m =>
  match x d m with
  | ⟨trace, .done a d' m'⟩ => ⟨trace ++ (f a d' m').trace, (f a d' m').outcome⟩
  | ⟨trace, .failed d' m'⟩ => ⟨trace, .failed d' m'⟩
  | ⟨trace, .running⟩ => ⟨trace, .running⟩

instance : Monad (Process δ ρ) where
  pure a := fun d m => ⟨[], .done a d m⟩
  bind := bind

theorem bind_assoc {γ : Type} (x : Process δ ρ α) (f : α → Process δ ρ β) (g : β → Process δ ρ γ) :
    x >>= f >>= g = x >>= fun a => f a >>= g := by
  funext d m
  show bind (bind x f) g d m = bind x (fun a => bind (f a) g) d m
  unfold bind
  cases x d m with
  | mk trace outcome =>
    cases outcome with
    | done a d' m' =>
      dsimp only
      cases f a d' m' with
      | mk trace' outcome' => cases outcome' <;> simp
    | failed d' m' => rfl
    | running => rfl

/-- A process that does nothing more. -/
theorem bind_pure (x : Process δ ρ α) : (x >>= fun a => Pure.pure a) = x := by
  funext d m
  show bind x (fun a => Pure.pure a) d m = x d m
  unfold bind
  cases x d m with
  | mk trace outcome =>
    cases outcome with
    | done a d' m' => exact congrArg (Execution.mk · _) (List.append_nil _)
    | failed d' m' => rfl
    | running => rfl

instance : LawfulMonad (Process δ ρ) := LawfulMonad.mk' _ bind_pure (fun _ _ => rfl) bind_assoc

/-- Stops with an error. -/
def fail : Process δ ρ α := fun d m => ⟨[], .failed d m⟩

/-- Out of fuel. -/
def stuck : Process δ ρ α := fun _ _ => ⟨[], .running⟩

/-- The memory. -/
def get : Process δ ρ ρ := fun d m => ⟨[], .done m d m⟩

/-- What follows is given the memory. -/
theorem get_bind_eq {f : ρ → Process δ ρ β} (d : δ) (m : ρ) : (get >>= f) d m = f m d m := rfl

/-- Changes the memory. -/
def modify (f : ρ → ρ) : Process δ ρ Unit := fun d m => ⟨[], .done () d (f m)⟩

/-- Reads the disk. -/
def read (f : δ → α) : Process δ ρ α := fun d m => ⟨[], .done (f d) d m⟩

/-- Changes the disk in one step. -/
def write (f : δ → δ) : Process δ ρ Unit := fun d m => ⟨[f d], .done () (f d) m⟩

/-- Changes the disk in steps: `f 0`, `f 1` up to `f n`. -/
def writeSteps (n : Nat) (f : Nat → δ → δ) : Process δ ρ Unit := fun d m =>
  ⟨(List.range (n + 1)).map fun k => f k d, .done () (f n d) m⟩

/-- Runs a process on a part of the memory. -/
def zoom (get : τ → ρ) (set : ρ → τ → τ) (x : Process δ ρ α) : Process δ τ α := fun d m =>
  match x d (get m) with
  | ⟨trace, .done a d' r⟩ => ⟨trace, .done a d' (set r m)⟩
  | ⟨trace, .failed d' r⟩ => ⟨trace, .failed d' (set r m)⟩
  | ⟨trace, .running⟩ => ⟨trace, .running⟩

/-! ## Assertions about an execution -/

/-- What is asserted of the end of an execution. -/
structure Post (δ ρ α : Type) where
  done : α → δ → ρ → Prop
  failed : δ → ρ → Prop
  running : Prop

/-- The postcondition holds of the end. -/
def Post.Met (post : Post δ ρ α) : Outcome δ ρ α → Prop
  | .done a d m => post.done a d m
  | .failed d m => post.failed d m
  | .running => post.running

/-- The execution from `d` and `m` passes only through states of the disk that satisfy
`crash`, and its end satisfies `post`. -/
def Holds (x : Process δ ρ α) (crash : δ → Prop) (post : Post δ ρ α) (d : δ) (m : ρ) : Prop :=
  (∀ t ∈ (x d m).trace, crash t) ∧ post.Met (x d m).outcome

variable {x : Process δ ρ α} {crash : δ → Prop} {post : Post δ ρ α} {d : δ} {m : ρ}

@[simp] theorem holds_pure (a : α) :
    (pure a : Process δ ρ α).Holds crash post d m ↔ post.done a d m :=
  ⟨fun h => h.2, fun h => ⟨nofun, h⟩⟩

@[simp] theorem holds_fail : (fail : Process δ ρ α).Holds crash post d m ↔ post.failed d m :=
  ⟨fun h => h.2, fun h => ⟨nofun, h⟩⟩

@[simp] theorem holds_stuck : (stuck : Process δ ρ α).Holds crash post d m ↔ post.running :=
  ⟨fun h => h.2, fun h => ⟨nofun, h⟩⟩

@[simp] theorem holds_get {post : Post δ ρ ρ} :
    (get : Process δ ρ ρ).Holds crash post d m ↔ post.done m d m :=
  ⟨fun h => h.2, fun h => ⟨nofun, h⟩⟩

@[simp] theorem holds_modify {post : Post δ ρ Unit} (f : ρ → ρ) :
    (modify f : Process δ ρ Unit).Holds crash post d m ↔ post.done () d (f m) :=
  ⟨fun h => h.2, fun h => ⟨nofun, h⟩⟩

@[simp] theorem holds_read (f : δ → α) :
    (read f : Process δ ρ α).Holds crash post d m ↔ post.done (f d) d m :=
  ⟨fun h => h.2, fun h => ⟨nofun, h⟩⟩

@[simp] theorem holds_write {post : Post δ ρ Unit} (f : δ → δ) :
    (write f : Process δ ρ Unit).Holds crash post d m ↔ crash (f d) ∧ post.done () (f d) m := by
  constructor
  · intro h
    exact ⟨h.1 (f d) List.mem_cons_self, h.2⟩
  · intro h
    exact ⟨fun t ht => List.mem_singleton.mp ht ▸ h.1, h.2⟩

@[simp] theorem holds_writeSteps {post : Post δ ρ Unit} (n : Nat) (f : Nat → δ → δ) :
    (writeSteps n f : Process δ ρ Unit).Holds crash post d m ↔
      (∀ k, k ≤ n → crash (f k d)) ∧ post.done () (f n d) m := by
  have htrace : (∀ t ∈ (List.range (n + 1)).map (fun k => f k d), crash t) ↔
      ∀ k, k ≤ n → crash (f k d) := by
    rw [List.forall_mem_map]
    simp only [List.mem_range, Nat.lt_succ_iff]
  exact and_congr_left fun _ => htrace

/-- **The rule of sequencing.** -/
@[simp] theorem holds_bind {f : α → Process δ ρ β} {post : Post δ ρ β} :
    (x >>= f).Holds crash post d m ↔
      x.Holds crash ⟨fun a d m => (f a).Holds crash post d m, post.failed, post.running⟩ d m := by
  have hbind : (x >>= f) d m = bind x f d m := rfl
  unfold Holds
  rw [hbind, bind]
  cases hx : x d m with
  | mk trace outcome =>
    cases outcome with
    | done a d' m' =>
      simp only [List.mem_append, or_imp, forall_and, Post.Met, and_assoc]
    | failed d' m' => rfl
    | running => rfl

@[simp] theorem holds_map {f : α → β} {post : Post δ ρ β} :
    (f <$> x).Holds crash post d m ↔
      x.Holds crash ⟨fun a d m => post.done (f a) d m, post.failed, post.running⟩ d m := by
  rw [map_eq_pure_bind, holds_bind]
  simp only [holds_pure]

theorem holds_get_bind {f : ρ → Process δ ρ β} {post : Post δ ρ β} :
    (get >>= f).Holds crash post d m ↔ (f m).Holds crash post d m := by
  rw [holds_bind, holds_get]

theorem holds_modify_bind {g : ρ → ρ} {f : Unit → Process δ ρ β} {post : Post δ ρ β} :
    (modify g >>= f).Holds crash post d m ↔ (f ()).Holds crash post d (g m) := by
  rw [holds_bind, holds_modify]

/-- The rule of zooming. -/
@[simp] theorem holds_zoom {get : τ → ρ} {set : ρ → τ → τ} {m : τ} {post : Post δ τ α} :
    (zoom get set x).Holds crash post d m ↔
      x.Holds crash ⟨fun a d r => post.done a d (set r m), fun d r => post.failed d (set r m),
        post.running⟩ d (get m) := by
  unfold Holds zoom
  cases hx : x d (get m) with
  | mk trace outcome => cases outcome <;> rfl

/-- The rule of consequence. -/
theorem Holds.mono {crash' : δ → Prop} {post' : Post δ ρ α} (h : x.Holds crash post d m)
    (hcrash : ∀ t, crash t → crash' t) (hdone : ∀ a d m, post.done a d m → post'.done a d m)
    (hfailed : ∀ d m, post.failed d m → post'.failed d m)
    (hrunning : post.running → post'.running) : x.Holds crash' post' d m := by
  refine ⟨fun t ht => hcrash t (h.1 t ht), ?_⟩
  have hend := h.2
  cases hout : (x d m).outcome with
  | done a d' m' =>
    rw [hout] at hend
    exact hdone a d' m' hend
  | failed d' m' =>
    rw [hout] at hend
    exact hfailed d' m' hend
  | running =>
    rw [hout] at hend
    exact hrunning hend

/-- What holds of every execution holds of one that is known to end. -/
theorem Holds.done {a : α} {d' : δ} {m' : ρ} (h : x.Holds crash post d m)
    (hdone : (x d m).outcome = .done a d' m') : post.done a d' m' := by
  have hend := h.2
  rw [hdone] at hend
  exact hend

theorem Holds.failed {d' : δ} {m' : ρ} (h : x.Holds crash post d m)
    (hfailed : (x d m).outcome = .failed d' m') : post.failed d' m' := by
  have hend := h.2
  rw [hfailed] at hend
  exact hend

theorem Holds.running (h : x.Holds crash post d m) (hrunning : (x d m).outcome = .running) :
    post.running := by
  have hend := h.2
  rw [hrunning] at hend
  exact hend

/-! ## Partial correctness -/

/-- `P` holds of the end if the process returns. -/
def Post.ifDone (P : α → δ → ρ → Prop) : Post δ ρ α := ⟨P, fun _ _ => True, True⟩

/-- The rule of consequence for partial correctness. -/
theorem Holds.imp_ifDone {P Q : α → δ → ρ → Prop} (h : x.Holds crash (.ifDone P) d m)
    (hPQ : ∀ a d m, P a d m → Q a d m) : x.Holds crash (.ifDone Q) d m :=
  h.mono (fun _ ht => ht) hPQ (fun _ _ h => h) fun h => h

/-- A process, and then another. -/
theorem Holds.bind_ifDone {P : α → δ → ρ → Prop} {f : α → Process δ ρ β} {Q : β → δ → ρ → Prop}
    (h : x.Holds crash (.ifDone P) d m)
    (hf : ∀ a d m, P a d m → (f a).Holds crash (.ifDone Q) d m) :
    (x >>= f).Holds crash (.ifDone Q) d m :=
  holds_bind.mpr (h.mono (fun _ ht => ht) hf (fun _ _ _ => trivial) fun _ => trivial)

/-! ## Processes that return -/

/-- The process returns, and `P` holds of the end. -/
def Post.returns (P : α → δ → ρ → Prop) : Post δ ρ α := ⟨P, fun _ _ => False, False⟩

theorem Holds.returned {P : α → δ → ρ → Prop} (h : x.Holds crash (.returns P) d m) :
    ∃ a d' m', (x d m).outcome = .done a d' m' ∧ P a d' m' := by
  cases hout : (x d m).outcome with
  | done a d' m' => exact ⟨a, d', m', rfl, h.done hout⟩
  | failed d' m' => exact (h.failed hout).elim
  | running => exact (h.running hout).elim

/-- What holds of an execution whose end is known. -/
theorem holds_iff_of_done {a : α} {d' : δ} {m' : ρ} (h : (x d m).outcome = .done a d' m') :
    x.Holds (fun _ => True) post d m ↔ post.done a d' m' := by
  unfold Holds
  rw [h]
  exact and_iff_right fun _ _ => trivial

theorem holds_of_done {a : α} {d' : δ} {m' : ρ} (h : (x d m).outcome = .done a d' m') :
    x.Holds (fun _ => True) (.returns fun b e n => b = a ∧ e = d' ∧ n = m') d m :=
  (holds_iff_of_done h).mpr ⟨rfl, rfl, rfl⟩

/-- The state left by a process that returns. -/
theorem Holds.state? {P : α → δ → ρ → Prop} (h : x.Holds crash (.returns P) d m) :
    ∃ s : δ × ρ, (x d m).outcome.state? = some s ∧ ∃ a, P a s.1 s.2 := by
  obtain ⟨a, d', m', hout, hP⟩ := h.returned
  exact ⟨(d', m'), Outcome.state?_eq_some.mpr ⟨a, hout⟩, a, hP⟩

/-- The rule of consequence for processes that return. -/
theorem Holds.imp {P Q : α → δ → ρ → Prop} {crash' : δ → Prop}
    (h : x.Holds crash (.returns P) d m) (hcrash : ∀ t, crash t → crash' t)
    (hPQ : ∀ a d m, P a d m → Q a d m) : x.Holds crash' (.returns Q) d m :=
  h.mono hcrash hPQ (fun _ _ h => h) fun h => h

theorem Holds.imp_returns {P Q : α → δ → ρ → Prop} (h : x.Holds crash (.returns P) d m)
    (hPQ : ∀ a d m, P a d m → Q a d m) : x.Holds crash (.returns Q) d m :=
  h.imp (fun _ ht => ht) hPQ

/-- What holds of a process for two reasons. -/
theorem Holds.and_returns {P Q : α → δ → ρ → Prop} {crash' : δ → Prop}
    (h : x.Holds crash (.returns P) d m) (h' : x.Holds crash' (.returns Q) d m) :
    x.Holds crash (.returns fun a d m => P a d m ∧ Q a d m) d m := by
  refine ⟨h.1, ?_⟩
  obtain ⟨a, d', m', hdone, hP⟩ := h.returned
  rw [hdone]
  exact ⟨hP, h'.done hdone⟩

/-- A process that returns, and then another. -/
theorem Holds.bind {P : α → δ → ρ → Prop} {f : α → Process δ ρ β} {post : Post δ ρ β}
    (h : x.Holds crash (.returns P) d m)
    (hf : ∀ a d m, P a d m → (f a).Holds crash post d m) : (x >>= f).Holds crash post d m :=
  holds_bind.mpr (h.mono (fun _ ht => ht) hf (fun _ _ h => h.elim) fun h => h.elim)

/-- **The rule of a loop over a list**: `I` holds of the elements done so far. -/
theorem holds_forM {f : β → Process δ ρ Unit} {bs : List β} (I : List β → δ → ρ → Prop)
    (hstep : ∀ pre b, pre ++ [b] <+: bs → ∀ d m, I pre d m →
      (f b).Holds crash (.returns fun _ => I (pre ++ [b])) d m) (h : I [] d m) :
    (bs.forM f).Holds crash (.returns fun _ => I bs) d m := by
  have hrest : ∀ (rest pre : List β) (d : δ) (m : ρ), pre ++ rest = bs → I pre d m →
      (rest.forM f).Holds crash (.returns fun _ => I bs) d m := by
    intro rest
    induction rest with
    | nil =>
      intro pre d m hbs hI
      rw [List.append_nil] at hbs
      rw [List.forM_eq_forM, List.forM_nil, holds_pure]
      exact hbs ▸ hI
    | cons b rest ih =>
      intro pre d m hbs hI
      rw [List.forM_eq_forM, List.forM_cons]
      have hpre : pre ++ [b] ++ rest = bs := by rw [List.append_assoc, ← hbs]; rfl
      exact (hstep pre b ⟨rest, hpre⟩ d m hI).bind fun _ d m => ih (pre ++ [b]) d m hpre
  exact hrest bs [] d m rfl h

/-- Such a loop goes from state to state. -/
theorem state?_forM (f : β → Process δ ρ Unit) (bs : List β) : ∀ (d : δ) (m : ρ),
    ((bs.forM f : Process δ ρ Unit) d m).outcome.state? =
      bs.foldlM (fun s b => (f b s.1 s.2).outcome.state?) (d, m) := by
  induction bs with
  | nil => exact fun _ _ => rfl
  | cons b bs ih =>
    intro d m
    rw [List.forM_eq_forM, List.forM_cons, List.foldlM_cons]
    show (bind (f b) (fun _ => bs.forM f) d m).outcome.state? = _
    unfold bind
    cases f b d m with
    | mk trace outcome =>
      cases outcome with
      | done a d' m' => exact ih d' m'
      | failed d' m' => rfl
      | running => rfl

/-! ## What a process has passed -/

/-- What comes after a process that returns. -/
theorem bind_of_done {a : α} {d' : δ} {m' : ρ} (h : (x d m).outcome = .done a d' m')
    (f : α → Process δ ρ β) :
    ((x >>= f) d m).trace = (x d m).trace ++ (f a d' m').trace ∧
      ((x >>= f) d m).outcome = (f a d' m').outcome := by
  have hbind : (x >>= f) d m = bind x f d m := rfl
  rw [hbind, bind]
  cases hx : x d m with
  | mk trace outcome =>
    rw [hx] at h
    dsimp only at h
    subst h
    exact ⟨rfl, rfl⟩

theorem bind_congr_left {y : Process δ ρ α} (h : x d m = y d m) (f : α → Process δ ρ β) :
    (x >>= f) d m = (y >>= f) d m := by
  show bind x f d m = bind y f d m
  unfold bind
  rw [h]

theorem mem_trace_bind {f : α → Process δ ρ β} {t : δ} (h : t ∈ (x d m).trace) :
    t ∈ ((x >>= f) d m).trace := by
  have hbind : (x >>= f) d m = bind x f d m := rfl
  rw [hbind, bind]
  cases hx : x d m with
  | mk trace outcome =>
    rw [hx] at h
    cases outcome with
    | done a d' m' => exact List.mem_append_left _ h
    | failed d' m' => exact h
    | running => exact h

/-- A process that goes on to return has returned before. -/
theorem done_of_bind {f : α → Process δ ρ β} {b : β} {d' : δ} {m' : ρ}
    (h : ((x >>= f) d m).outcome = .done b d' m') :
    ∃ a e n, (x d m).outcome = .done a e n ∧ (f a e n).outcome = .done b d' m' := by
  have hbind : (x >>= f) d m = bind x f d m := rfl
  rw [hbind, bind] at h
  cases hx : x d m with
  | mk trace outcome =>
    rw [hx] at h
    cases outcome with
    | done a e n => exact ⟨a, e, n, rfl, h⟩
    | failed e n => cases h
    | running => cases h

/-- The steps of a part of a process are steps of it. -/
theorem mem_trace_part {p : Process δ ρ β} {k : β → Process δ ρ τ} {a : α} {d' : δ} {m' : ρ} {t : δ}
    (h : (x d m).outcome = .done a d' m') (ht : t ∈ (p d' m').trace) :
    t ∈ ((x >>= fun _ => p >>= k) d m).trace := by
  rw [(bind_of_done h fun _ => p >>= k).1]
  exact List.mem_append_right _ (mem_trace_bind ht)

/-- A part of a process that returns has returned. -/
theorem done_of_part {p : Process δ ρ β} {k : β → Process δ ρ τ} {a : α} {d' e : δ} {m' n : ρ}
    {c : τ} (h : (x d m).outcome = .done a d' m')
    (hdone : ((x >>= fun _ => p >>= k) d m).outcome = .done c e n) :
    ∃ b d'' m'', (p d' m').outcome = .done b d'' m'' := by
  rw [(bind_of_done h fun _ => p >>= k).2] at hdone
  obtain ⟨b, d'', m'', hp, -⟩ := done_of_bind hdone
  exact ⟨b, d'', m'', hp⟩

/-- The disk a process leaves is one it has passed, if it has changed the disk at all. -/
def Settled (x : Process δ ρ α) : Prop :=
  ∀ d m a d' m', (x d m).outcome = .done a d' m' → d' = d ∨ d' ∈ (x d m).trace

/-- It leaves the disk alone. -/
theorem Settled.of_same (h : ∀ d m a d' m', (x d m).outcome = .done a d' m' → d' = d) :
    Settled x := fun d m a d' m' hdone => Or.inl (h d m a d' m' hdone)

theorem Settled.pure (a : α) : Settled (Pure.pure a : Process δ ρ α) :=
  Settled.of_same fun _ _ _ _ _ h => by cases h; rfl

theorem Settled.fail : Settled (fail : Process δ ρ α) := fun _ _ _ _ _ h => by cases h

theorem Settled.stuck : Settled (stuck : Process δ ρ α) := fun _ _ _ _ _ h => by cases h

theorem Settled.get : Settled (get : Process δ ρ ρ) :=
  Settled.of_same fun _ _ _ _ _ h => by cases h; rfl

theorem Settled.modify (g : ρ → ρ) : Settled (modify g : Process δ ρ Unit) :=
  Settled.of_same fun _ _ _ _ _ h => by cases h; rfl

theorem Settled.read (r : δ → α) : Settled (read r : Process δ ρ α) :=
  Settled.of_same fun _ _ _ _ _ h => by cases h; rfl

theorem Settled.write (w : δ → δ) : Settled (write w : Process δ ρ Unit) := by
  intro d m a d' m' h
  cases h
  exact Or.inr List.mem_cons_self

theorem Settled.writeSteps (n : Nat) (w : Nat → δ → δ) :
    Settled (writeSteps n w : Process δ ρ Unit) := by
  intro d m a d' m' h
  cases h
  exact Or.inr (List.mem_map.mpr ⟨n, List.mem_range.mpr (Nat.lt_succ_self n), rfl⟩)

theorem Settled.bind {f : α → Process δ ρ β} (hx : Settled x) (hf : ∀ a, Settled (f a)) :
    Settled (x >>= f) := by
  intro d m b d' m' h
  obtain ⟨a, e, n, hfirst, hsecond⟩ := done_of_bind h
  obtain ⟨htrace, -⟩ := bind_of_done hfirst f
  rw [htrace]
  rcases hf a e n b d' m' hsecond with rfl | hmem
  · rcases hx d m a d' n hfirst with hsame | hmem
    · exact Or.inl hsame
    · exact Or.inr (List.mem_append_left _ hmem)
  · exact Or.inr (List.mem_append_right _ hmem)

theorem Settled.zoom {get : τ → ρ} {set : ρ → τ → τ} (hx : Settled x) :
    Settled (zoom get set x) := by
  intro d m a d' m' h
  unfold Process.zoom at h ⊢
  cases hrun : x d (get m) with
  | mk trace outcome =>
    rw [hrun] at h
    cases outcome with
    | done b e r =>
      injection h with hvalue hdisk hmem
      have hend := hx d (get m) b e r (by rw [hrun])
      rw [hrun] at hend
      exact hdisk ▸ hend
    | failed e r => cases h
    | running => cases h

theorem Settled.forM {f : β → Process δ ρ Unit} (hf : ∀ b, Settled (f b)) (bs : List β) :
    Settled (bs.forM f) := by
  induction bs with
  | nil => exact Settled.pure ()
  | cons b bs ih => exact (hf b).bind fun _ => ih

/-! ## Memory a process does not look at -/

/-- The end with `f` applied to the memory. -/
def mapMem (f : ρ → ρ) : Outcome δ ρ α → Outcome δ ρ α
  | .done a d m => .done a d (f m)
  | .failed d m => .failed d (f m)
  | .running => .running

/-- It makes no difference whether `f` changes the memory before the process or after it. -/
def Commutes (f : ρ → ρ) (x : Process δ ρ α) : Prop :=
  ∀ d m, (x d (f m)).outcome = mapMem f (x d m).outcome

section
variable {f g : ρ → ρ}

theorem Commutes.pure (a : α) : Commutes f (Pure.pure a : Process δ ρ α) := fun _ _ => rfl

theorem Commutes.fail : Commutes f (fail : Process δ ρ α) := fun _ _ => rfl

theorem Commutes.stuck : Commutes f (stuck : Process δ ρ α) := fun _ _ => rfl

theorem Commutes.writeSteps (n : Nat) (w : Nat → δ → δ) :
    Commutes f (writeSteps n w : Process δ ρ Unit) := fun _ _ => rfl

theorem Commutes.read (r : δ → α) : Commutes f (read r : Process δ ρ α) := fun _ _ => rfl

theorem Commutes.write (w : δ → δ) : Commutes f (write w : Process δ ρ Unit) := fun _ _ => rfl

theorem Commutes.modify (h : ∀ m, g (f m) = f (g m)) :
    Commutes f (modify g : Process δ ρ Unit) :=
  fun d m => congrArg (Outcome.done () d) (h m)

theorem Commutes.bind {k : α → Process δ ρ β} (hx : Commutes f x) (hk : ∀ a, Commutes f (k a)) :
    Commutes f (x >>= k) := by
  intro d m
  show (Process.bind x k d (f m)).outcome = mapMem f (Process.bind x k d m).outcome
  have hend := hx d m
  unfold Process.bind
  cases hfm : x d (f m) with
  | mk trace' outcome' =>
    cases hm : x d m with
    | mk trace outcome =>
      rw [hfm, hm] at hend
      dsimp only at hend
      subst hend
      cases outcome with
      | done a d' m' => exact hk a d' m'
      | failed d' m' => rfl
      | running => rfl

/-- What is read of the memory is not what `f` changes. -/
theorem Commutes.get_bind {k : ρ → Process δ ρ β} (hk : ∀ m, k (f m) = k m)
    (hcommutes : ∀ m, Commutes f (k m)) : Commutes f (get >>= k) := by
  intro d m
  show (k (f m) d (f m)).outcome = _
  rw [hk]
  exact hcommutes m d m

end

end Process
