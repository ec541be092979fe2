import Mathlib.Data.List.Induction

/-! # Runs of a step function

A component whose steps are labelled by actions is a partial function from a state
and an action to the next state; `none` says that the action is not enabled there.
A run is a sequence of enabled actions.

Invariants are proved by the step: `run_invariant` for those every step keeps, and
`run_invariant_of_guarded` for those a step keeps when it is taken under a
condition, in the runs that meet the condition at every step.
-/

namespace Transition
variable {σ α : Type} (step : σ → α → Option σ)

/-- The state after a sequence of actions, if all of them are enabled. -/
def run (s : σ) (as : List α) : Option σ := as.foldlM step s

@[simp] theorem run_nil (s : σ) : run step s [] = some s := rfl

@[simp] theorem run_cons (s : σ) (a : α) (as : List α) :
    run step s (a :: as) = (step s a).bind (fun t => run step t as) := rfl

theorem run_append (s : σ) (as bs : List α) :
    run step s (as ++ bs) = (run step s as).bind (fun t => run step t bs) := by
  rw [run, List.foldlM_append]
  rfl

theorem run_concat_eq_some {s t : σ} {as : List α} {a : α} :
    run step s (as ++ [a]) = some t ↔ ∃ u, run step s as = some u ∧ step u a = some t := by
  rw [run_append, Option.bind_eq_some_iff]
  simp

theorem run_prefix {s t : σ} {xs as : List α} (hpre : xs <+: as) (h : run step s as = some t) :
    ∃ u, run step s xs = some u := by
  obtain ⟨ys, rfl⟩ := hpre
  rw [run_append, Option.bind_eq_some_iff] at h
  obtain ⟨u, hu, -⟩ := h
  exact ⟨u, hu⟩

/-- Every step of the run is taken in a state that meets the condition for it. -/
def Guarded (ok : σ → α → Prop) (s : σ) (as : List α) : Prop :=
  ∀ xs a, xs ++ [a] <+: as → ∀ u, run step s xs = some u → ok u a

variable {step}

theorem guarded_nil (ok : σ → α → Prop) (s : σ) : Guarded step ok s [] := by
  intro xs a hpre
  exact absurd (List.prefix_nil.mp hpre) (by simp)

theorem guarded_cons {ok : σ → α → Prop} {s : σ} {a : α} {as : List α} (ha : ok s a)
    (has : ∀ t, step s a = some t → Guarded step ok t as) : Guarded step ok s (a :: as) := by
  intro xs b hpre u hu
  cases xs with
  | nil =>
    obtain ⟨hb, -⟩ := List.cons_prefix_cons.mp hpre
    rw [run_nil] at hu
    exact Option.some.inj hu ▸ hb ▸ ha
  | cons x xs =>
    obtain ⟨rfl, htail⟩ := List.cons_prefix_cons.mp hpre
    rw [run_cons, Option.bind_eq_some_iff] at hu
    obtain ⟨t, ht, hxs⟩ := hu
    exact has t ht xs b htail u hxs

theorem guarded_cons_iff {ok : σ → α → Prop} {s : σ} {a : α} {as : List α} :
    Guarded step ok s (a :: as) ↔ ok s a ∧ ∀ t, step s a = some t → Guarded step ok t as := by
  constructor
  · intro h
    refine ⟨h [] a (List.prefix_append [a] as) s rfl, fun t ht xs b hpre u hu => ?_⟩
    refine h (a :: xs) b (List.cons_prefix_cons.mpr ⟨rfl, hpre⟩) u ?_
    rw [run_cons, ht, Option.bind_some]
    exact hu
  · rintro ⟨ha, has⟩
    exact guarded_cons ha has

theorem Guarded.mono {ok : σ → α → Prop} {s : σ} {xs as : List α} (hpre : xs <+: as)
    (h : Guarded step ok s as) : Guarded step ok s xs :=
  fun ys a hys u hu => h ys a (hys.trans hpre) u hu

theorem guarded_congr {ok ok' : σ → α → Prop} {s : σ} {as : List α}
    (h : ∀ xs a u, xs ++ [a] <+: as → run step s xs = some u → (ok u a ↔ ok' u a)) :
    Guarded step ok s as ↔ Guarded step ok' s as := by
  constructor
  · intro hok xs a hpre u hu
    exact (h xs a u hpre hu).mp (hok xs a hpre u hu)
  · intro hok xs a hpre u hu
    exact (h xs a u hpre hu).mpr (hok xs a hpre u hu)

/-- The steps that are taken under the condition, and no others. -/
def checked (step : σ → α → Option σ) (ok : σ → α → Prop) [DecidableRel ok] (s : σ) (a : α) :
    Option σ :=
  if ok s a then step s a else none

/-- A run that goes through with every step checked is guarded by the condition. -/
theorem guarded_of_checked {ok : σ → α → Prop} [DecidableRel ok] {s t : σ} {as : List α}
    (h : run (checked step ok) s as = some t) :
    Guarded step ok s as ∧ run step s as = some t := by
  induction as generalizing s with
  | nil => exact ⟨guarded_nil ok s, h⟩
  | cons a as ih =>
    rw [run_cons, Option.bind_eq_some_iff] at h
    obtain ⟨u, hu, hrest⟩ := h
    by_cases hok : ok s a
    · rw [checked, if_pos hok] at hu
      obtain ⟨hguarded, hrun⟩ := ih hrest
      refine ⟨guarded_cons hok fun v hv => ?_, ?_⟩
      · exact Option.some.inj (hu.symm.trans hv) ▸ hguarded
      · rw [run_cons, hu, Option.bind_some, hrun]
    · rw [checked, if_neg hok] at hu
      cases hu

/-- **Invariants of guarded runs**: what every step taken under the condition keeps
holds in the state such a run reaches. -/
theorem run_invariant_of_guarded {inv : σ → Prop} {ok : σ → α → Prop}
    (hstep : ∀ s a t, inv s → ok s a → step s a = some t → inv t) {s t : σ} {as : List α}
    (hinit : inv s) (hok : Guarded step ok s as) (hrun : run step s as = some t) : inv t := by
  induction as using List.reverseRec generalizing t with
  | nil =>
    rw [run_nil] at hrun
    exact Option.some.inj hrun ▸ hinit
  | append_singleton as a ih =>
    obtain ⟨u, hu, ha⟩ := (run_concat_eq_some step).mp hrun
    have hu' : inv u := ih (hok.mono (List.prefix_append as [a])) hu
    exact hstep u a t hu' (hok as a (List.prefix_refl _) u hu) ha

/-- **Exact conditions**: if every step of a run returns, and keeps a property exactly
when it meets the condition, the property holds all along the run exactly when the run is
guarded. -/
theorem forall_prefix_iff_guarded {P : σ → Prop} {ok : σ → α → Prop} {s : σ} {as : List α}
    (hinit : P s) (hstep : ∀ xs a u, xs ++ [a] <+: as → run step s xs = some u →
      ∃ t, step u a = some t ∧ (P u → (P t ↔ ok u a))) :
    (∀ xs t, xs <+: as → run step s xs = some t → P t) ↔ Guarded step ok s as := by
  constructor
  · intro hall xs a hpre u hu
    obtain ⟨t, ht, hiff⟩ := hstep xs a u hpre hu
    have hbefore : P u := hall xs u ((List.prefix_append xs [a]).trans hpre) hu
    exact (hiff hbefore).mp (hall _ t hpre ((run_concat_eq_some step).mpr ⟨u, hu, ht⟩))
  · intro hok xs
    induction xs using List.reverseRec with
    | nil =>
      intro t _ ht
      rw [run_nil] at ht
      exact Option.some.inj ht ▸ hinit
    | append_singleton xs a ih =>
      intro t hpre ht
      obtain ⟨u, hu, ha⟩ := (run_concat_eq_some step).mp ht
      obtain ⟨t', ht', hiff⟩ := hstep xs a u hpre hu
      obtain rfl : t' = t := Option.some.inj (ht'.symm.trans ha)
      have hbefore : P u := ih u ((List.prefix_append xs [a]).trans hpre) hu
      exact (hiff hbefore).mpr (hok xs a hpre u hu)

/-- **Invariants of all runs.** -/
theorem run_invariant {inv : σ → Prop} (hstep : ∀ s a t, inv s → step s a = some t → inv t)
    {s t : σ} {as : List α} (hinit : inv s) (hrun : run step s as = some t) : inv t := by
  have htrivial : Guarded step (fun _ _ => True) s as := fun _ _ _ _ _ => trivial
  exact run_invariant_of_guarded (fun s a t hs _ ha => hstep s a t hs ha) hinit htrivial hrun

/-- **Runs that go on**: where the invariant holds, every action is enabled. -/
theorem exists_run {inv : σ → Prop} (hstep : ∀ s a, inv s → ∃ t, step s a = some t ∧ inv t)
    (as : List α) : ∀ {s : σ}, inv s → ∃ t, run step s as = some t ∧ inv t := by
  induction as with
  | nil => intro s hs; exact ⟨s, rfl, hs⟩
  | cons a as ih =>
    intro s hs
    obtain ⟨u, hu, hinv⟩ := hstep s a hs
    obtain ⟨t, ht, hinv'⟩ := ih hinv
    exact ⟨t, by rw [run_cons, hu, Option.bind_some, ht], hinv'⟩

/-- And wherever such a run leads, the invariant holds. -/
theorem inv_of_run {inv : σ → Prop} (hstep : ∀ s a, inv s → ∃ t, step s a = some t ∧ inv t)
    {s t : σ} {as : List α} (hinit : inv s) (hrun : run step s as = some t) : inv t := by
  obtain ⟨u, hu, hinv⟩ := exists_run hstep as hinit
  exact Option.some.inj (hu.symm.trans hrun) ▸ hinv

end Transition
