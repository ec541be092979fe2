import Mathlib.Data.List.Basic
import Mathlib.Logic.Function.Basic
import Mathlib.Algebra.Ring.Nat
import Mathlib.Algebra.BigOperators.Group.List.Basic

/-! # A FIFO cache as a window of what was admitted

Entries of different weights are admitted one after the other; as long as the total
weight exceeds a budget the oldest one goes.  What is left is the longest part of the
admission log, from its new end, whose weight fits the budget.  An entry is there
exactly if everything admitted since, with itself, fits.

Logs are lists with the newest entry first.
-/

namespace FifoWindow
variable {κ : Type} (w : κ → Nat)

/-- What the entries weigh together. -/
def weight (log : List κ) : Nat := (log.map w).sum

/-- The newest entries of the log that fit the budget. -/
def window : Nat → List κ → List κ
  | _, [] => []
  | budget, k :: log => if w k ≤ budget then k :: window (budget - w k) log else []

/-- The weight admitted since `k` last was, with its own. -/
def since [DecidableEq κ] (k : κ) : List κ → Option Nat
  | [] => none
  | k' :: log => if k' = k then some (w k) else (since k log).map (w k' + ·)

/-- An entry that is not there any more, or never was, is admitted. -/
def enter [DecidableEq κ] (budget : Nat) (log : List κ) (k : κ) : List κ :=
  if k ∈ window w budget log then log else k :: log

variable {w} {budget b : Nat} {log : List κ} {k : κ}

theorem weight_append (log log' : List κ) :
    weight w (log ++ log') = weight w log + weight w log' := by
  rw [weight, List.map_append, List.sum_append]
  rfl

theorem weight_cons (k : κ) (log : List κ) : weight w (k :: log) = w k + weight w log := by
  rw [weight, List.map_cons, List.sum_cons]
  rfl

theorem weight_reverse (log : List κ) : weight w log.reverse = weight w log := by
  rw [weight, List.map_reverse, List.sum_reverse]
  rfl

theorem le_weight (h : k ∈ log) : w k ≤ weight w log := by
  induction log with
  | nil => cases h
  | cons k' log ih =>
    rw [weight_cons]
    rcases List.mem_cons.mp h with rfl | hmem
    · exact Nat.le_add_right _ _
    · exact Nat.le_trans (ih hmem) (Nat.le_add_left _ _)

theorem weight_window_le : weight w (window w budget log) ≤ budget := by
  induction log generalizing budget with
  | nil => exact Nat.zero_le _
  | cons k log ih =>
    rw [window]
    by_cases hk : w k ≤ budget
    · have hrest : weight w (window w (budget - w k) log) ≤ budget - w k := ih
      rw [if_pos hk, weight_cons]
      omega
    · rw [if_neg hk]
      exact Nat.zero_le _

theorem window_prefix (w : κ → Nat) (budget : Nat) (log : List κ) :
    window w budget log <+: log := by
  induction log generalizing budget with
  | nil => exact List.nil_prefix
  | cons k log ih =>
    rw [window]
    by_cases hk : w k ≤ budget
    · rw [if_pos hk]
      exact List.cons_prefix_cons.mpr ⟨rfl, ih _⟩
    · rw [if_neg hk]
      exact List.nil_prefix

/-- The entry that follows in the log does not fit. -/
theorem window_maximal (h : window w budget log ++ [k] <+: log) :
    budget < weight w (window w budget log) + w k := by
  induction log generalizing budget with
  | nil => exact absurd (List.prefix_nil.mp h) (by simp)
  | cons k' log ih =>
    rw [window] at h ⊢
    by_cases hk : w k' ≤ budget
    · rw [if_pos hk] at h ⊢
      have hrest := ih (List.cons_prefix_cons.mp h).2
      rw [weight_cons]
      omega
    · rw [if_neg hk] at h ⊢
      rw [(List.cons_prefix_cons.mp h).1]
      exact Nat.lt_of_lt_of_le (Nat.not_le.mp hk) (Nat.le_add_left _ _)

/-- A log that fits is its own window. -/
theorem window_of_fits (h : weight w log ≤ budget) : window w budget log = log := by
  induction log generalizing budget with
  | nil => rfl
  | cons k log ih =>
    rw [weight_cons] at h
    rw [window, if_pos (by omega), ih (by omega)]

/-- An oldest entry that does not fit makes no difference. -/
theorem window_concat (h : budget < weight w (log ++ [k])) :
    window w budget (log ++ [k]) = window w budget log := by
  induction log generalizing budget with
  | nil =>
    rw [List.nil_append, weight_cons] at h
    have hk : ¬ w k ≤ budget := Nat.not_le.mpr h
    exact if_neg hk
  | cons k' log ih =>
    rw [List.cons_append, weight_cons] at h
    rw [List.cons_append, window, window]
    by_cases hk : w k' ≤ budget
    · rw [if_pos hk, if_pos hk, ih (by omega)]
    · rw [if_neg hk, if_neg hk]

/-- Nothing that has gone comes back with a smaller budget. -/
theorem window_window (h : b ≤ budget) : window w b (window w budget log) = window w b log := by
  induction log generalizing b budget with
  | nil => rfl
  | cons k log ih =>
    by_cases hk : w k ≤ b
    · have hk' : w k ≤ budget := Nat.le_trans hk h
      rw [window, window, if_pos hk, if_pos hk', window, if_pos hk, ih (Nat.sub_le_sub_right h _)]
    · rw [window, window, if_neg hk]
      by_cases hk' : w k ≤ budget
      · rw [if_pos hk', window, if_neg hk]
      · rw [if_neg hk']
        rfl

/-- Admitting to the window is admitting to the log. -/
theorem window_cons_window (k : κ) :
    window w budget (k :: window w budget log) = window w budget (k :: log) := by
  rw [window, window, window_window (Nat.sub_le _ _)]

section
variable [DecidableEq κ]

/-- The weight of an entry that is not in the log makes no difference. -/
theorem weight_update_of_notMem (h : k ∉ log) (n : Nat) :
    weight (Function.update w k n) log = weight w log := by
  refine congrArg List.sum (List.map_congr_left fun k' hk' => ?_)
  have hne : k' ≠ k := by
    rintro rfl
    exact h hk'
  exact Function.update_of_ne hne _ _

/-- Another weight of an entry takes the place of the one it had. -/
theorem weight_update (hnodup : log.Nodup) (hmem : k ∈ log) (n : Nat) :
    weight (Function.update w k n) log + w k = weight w log + n := by
  induction log with
  | nil => cases hmem
  | cons k' log ih =>
    obtain ⟨hnot, hnodup⟩ := List.nodup_cons.mp hnodup
    rw [weight_cons, weight_cons]
    rcases List.mem_cons.mp hmem with rfl | hrest
    · rw [weight_update_of_notMem hnot, Function.update_self]
      omega
    · have hne : k' ≠ k := fun heq => hnot (heq ▸ hrest)
      have hrec := ih hnodup hrest
      rw [Function.update_of_ne hne]
      omega

/-- **An entry is in the window exactly if what was admitted since fits.** -/
theorem mem_window_iff : k ∈ window w budget log ↔ ∃ n, since w k log = some n ∧ n ≤ budget := by
  induction log generalizing budget with
  | nil =>
    constructor
    · intro h
      cases h
    · rintro ⟨n, h, -⟩
      cases h
  | cons k' log ih =>
    rw [window, since]
    by_cases heq : k' = k
    · subst heq
      rw [if_pos rfl]
      by_cases hfits : w k' ≤ budget
      · rw [if_pos hfits]
        exact ⟨fun _ => ⟨_, rfl, hfits⟩, fun _ => List.mem_cons_self⟩
      · rw [if_neg hfits]
        constructor
        · intro h
          cases h
        · rintro ⟨n, hn, hle⟩
          exact absurd (Option.some.inj hn ▸ hle) hfits
    · rw [if_neg heq]
      have hne : k ≠ k' := Ne.symm heq
      by_cases hfits : w k' ≤ budget
      · rw [if_pos hfits, List.mem_cons, ih]
        constructor
        · rintro (rfl | ⟨n, hn, hle⟩)
          · exact absurd rfl heq
          · refine ⟨w k' + n, ?_, by omega⟩
            rw [hn]
            rfl
        · rintro ⟨n, hn, hle⟩
          obtain ⟨m, hm, rfl⟩ := Option.map_eq_some_iff.mp hn
          exact Or.inr ⟨m, hm, by omega⟩
      · rw [if_neg hfits]
        constructor
        · intro h
          cases h
        · rintro ⟨n, hn, hle⟩
          obtain ⟨m, -, rfl⟩ := Option.map_eq_some_iff.mp hn
          omega

/-- What was admitted once stays in the log. -/
theorem since_isSome_enter {k' : κ} (h : (since w k log).isSome) :
    (since w k (enter w budget log k')).isSome := by
  unfold enter
  by_cases hmem : k' ∈ window w budget log
  · rwa [if_pos hmem]
  · rw [if_neg hmem, since]
    by_cases heq : k' = k
    · rw [if_pos heq]
      rfl
    · rw [if_neg heq, Option.isSome_map]
      exact h

end
end FifoWindow
