import Mathlib.Data.List.Induction

/-! # Set–reset latches

A latch is switched on by some events and off by others.  `state` runs one over a
finite sequence of events; `state_iff` says in terms of the sequence alone when it
is on: some event switched it on and none after that switched it off.

`dominates_iff` compares two latches over the same events: the second is on
whenever the first is, after every event, iff the second is never switched off
while the first is on, except by an event that switches the first one off too.
-/

namespace Latch
variable {ε : Type}

/-- One event.  Switching on wins over switching off. -/
def step (on off : ε → Bool) (s : Bool) (e : ε) : Bool :=
  if on e then true else if off e then false else s

/-- The latch after a sequence of events, initially off. -/
def state (on off : ε → Bool) (es : List ε) : Bool := es.foldl (step on off) false

variable (on off : ε → Bool)

@[simp] theorem state_nil : state on off [] = false := rfl

theorem state_concat (es : List ε) (e : ε) :
    state on off (es ++ [e]) = step on off (state on off es) e := by
  rw [state, List.foldl_append]
  rfl

section
variable {on off}
variable {s : Bool} {e : ε}

theorem step_of_on (h : on e = true) : step on off s e = true := by
  rw [step, if_pos h]

theorem step_of_off (hon : ¬ on e = true) (h : off e = true) : step on off s e = false := by
  rw [step, if_neg hon, if_pos h]

theorem step_of_neither (hon : ¬ on e = true) (h : ¬ off e = true) : step on off s e = s := by
  rw [step, if_neg hon, if_neg h]

end

/-- **A latch is on iff some event switched it on and none since switched it off.** -/
theorem state_iff (es : List ε) :
    state on off es = true ↔
      ∃ pre e mid, es = pre ++ e :: mid ∧ on e = true ∧ ∀ x ∈ mid, off x = false := by
  -- from the end of the sequence, where the last event decides
  induction es using List.reverseRec with
  | nil =>
    constructor
    · intro hs
      cases hs
    · rintro ⟨pre, e, mid, heq, -⟩
      exact absurd heq.symm (by simp)
  | append_singleton init last hinit =>
    rw [state_concat, step]
    constructor
    · intro hs
      by_cases hon : on last = true
      · exact ⟨init, last, [], rfl, hon, fun x hx => absurd hx List.not_mem_nil⟩
      · rw [if_neg hon] at hs
        by_cases hoff : off last = true
        · rw [if_pos hoff] at hs
          cases hs
        · rw [if_neg hoff] at hs
          obtain ⟨pre, e, mid, heq, he, hmid⟩ := hinit.mp hs
          refine ⟨pre, e, mid ++ [last], by rw [heq]; simp, he, ?_⟩
          intro x hx
          rcases List.mem_append.mp hx with hx | hx
          · exact hmid x hx
          · rw [List.mem_singleton.mp hx]
            exact Bool.eq_false_iff.mpr hoff
    · rintro ⟨pre, e, mid, heq, he, hmid⟩
      rcases List.eq_nil_or_concat mid with hnil | ⟨mid', x, hconcat⟩
      · subst hnil
        obtain ⟨-, hlast⟩ := List.append_inj' heq rfl
        rw [List.cons.inj hlast |>.1, if_pos he]
      · rw [hconcat] at heq
        have hsplit : init ++ [last] = (pre ++ e :: mid') ++ [x] := by rw [heq]; simp
        obtain ⟨hinit', hlast⟩ := List.append_inj' hsplit rfl
        have hx : last = x := (List.cons.inj hlast).1
        have hoff : off last = false := hmid last (by rw [hx, hconcat]; simp)
        by_cases hon : on last = true
        · rw [if_pos hon]
        · rw [if_neg hon, if_neg (by rw [hoff]; exact Bool.false_ne_true)]
          exact hinit.mpr ⟨pre, e, mid', hinit', he,
            fun y hy => hmid y (by rw [hconcat]; simp [hy])⟩

variable {on off} {on' off' : ε → Bool}

/-- **When one latch dominates another.**  Let every event that switches the first
latch on also switch the second one on.  Then the second is on whenever the first
is, all along the sequence, iff every event that switches the second off while the
first is on switches the first off too. -/
theorem dominates_iff (hon : ∀ e, on e = true → on' e = true)
    (hdisj : ∀ e, off' e = true → on' e = false) (es : List ε) :
    (∀ xs, xs <+: es → state on off xs = true → state on' off' xs = true) ↔
      ∀ xs x, xs ++ [x] <+: es → state on off xs = true → off' x = true → off x = true := by
  constructor
  · intro hdom xs x hpre hs hoff'
    have hnotOn' : ¬ on' x = true := by rw [hdisj x hoff']; exact Bool.false_ne_true
    have hnotOn : ¬ on x = true := fun h => hnotOn' (hon x h)
    apply Classical.byContradiction
    intro hoff
    have hfirst : state on off (xs ++ [x]) = true := by
      rw [state_concat, step, if_neg hnotOn, if_neg hoff, hs]
    have hsecond := hdom (xs ++ [x]) hpre hfirst
    rw [state_concat, step, if_neg hnotOn', if_pos hoff'] at hsecond
    cases hsecond
  · intro hcross xs
    induction xs using List.reverseRec with
    | nil =>
      intro _ hs
      cases hs
    | append_singleton init last ih =>
      intro hpre hs
      have hinit := ih ((List.prefix_append init [last]).trans hpre)
      rw [state_concat, step] at hs ⊢
      by_cases hlast' : on' last = true
      · rw [if_pos hlast']
      have hlast : ¬ on last = true := fun h => hlast' (hon last h)
      rw [if_neg hlast']
      rw [if_neg hlast] at hs
      by_cases hoff : off last = true
      · rw [if_pos hoff] at hs
        cases hs
      rw [if_neg hoff] at hs
      have hoff' : ¬ off' last = true := fun h => hoff (hcross init last hpre hs h)
      rw [if_neg hoff']
      exact hinit hs

end Latch
