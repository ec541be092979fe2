import SovProbe.Process
import Mathlib.Data.List.Chain

/-! # What an execution shows

An observer reads a value off some of the states the disk passes through.  `Shows R`
is the assertion that each value read is related by `R` to the one before it, with
the value read last handed to the postcondition.  Like those of `Holds`, its rules
are equivalences, one for each construct, so that an assertion about a whole history
becomes one about the single steps that show something.
-/

namespace Process
variable {δ ρ α β ν : Type}

/-- Goes on after a failure. -/
def attempt (x : Process δ ρ α) : Process δ ρ (Option α) := fun d m =>
  match x d m with
  | ⟨trace, .done a d' m'⟩ => ⟨trace, .done (some a) d' m'⟩
  | ⟨trace, .failed d' m'⟩ => ⟨trace, .done none d' m'⟩
  | ⟨trace, .running⟩ => ⟨trace, .running⟩

theorem attempt_done {x : Process δ ρ α} {a : α} {d d' : δ} {m m' : ρ}
    (h : (x d m).outcome = .done a d' m') : (x.attempt d m).outcome = .done (some a) d' m' := by
  unfold attempt
  cases hx : x d m with
  | mk trace outcome =>
    rw [hx] at h
    cases h
    rfl

theorem bind_outcome {x : Process δ ρ α} {f : α → Process δ ρ β} {a : α} {d d' : δ} {m m' : ρ}
    (h : (x d m).outcome = .done a d' m') : ((x >>= f) d m).outcome = (f a d' m').outcome := by
  have hbind : (x >>= f) d m = bind x f d m := rfl
  rw [hbind, bind]
  cases hx : x d m with
  | mk trace outcome =>
    rw [hx] at h
    cases h
    rfl

/-- The value shown last, when `last` was shown before. -/
def lastShown (last : Option ν) (shown : List ν) : Option ν := shown.getLast?.or last

theorem lastShown_nil (last : Option ν) : lastShown last [] = last := rfl

theorem lastShown_append (last : Option ν) (xs ys : List ν) :
    lastShown last (xs ++ ys) = lastShown (lastShown last xs) ys := by
  rw [lastShown, lastShown, lastShown, List.getLast?_append, Option.or_assoc]

theorem getLast?_toList_append (last : Option ν) (shown : List ν) :
    (last.toList ++ shown).getLast? = lastShown last shown := by
  rw [List.getLast?_append, lastShown]
  cases last <;> rfl

variable {R : ν → ν → Prop}

/-- A history in two parts. -/
theorem isChain_toList_append (last : Option ν) (xs ys : List ν) :
    (last.toList ++ (xs ++ ys)).IsChain R ↔
      (last.toList ++ xs).IsChain R ∧ ((lastShown last xs).toList ++ ys).IsChain R := by
  rw [← List.append_assoc, List.isChain_append, getLast?_toList_append, and_congr_right_iff]
  intro _
  cases lastShown last xs with
  | none => simp
  | some a => simp [List.isChain_cons, and_comm]

theorem isChain_toList_singleton (last : Option ν) (b : ν) :
    (last.toList ++ [b]).IsChain R ↔ ∀ a ∈ last, R a b := by
  cases last with
  | none => simp
  | some a => simp [List.isChain_cons]

/-- How a history goes on after `last`. -/
abbrev Rest (δ ρ α ν : Type) := Option α → δ → ρ → Option ν → Prop

/-- What `rest` says of the end of an execution that has shown `shown`; `none` is the
result of a failure. -/
def Rest.Met (rest : Rest δ ρ α ν) (last : Option ν) : Outcome δ ρ α → Prop
  | .done a d m => rest (some a) d m last
  | .failed d m => rest none d m last
  | .running => True

variable (R) in
/-- The values `obs` reads off the states the execution from `d` and `m` passes through
are related each to the next, `last` to the first of them, and the end satisfies
`rest`. -/
def Shows (obs : δ → Option ν) (x : Process δ ρ α) (rest : Rest δ ρ α ν) (last : Option ν) (d : δ)
    (m : ρ) : Prop :=
  (last.toList ++ (x d m).trace.filterMap obs).IsChain R ∧
    rest.Met (lastShown last ((x d m).trace.filterMap obs)) (x d m).outcome

variable {obs : δ → Option ν} {x : Process δ ρ α} {rest rest' : Rest δ ρ α ν} {last : Option ν}
  {d : δ} {m : ρ}

theorem isChain_toList (last : Option ν) : (last.toList ++ []).IsChain R := by
  cases last <;> simp

@[simp] theorem shows_pure (a : α) :
    (pure a : Process δ ρ α).Shows R obs rest last d m ↔ rest (some a) d m last :=
  ⟨fun h => h.2, fun h => ⟨isChain_toList last, h⟩⟩

@[simp] theorem shows_fail :
    (fail : Process δ ρ α).Shows R obs rest last d m ↔ rest none d m last :=
  ⟨fun h => h.2, fun h => ⟨isChain_toList last, h⟩⟩

@[simp] theorem shows_stuck : (stuck : Process δ ρ α).Shows R obs rest last d m ↔ True :=
  ⟨fun _ => trivial, fun _ => ⟨isChain_toList last, trivial⟩⟩

@[simp] theorem shows_get {rest : Rest δ ρ ρ ν} :
    (get : Process δ ρ ρ).Shows R obs rest last d m ↔ rest (some m) d m last :=
  ⟨fun h => h.2, fun h => ⟨isChain_toList last, h⟩⟩

@[simp] theorem shows_modify {rest : Rest δ ρ Unit ν} (f : ρ → ρ) :
    (modify f : Process δ ρ Unit).Shows R obs rest last d m ↔ rest (some ()) d (f m) last :=
  ⟨fun h => h.2, fun h => ⟨isChain_toList last, h⟩⟩

@[simp] theorem shows_read (f : δ → α) :
    (read f : Process δ ρ α).Shows R obs rest last d m ↔ rest (some (f d)) d m last :=
  ⟨fun h => h.2, fun h => ⟨isChain_toList last, h⟩⟩

/-- A step that shows nothing. -/
theorem shows_write_none {rest : Rest δ ρ Unit ν} {f : δ → δ} (h : obs (f d) = none) :
    (write f : Process δ ρ Unit).Shows R obs rest last d m ↔ rest (some ()) (f d) m last := by
  have hshown : [f d].filterMap obs = [] := by rw [List.filterMap_cons_none h, List.filterMap_nil]
  unfold Shows write
  rw [hshown, lastShown_nil]
  exact and_iff_right (isChain_toList last)

/-- A step that shows a value. -/
theorem shows_write_some {rest : Rest δ ρ Unit ν} {f : δ → δ} {b : ν} (h : obs (f d) = some b) :
    (write f : Process δ ρ Unit).Shows R obs rest last d m ↔
      (∀ a ∈ last, R a b) ∧ rest (some ()) (f d) m (some b) := by
  have hshown : [f d].filterMap obs = [b] := by rw [List.filterMap_cons_some h, List.filterMap_nil]
  unfold Shows write
  rw [hshown, isChain_toList_singleton]
  rfl

/-- A step that leaves alone what was shown last. -/
theorem shows_write_same {rest : Rest δ ρ Unit ν} {f : δ → δ} (hR : ∀ a, R a a)
    (h : obs (f d) = last) :
    (write f : Process δ ρ Unit).Shows R obs rest last d m ↔ rest (some ()) (f d) m last := by
  cases last with
  | none => exact shows_write_none h
  | some a =>
    rw [shows_write_some h]
    refine and_iff_right fun b hb => ?_
    obtain rfl : a = b := Option.some.inj hb
    exact hR a

/-- Steps of which only the last shows a value. -/
theorem shows_writeSteps {rest : Rest δ ρ Unit ν} {n : Nat} {f : Nat → δ → δ} {b : ν}
    (hnone : ∀ k, k < n → obs (f k d) = none) (h : obs (f n d) = some b) :
    (writeSteps n f : Process δ ρ Unit).Shows R obs rest last d m ↔
      (∀ a ∈ last, R a b) ∧ rest (some ()) (f n d) m (some b) := by
  have hshown : ((List.range (n + 1)).map fun k => f k d).filterMap obs = [b] := by
    have hearlier : (List.range n).filterMap (obs ∘ fun k => f k d) = [] :=
      List.filterMap_eq_nil_iff.mpr fun k hk => hnone k (List.mem_range.mp hk)
    rw [List.range_succ, List.map_append, List.filterMap_append, List.map_singleton,
      List.filterMap_cons_some h, List.filterMap_nil, List.filterMap_map, hearlier, List.nil_append]
  unfold Shows writeSteps
  rw [hshown, isChain_toList_singleton]
  rfl

/-- **The rule of sequencing.** -/
@[simp] theorem shows_bind {f : α → Process δ ρ β} {rest : Rest δ ρ β ν} :
    (x >>= f).Shows R obs rest last d m ↔
      x.Shows R obs (fun
        | some a, d, m, last => (f a).Shows R obs rest last d m
        | none, d, m, last => rest none d m last) last d m := by
  have hbind : (x >>= f) d m = bind x f d m := rfl
  unfold Shows
  rw [hbind, bind]
  cases hx : x d m with
  | mk trace outcome =>
    cases outcome with
    | done a d' m' =>
      simp only [List.filterMap_append, isChain_toList_append, lastShown_append, Rest.Met,
        and_assoc]
    | failed d' m' => rfl
    | running => rfl

/-- The rule of going on after a failure. -/
@[simp] theorem shows_attempt {rest : Rest δ ρ (Option α) ν} :
    x.attempt.Shows R obs rest last d m ↔
      x.Shows R obs (fun a d m last => rest (some a) d m last) last d m := by
  unfold Shows attempt
  cases hx : x d m with
  | mk trace outcome => cases outcome <;> rfl

/-- The rule of consequence, for the end that the execution has. -/
theorem Shows.imp (h : x.Shows R obs rest last d m)
    (hdone : ∀ a d' m' last', (x d m).outcome = .done a d' m' → rest (some a) d' m' last' →
      rest' (some a) d' m' last')
    (hfailed : ∀ d' m' last', (x d m).outcome = .failed d' m' → rest none d' m' last' →
      rest' none d' m' last') : x.Shows R obs rest' last d m := by
  refine ⟨h.1, ?_⟩
  have hend := h.2
  cases hout : (x d m).outcome with
  | done a d' m' =>
    rw [hout] at hend
    exact hdone a d' m' _ hout hend
  | failed d' m' =>
    rw [hout] at hend
    exact hfailed d' m' _ hout hend
  | running => trivial

/-- What an execution that ends has shown last. -/
theorem Shows.done {a : α} {d' : δ} {m' : ρ} (h : x.Shows R obs rest last d m)
    (hdone : (x d m).outcome = .done a d' m') : ∃ last', rest (some a) d' m' last' := by
  have hend := h.2
  rw [hdone] at hend
  exact ⟨_, hend⟩

/-- **A history is what an execution shows**: for a transitive relation, all values read
off the states of the execution, the first one included, are related in their order. -/
theorem pairwise_iff_shows [IsTrans ν R] :
    ((d :: (x d m).trace).filterMap obs).Pairwise R ↔
      x.Shows R obs (fun _ _ _ _ => True) (obs d) d m := by
  have hhistory : (d :: (x d m).trace).filterMap obs =
      (obs d).toList ++ (x d m).trace.filterMap obs := by
    cases hfirst : obs d with
    | none =>
      rw [List.filterMap_cons_none hfirst]
      rfl
    | some a =>
      rw [List.filterMap_cons_some hfirst]
      rfl
  rw [hhistory, ← List.isChain_iff_pairwise]
  refine ⟨fun h => ⟨h, ?_⟩, fun h => h.1⟩
  cases (x d m).outcome <;> trivial

end Process
