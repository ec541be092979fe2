/-! # Computations that can fault

Rust code indexes slices, subtracts unsigned integers and divides, and each of
these can panic.  A `Checked` computation performs the same operations and stops
at the first one that would panic, naming the reason.  A theorem that such a
computation returns `ok` is then a proof that the code does not panic there.

The lemmas give, for every operation, the condition under which it succeeds and
the value it then has; a proof about a whole computation rewrites with them and
never unfolds the operations.
-/

/-- Why a computation stopped. -/
inductive Fault where
  /-- An unsigned subtraction whose right operand is the larger one. -/
  | subtractOverflow
  /-- A range that does not lie inside the slice it is taken of. -/
  | rangeOutOfBounds
  /-- An index that is not a position of the slice. -/
  | indexOutOfBounds
  /-- A slice whose length is not the one an array conversion needs. -/
  | wrongLength
  /-- A division by zero. -/
  | divideByZero
  /-- A loop that did not finish within the number of iterations it was given. -/
  | outOfFuel
  deriving DecidableEq, Repr

/-- A computation that returns a value or stops with a `Fault`. -/
abbrev Checked (α : Type) := Except Fault α

namespace Checked
variable {α β : Type}

/-- `a - b` on unsigned integers. -/
def sub (a b : Nat) : Checked Nat :=
  if b ≤ a then .ok (a - b) else .error .subtractOverflow

/-- `a / b` on 64-bit unsigned integers. -/
def div (a b : UInt64) : Checked UInt64 :=
  if b = 0 then .error .divideByZero else .ok (a / b)

/-- `&xs[a..b]`. -/
def slice (xs : List α) (a b : Nat) : Checked (List α) :=
  if a ≤ b ∧ b ≤ xs.length then .ok ((xs.drop a).take (b - a)) else .error .rangeOutOfBounds

/-- `xs[i]`. -/
def index (xs : List α) (i : Nat) : Checked α :=
  match xs[i]? with
  | some x => .ok x
  | none => .error .indexOutOfBounds

/-- `xs[i..i + ys.len()].copy_from_slice(ys)`: `ys` over the elements of `xs` from
position `i` on. -/
def patch (xs : List α) (i : Nat) (ys : List α) : Checked (List α) :=
  if i + ys.length ≤ xs.length then .ok (xs.take i ++ ys ++ xs.drop (i + ys.length))
  else .error .rangeOutOfBounds

/-! ## When the operations succeed -/

@[simp] theorem ok_bind (a : α) (f : α → Checked β) : (Except.ok a : Checked α) >>= f = f a := rfl

@[simp] theorem pure_eq (a : α) : (pure a : Checked α) = .ok a := rfl

@[simp] theorem error_bind (e : Fault) (f : α → Checked β) :
    (Except.error e : Checked α) >>= f = .error e := rfl

/-- A computation made of two steps succeeds only through a value of the first. -/
theorem bind_eq_ok {x : Checked α} {f : α → Checked β} {b : β} :
    x >>= f = .ok b ↔ ∃ a, x = .ok a ∧ f a = .ok b := by
  cases x with
  | error e => simp
  | ok a => simp

theorem sub_of_le {a b : Nat} (h : b ≤ a) : sub a b = .ok (a - b) := by
  unfold sub
  rw [if_pos h]

theorem div_of_ne {a b : UInt64} (h : b ≠ 0) : div a b = .ok (a / b) := by
  unfold div
  rw [if_neg h]

theorem div_zero (a : UInt64) : div a 0 = .error .divideByZero := rfl

theorem slice_of_le {xs : List α} {a b : Nat} (hab : a ≤ b) (hb : b ≤ xs.length) :
    slice xs a b = .ok ((xs.drop a).take (b - a)) := by
  unfold slice
  rw [if_pos ⟨hab, hb⟩]

theorem index_of_lt {xs : List α} {i : Nat} (h : i < xs.length) : index xs i = .ok xs[i] := by
  unfold index
  rw [List.getElem?_eq_getElem h]

/-- Patching behind a prefix leaves the prefix alone. -/
theorem patch_append (ps xs : List α) (i : Nat) (ys : List α) :
    patch (ps ++ xs) (ps.length + i) ys = (patch xs i ys).map (ps ++ ·) := by
  unfold patch
  by_cases h : i + ys.length ≤ xs.length
  · have hp : ps.length + i + ys.length ≤ (ps ++ xs).length := by
      rw [List.length_append]
      omega
    rw [if_pos h, if_pos hp, Except.map, List.take_length_add_append,
      Nat.add_assoc, List.drop_length_add_append, List.append_assoc, List.append_assoc,
      List.append_assoc]
  · have hp : ¬ ps.length + i + ys.length ≤ (ps ++ xs).length := by
      rw [List.length_append]
      omega
    rw [if_neg h, if_neg hp]
    rfl

/-- Patching a buffer that is filled from the front: `ys` goes right behind what is
already there. -/
theorem patch_fill {done : List α} {i : Nat} (hi : done.length = i) (ys : List α) {k : Nat} (z : α)
    (hk : ys.length ≤ k) :
    patch (done ++ List.replicate k z) i ys =
      .ok (done ++ ys ++ List.replicate (k - ys.length) z) := by
  subst hi
  have hroom : done.length + ys.length ≤ (done ++ List.replicate k z).length := by
    rw [List.length_append, List.length_replicate]
    omega
  unfold patch
  rw [if_pos hroom, List.take_left, List.drop_length_add_append, List.drop_replicate]

/-- Leaving the next `m` elements of such a buffer as they are. -/
theorem fill_skip (done : List α) (m n : Nat) (z : α) :
    done ++ List.replicate (m + n) z = done ++ List.replicate m z ++ List.replicate n z := by
  rw [List.append_assoc, List.replicate_append_replicate]

end Checked
