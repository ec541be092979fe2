import Mathlib.Data.List.Basic

/-! # Strings cut into chunks

A string cut into chunks, and the offsets at which they start.  Two chunks are the
same one or lie one behind the other, so no chunk reaches over a boundary.
-/

namespace Chunking
variable {α : Type} {cs : List (List α)} {x y : Nat × List α} {k : Nat}

/-- The chunks with the offsets they start at, the first one at `o`. -/
def located : Nat → List (List α) → List (Nat × List α)
  | _, [] => []
  | o, c :: cs => (o, c) :: located (o + c.length) cs

/-- A position where a chunk starts or the string ends. -/
def Boundary (cs : List (List α)) (k : Nat) : Prop :=
  k = cs.flatten.length ∨ ∃ b, (k, b) ∈ located 0 cs

/-- **A chunk starts where the chunks before it end.** -/
theorem mem_located_iff {o : Nat} :
    x ∈ located o cs ↔ ∃ pre post, cs = pre ++ x.2 :: post ∧ x.1 = o + pre.flatten.length := by
  induction cs generalizing o with
  | nil =>
    constructor
    · intro h
      cases h
    · rintro ⟨pre, post, heq, -⟩
      exact absurd heq.symm (by simp)
  | cons c cs ih =>
    rw [located, List.mem_cons, ih]
    constructor
    · rintro (rfl | ⟨pre, post, rfl, hx⟩)
      · exact ⟨[], cs, rfl, rfl⟩
      · refine ⟨c :: pre, post, rfl, ?_⟩
        rw [hx, List.flatten_cons, List.length_append, Nat.add_assoc]
    · rintro ⟨pre, post, heq, hx⟩
      cases pre with
      | nil =>
        obtain ⟨rfl, rfl⟩ := List.cons.inj heq
        exact Or.inl (Prod.ext hx rfl)
      | cons p pre =>
        obtain ⟨rfl, rfl⟩ := List.cons.inj heq
        refine Or.inr ⟨pre, post, rfl, ?_⟩
        rw [hx, List.flatten_cons, List.length_append, Nat.add_assoc]

theorem ne_nil_of_located (hcs : ∀ c ∈ cs, c ≠ []) (hx : x ∈ located 0 cs) : x.2 ≠ [] := by
  obtain ⟨pre, post, rfl, -⟩ := mem_located_iff.mp hx
  exact hcs _ (List.mem_append_right _ List.mem_cons_self)

/-- The bytes of a chunk are those of the string at its offset. -/
theorem located_eq (hx : x ∈ located 0 cs) :
    x.1 + x.2.length ≤ cs.flatten.length ∧
      x.2 = (cs.flatten.drop x.1).take x.2.length := by
  obtain ⟨pre, post, rfl, hoffset⟩ := mem_located_iff.mp hx
  rw [Nat.zero_add] at hoffset
  rw [List.flatten_append, List.flatten_cons, hoffset, List.drop_left, List.take_left]
  simp only [List.length_append, and_true]
  omega

/-- A chunk ends at a boundary. -/
theorem boundary_of_located (hx : x ∈ located 0 cs) : Boundary cs (x.1 + x.2.length) := by
  obtain ⟨pre, post, rfl, hoffset⟩ := mem_located_iff.mp hx
  have hend : x.1 + x.2.length = (pre ++ [x.2]).flatten.length := by
    rw [hoffset, List.flatten_append, List.flatten_singleton, List.length_append, Nat.zero_add]
  cases post with
  | nil => exact Or.inl hend
  | cons b post =>
    refine Or.inr ⟨b, mem_located_iff.mpr ⟨pre ++ [x.2], post, ?_, ?_⟩⟩
    · rw [List.append_assoc]
      rfl
    · rw [hend, Nat.zero_add]

theorem boundary_zero (cs : List (List α)) : Boundary cs 0 := by
  cases cs with
  | nil => exact Or.inl rfl
  | cons c cs => exact Or.inr ⟨c, List.mem_cons_self⟩

theorem le_of_mem_located {o : Nat} (hx : x ∈ located o cs) : o ≤ x.1 := by
  obtain ⟨pre, post, -, hoffset⟩ := mem_located_iff.mp hx
  rw [hoffset]
  exact Nat.le_add_right _ _

/-- **Chunks do not overlap.** -/
theorem located_disjoint {o : Nat} (hx : x ∈ located o cs) (hy : y ∈ located o cs) :
    x = y ∨ x.1 + x.2.length ≤ y.1 ∨ y.1 + y.2.length ≤ x.1 := by
  induction cs generalizing o with
  | nil => cases hx
  | cons c cs ih =>
    rcases List.mem_cons.mp hx with rfl | hx <;> rcases List.mem_cons.mp hy with rfl | hy
    · exact Or.inl rfl
    · exact Or.inr (Or.inl (le_of_mem_located hy))
    · exact Or.inr (Or.inr (le_of_mem_located hx))
    · exact ih hx hy

/-- The chunk at an offset. -/
theorem located_inj (hcs : ∀ c ∈ cs, c ≠ []) (hx : x ∈ located 0 cs) (hy : y ∈ located 0 cs)
    (h : x.1 = y.1) : x = y := by
  have hxpos := List.length_pos_iff.mpr (ne_nil_of_located hcs hx)
  have hypos := List.length_pos_iff.mpr (ne_nil_of_located hcs hy)
  rcases located_disjoint hx hy with heq | hlt | hgt
  · exact heq
  · omega
  · omega

/-- A chunk that starts behind another starts behind its end. -/
theorem end_le_of_lt (hx : x ∈ located 0 cs) (hy : y ∈ located 0 cs) (h : x.1 < y.1) :
    x.1 + x.2.length ≤ y.1 := by
  rcases located_disjoint hx hy with rfl | hlt | hgt
  · exact absurd h (Nat.lt_irrefl _)
  · exact hlt
  · omega

end Chunking
