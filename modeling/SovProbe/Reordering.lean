import SovProbe.Chunking
import SovProbe.KeyedMap

/-! # Putting chunks in order

A receiver that writes a string in order keeps a mark, up to which it has written,
and a map of chunks that wait behind a gap.  A chunk at the mark is written, and then
every waiting chunk that the mark comes to; one behind the mark waits, and one before
it is dropped.

Where the mark is at a boundary, this is complete: once all chunks have been
delivered, in whatever order and however often, the mark is at the end and nothing
waits.  Where it is not, the mark never moves.
-/

namespace Reordering
open Chunking
variable {α : Type} {cs : List (List α)} {D : List (Nat × List α)} {w w' : Nat}
  {m m' : AList fun _ : Nat => List α} {x : Nat × List α}

/-- The waiting chunks the mark comes to are written: from mark and map to mark and map. -/
inductive Drains : Nat → (AList fun _ : Nat => List α) → Nat → (AList fun _ : Nat => List α) → Prop
  | stop {w : Nat} {m : AList fun _ : Nat => List α} :
      (∀ b, m.first? ≠ some (w, b)) → Drains w m w m
  | next {w w' : Nat} {m m' : AList fun _ : Nat => List α} {b : List α} :
      m.first? = some (w, b) → Drains (w + b.length) (m.erase w) w' m' → Drains w m w' m'

/-- What becomes of a chunk that is delivered. -/
inductive Placed (w : Nat) (m : AList fun _ : Nat => List α) (x : Nat × List α) :
    Nat → (AList fun _ : Nat => List α) → Prop
  | dropped : x.2 = [] ∨ x.1 < w → Placed w m x w m
  | kept : w < x.1 → Placed w m x w (m.insert x.1 x.2)
  | written {w' : Nat} {m' : AList fun _ : Nat => List α} :
      x.1 = w → Drains (w + x.2.length) m w' m' → Placed w m x w' m'

/-- The mark is at a boundary, chunks wait only behind it, and each chunk of `D` waits
or lies before it. -/
structure Covers (cs : List (List α)) (D : List (Nat × List α)) (w : Nat)
    (m : AList fun _ : Nat => List α) : Prop where
  boundary : Boundary cs w
  waiting : ∀ o b, m.lookup o = some b → (o, b) ∈ located 0 cs ∧ w ≤ o
  delivered : ∀ o b, (o, b) ∈ D → o < w ∨ m.lookup o = some b

/-- No chunk waits at the mark. -/
structure Settled (cs : List (List α)) (D : List (Nat × List α)) (w : Nat)
    (m : AList fun _ : Nat => List α) : Prop extends Covers cs D w m where
  settled : w ∉ m

/-- A receiver that has not got anything. -/
theorem Settled.start (h : Boundary cs w) : Settled cs [] w ∅ where
  boundary := h
  waiting _ _ hb := nomatch hb
  delivered _ _ hb := nomatch hb
  settled hmem := nomatch hmem

theorem Drains.le (h : Drains w m w' m') : w ≤ w' := by
  induction h with
  | stop _ => exact Nat.le_refl _
  | next _ _ ih => exact Nat.le_trans (Nat.le_add_right _ _) ih

/-- A chunk at the mark moves it. -/
theorem Placed.of_mark_eq {x : Nat × List α} (h : Placed w m x w' m') (hmark : w' = w) :
    x.2 = [] ∨ x.1 ≠ w := by
  cases h with
  | dropped hdropped => exact hdropped.imp_right Nat.ne_of_lt
  | kept hafter => exact Or.inr (Nat.ne_of_gt hafter)
  | written _ hdrains =>
    have hle := hdrains.le
    exact Or.inl (List.eq_nil_of_length_eq_zero (by omega))

/-- **Draining** settles the receiver. -/
theorem Drains.settled (hcs : ∀ c ∈ cs, c ≠ []) (hdrains : Drains w m w' m')
    (h : Covers cs D w m) : Settled cs D w' m' := by
  induction hdrains with
  | @stop w m hnone =>
    refine { h with settled := fun hmem => ?_ }
    obtain ⟨b, hb⟩ := Option.isSome_iff_exists.mp (AList.lookup_isSome.mpr hmem)
    refine hnone b (AList.first?_eq_some.mpr ⟨hb, fun o ho => ?_⟩)
    obtain ⟨b', hb'⟩ := Option.isSome_iff_exists.mp (AList.lookup_isSome.mpr ho)
    exact (h.waiting o b' hb').2
  | @next w w' m m' b hfirst _ ih =>
    have hb := (AList.first?_eq_some.mp hfirst).1
    have hlocated := (h.waiting w b hb).1
    have hpos := List.length_pos_iff.mpr (ne_nil_of_located hcs hlocated)
    refine ih ⟨boundary_of_located hlocated, fun o b' hb' => ?_, fun o b' hmem => ?_⟩
    · obtain ⟨ho, hold⟩ := AList.lookup_erase_eq_some.mp hb'
      obtain ⟨hlocated', hle⟩ := h.waiting o b' hold
      exact ⟨hlocated', end_le_of_lt hlocated hlocated' (Nat.lt_of_le_of_ne hle (Ne.symm ho))⟩
    · rcases h.delivered o b' hmem with hlt | hwaits
      · exact Or.inl (Nat.lt_of_lt_of_le hlt (Nat.le_add_right _ _))
      · by_cases ho : o = w
        · subst ho
          exact Or.inl (Nat.lt_add_of_pos_right hpos)
        · exact Or.inr (by rwa [AList.lookup_erase_ne ho])

/-- **One delivery.** -/
theorem Settled.place (hcs : ∀ c ∈ cs, c ≠ []) (h : Settled cs D w m)
    (hx : x ∈ located 0 cs) (hplaced : Placed w m x w' m') : Settled cs (D ++ [x]) w' m' := by
  have hmem : ∀ {y}, y ∈ D ++ [x] → y ∈ D ∨ y = x := fun hy =>
    (List.mem_append.mp hy).imp_right List.mem_singleton.mp
  cases hplaced with
  | dropped hdropped =>
    have hlt := hdropped.resolve_left (ne_nil_of_located hcs hx)
    refine { h with delivered := fun o b hb => ?_ }
    rcases hmem hb with hold | rfl
    · exact h.delivered o b hold
    · exact Or.inl hlt
  | kept hgt =>
    refine ⟨⟨h.boundary, fun o b hb => ?_, fun o b hb => ?_⟩, fun hw => ?_⟩
    · rcases AList.lookup_insert_eq_some.mp hb with ⟨rfl, rfl⟩ | ⟨-, hold⟩
      · exact ⟨hx, Nat.le_of_lt hgt⟩
      · exact h.waiting o b hold
    · rcases hmem hb with hold | rfl
      · rcases h.delivered o b hold with hlt | hwaits
        · exact Or.inl hlt
        · refine Or.inr ?_
          by_cases ho : o = x.1
          · -- a repetition of a chunk that waits
            have heq := located_inj hcs hx (h.waiting o b hwaits).1 ho.symm
            rw [ho, AList.lookup_insert, heq]
          · rwa [AList.lookup_insert_ne ho]
      · exact Or.inr (AList.lookup_insert _)
    · rcases (AList.mem_insert _).mp hw with heq | hold
      · exact absurd hgt (heq ▸ Nat.lt_irrefl _)
      · exact h.settled hold
  | written heq hdrains =>
    subst heq
    have hpos := List.length_pos_iff.mpr (ne_nil_of_located hcs hx)
    refine hdrains.settled hcs ⟨boundary_of_located hx, fun o b hb => ?_, fun o b hb => ?_⟩
    · obtain ⟨hlocated, hle⟩ := h.waiting o b hb
      have hne : x.1 ≠ o := by
        rintro rfl
        exact h.settled (AList.lookup_isSome.mp (by rw [hb]; rfl))
      exact ⟨hlocated, end_le_of_lt hx hlocated (Nat.lt_of_le_of_ne hle hne)⟩
    · rcases hmem hb with hold | rfl
      · exact (h.delivered o b hold).imp_left
          fun hlt => Nat.lt_of_lt_of_le hlt (Nat.le_add_right _ _)
      · exact Or.inl (Nat.lt_add_of_pos_right hpos)

/-- **Completeness**: with all chunks delivered, the mark is at the end and nothing waits. -/
theorem Settled.complete (hcs : ∀ c ∈ cs, c ≠ []) (h : Settled cs D w m)
    (hall : ∀ x ∈ located 0 cs, x ∈ D) : w = cs.flatten.length ∧ m = ∅ := by
  have hend : w = cs.flatten.length := by
    rcases h.boundary with hend | ⟨b, hb⟩
    · exact hend
    · rcases h.delivered w b (hall _ hb) with hlt | hwaits
      · exact absurd hlt (Nat.lt_irrefl _)
      · exact absurd (AList.lookup_isSome.mp (by rw [hwaits]; rfl)) h.settled
  refine ⟨hend, AList.eq_empty_of_forall_notMem fun o ho => ?_⟩
  obtain ⟨b, hb⟩ := Option.isSome_iff_exists.mp (AList.lookup_isSome.mpr ho)
  obtain ⟨hlocated, hle⟩ := h.waiting o b hb
  have hpos := List.length_pos_iff.mpr (ne_nil_of_located hcs hlocated)
  have hwithin := (located_eq hlocated).1
  simp only at hpos hwithin
  omega

/-- A mark that is not at a boundary never moves. -/
theorem Placed.stalled (hw : ¬ Boundary cs w) (hx : x ∈ located 0 cs)
    (hplaced : Placed w m x w' m') : w' = w := by
  cases hplaced with
  | dropped _ => rfl
  | kept _ => rfl
  | written heq _ => exact absurd (Or.inr ⟨x.2, heq ▸ hx⟩) hw

/-! ## Chunks that overlap

Chunks that are not those of one string can start inside each other.  The mark then
passes the start of a chunk that waits, which is never written and is in the way of all
behind it. -/

/-- Every chunk waits behind the mark. -/
def Ahead (w : Nat) (m : AList fun _ : Nat => List α) : Prop := ∀ o ∈ m, w < o

/-- The waiting chunks the mark comes to from `w`. -/
inductive Follows (m : AList fun _ : Nat => List α) : Nat → Nat × List α → Prop
  | here {w : Nat} {b : List α} : m.lookup w = some b → Follows m w (w, b)
  | next {w : Nat} {b : List α} {x : Nat × List α} :
      m.lookup w = some b → Follows m (w + b.length) x → Follows m w x

/-- The chunks that are written when `x` is delivered. -/
def Written (w : Nat) (m : AList fun _ : Nat => List α) (x y : Nat × List α) : Prop :=
  x.1 = w ∧ (y = x ∨ Follows m (w + x.2.length) y)

/-- A chunk waits that starts inside this one. -/
def Overlapped (m : AList fun _ : Nat => List α) (x : Nat × List α) : Prop :=
  ∃ o ∈ m, x.1 < o ∧ o < x.1 + x.2.length

theorem Follows.mem (h : Follows m w x) : w ∈ m := by
  cases h with
  | here hb => exact AList.lookup_isSome.mp (by rw [hb]; rfl)
  | next hb _ => exact AList.lookup_isSome.mp (by rw [hb]; rfl)

/-- What lies before the mark makes no difference. -/
theorem follows_erase {v : Nat} (hv : v < w) : Follows (m.erase v) w x ↔ Follows m w x := by
  constructor
  · intro h
    induction h with
    | here hb => exact Follows.here (AList.lookup_erase_eq_some.mp hb).2
    | next hb _ ih =>
      exact Follows.next (AList.lookup_erase_eq_some.mp hb).2 (ih (Nat.lt_add_right _ hv))
  · intro h
    induction h with
    | here hb => exact Follows.here (AList.lookup_erase_eq_some.mpr ⟨Nat.ne_of_gt hv, hb⟩)
    | next hb _ ih =>
      refine Follows.next (AList.lookup_erase_eq_some.mpr ⟨Nat.ne_of_gt hv, hb⟩) ?_
      exact ih (Nat.lt_add_right _ hv)

theorem Follows.le (h : Follows m w x) : w ≤ x.1 := by
  induction h with
  | here _ => exact Nat.le_refl _
  | next _ _ ih => exact Nat.le_trans (Nat.le_add_right _ _) ih

theorem overlapped_erase {v : Nat} (hv : v ≤ x.1) : Overlapped (m.erase v) x ↔ Overlapped m x := by
  constructor
  · rintro ⟨o, ho, hinside⟩
    exact ⟨o, (AList.mem_erase.mp ho).2, hinside⟩
  · rintro ⟨o, ho, hinside⟩
    exact ⟨o, AList.mem_erase.mpr ⟨by omega, ho⟩, hinside⟩

/-- Nothing is written past a chunk that the mark has passed. -/
theorem Drains.blocked {o : Nat} (h : Drains w m w' m') (ho : o ∈ m) (hlt : o < w) :
    w' = w ∧ m' = m := by
  cases h with
  | stop _ => exact ⟨rfl, rfl⟩
  | next hfirst _ =>
    have hle := (AList.first?_eq_some.mp hfirst).2 o ho
    exact absurd hlt (Nat.not_lt.mpr hle)

/-- **Draining** keeps the chunks behind the mark exactly when none starts inside one that
is written. -/
theorem Drains.ahead_iff (h : Drains w m w' m') (hbehind : ∀ o ∈ m, w ≤ o)
    (hne : ∀ o b, m.lookup o = some b → b ≠ []) :
    Ahead w' m' ↔ ∀ x, Follows m w x → ¬ Overlapped m x := by
  induction h with
  | @stop w m hnone =>
    have hmark : w ∉ m := by
      intro hmem
      obtain ⟨b, hb⟩ := Option.isSome_iff_exists.mp (AList.lookup_isSome.mpr hmem)
      exact hnone b (AList.first?_eq_some.mpr ⟨hb, hbehind⟩)
    refine iff_of_true (fun o ho => ?_) fun x hx => absurd hx.mem hmark
    exact Nat.lt_of_le_of_ne (hbehind o ho) fun heq => hmark (heq ▸ ho)
  | @next w w' m m' b hfirst hdrains ih =>
    have hb := (AList.first?_eq_some.mp hfirst).1
    have hpos := List.length_pos_iff.mpr (hne w b hb)
    by_cases hinside : Overlapped m (w, b)
    · obtain ⟨o, ho, hgt, hlt⟩ := hinside
      have hrest : o ∈ m.erase w := AList.mem_erase.mpr ⟨Nat.ne_of_gt hgt, ho⟩
      obtain ⟨rfl, rfl⟩ := hdrains.blocked hrest hlt
      refine iff_of_false (fun hahead => ?_) fun hall => ?_
      · exact absurd hlt (Nat.lt_asymm (hahead o hrest))
      · exact hall (w, b) (Follows.here hb) ⟨o, ho, hgt, hlt⟩
    · have hbehind' : ∀ o ∈ m.erase w, w + b.length ≤ o := by
        intro o ho
        obtain ⟨hne', ho'⟩ := AList.mem_erase.mp ho
        have hle := hbehind o ho'
        exact Nat.not_lt.mp fun hlt => hinside ⟨o, ho', by omega, hlt⟩
      rw [ih hbehind' fun o b' hb' => hne o b' (AList.lookup_erase_eq_some.mp hb').2]
      have hlt : w < w + b.length := Nat.lt_add_of_pos_right hpos
      constructor
      · intro hall x hx
        cases hx with
        | here hb' => rwa [Option.some.inj (hb'.symm.trans hb)]
        | next hb' hrest =>
          rw [Option.some.inj (hb'.symm.trans hb)] at hrest
          have hle := hrest.le
          exact fun hover => hall x ((follows_erase hlt).mpr hrest)
            ((overlapped_erase (by omega)).mpr hover)
      · intro hall x hx hover
        have hle := hx.le
        exact hall x (Follows.next hb ((follows_erase hlt).mp hx))
          ((overlapped_erase (by omega)).mp hover)

/-- **One delivery** keeps the chunks behind the mark exactly when none starts inside one
that is written. -/
theorem Placed.ahead_iff (h : Placed w m x w' m') (hahead : Ahead w m)
    (hne : ∀ o b, m.lookup o = some b → b ≠ []) :
    Ahead w' m' ↔ ∀ y, Written w m x y → ¬ Overlapped m y := by
  cases h with
  | dropped hdropped =>
    refine iff_of_true hahead ?_
    rintro y ⟨hat, rfl | hfollows⟩ ⟨o, ho, hgt, hlt⟩
    · rcases hdropped with hempty | hbefore
      · rw [hempty, List.length_nil] at hlt
        omega
      · omega
    · rcases hdropped with hempty | hbefore
      · rw [hempty] at hfollows
        exact Nat.lt_irrefl _ (hahead w hfollows.mem)
      · omega
  | kept hgt =>
    refine iff_of_true (fun o ho => ?_) fun y hy => absurd hy.1 (Nat.ne_of_gt hgt)
    rcases (AList.mem_insert _).mp ho with rfl | hold
    · exact hgt
    · exact hahead o hold
  | written hat hdrains =>
    by_cases hinside : Overlapped m x
    · obtain ⟨o, ho, hgt, hlt⟩ := hinside
      rw [hat] at hlt
      obtain ⟨rfl, rfl⟩ := hdrains.blocked ho hlt
      refine iff_of_false (fun hall => absurd hlt (Nat.lt_asymm (hall o ho))) fun hall => ?_
      exact hall x ⟨hat, Or.inl rfl⟩ ⟨o, ho, hgt, hat ▸ hlt⟩
    · have hbehind : ∀ o ∈ m, w + x.2.length ≤ o := by
        intro o ho
        have hgt := hahead o ho
        exact Nat.not_lt.mp fun hlt => hinside ⟨o, ho, by omega, by omega⟩
      rw [hdrains.ahead_iff hbehind hne]
      constructor
      · rintro hall y ⟨-, rfl | hfollows⟩
        · exact hinside
        · exact hall y hfollows
      · exact fun hall y hy => hall y ⟨hat, Or.inr hy⟩

end Reordering
