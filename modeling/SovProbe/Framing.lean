import Mathlib.Order.Bounds.Defs
import Mathlib.Algebra.Ring.Nat
import Mathlib.Algebra.BigOperators.Group.List.Basic

/-! # Streams of self-delimiting frames

A `Framer` reads one frame from the front of a string and says how many symbols
it took.  Decoding a stream reads frames until one is refused; what is left over
is the residual.

Any string may be decoded.  `read_residual` says why decoding stops, and for a
reader that never takes a frame back (`Stable`) a string may arrive in pieces:
`Stable.decode_append` continues from the residual alone.

The other results are about streams that were produced by concatenating encodings.
`decode_flatMap_append` decodes such a stream up to whatever follows it,
`decode_flatMap_take` decodes any of its prefixes, and `decode_flatMap_refused`
decodes it up to a part that is not a frame.  They ask two things of an encoding:
that it reads back whatever follows it (`Reads`), and that no proper prefix of it
reads as a frame (`Unsplittable`).
-/

/-- A reader of one frame from the front of a string. -/
structure Framer (β α : Type) where
  /-- The frame at the front of the string and its length, if there is one. -/
  read : List β → Option (α × Nat)
  read_pos : ∀ {bs a n}, read bs = some (a, n) → 0 < n
  read_le : ∀ {bs a n}, read bs = some (a, n) → n ≤ bs.length

namespace Framer
variable {α β : Type} (F : Framer β α)

/-- At most `fuel` frames from the front of the string, and the length of the rest. -/
def decodeFuel : Nat → List β → List α × Nat
  | 0, bs => ([], bs.length)
  | fuel + 1, bs =>
    match F.read bs with
    | none => ([], bs.length)
    | some (a, n) => (a :: (decodeFuel fuel (bs.drop n)).1, (decodeFuel fuel (bs.drop n)).2)

/-- All frames from the front of the string, and the length of the residual.  A
frame is never empty, so the length of the string bounds their number. -/
def decode (bs : List β) : List α × Nat := F.decodeFuel bs.length bs

/-- Fuel beyond the length of the string changes nothing. -/
theorem decodeFuel_eq_decode (fuel : Nat) (bs : List β) (h : bs.length ≤ fuel) :
    F.decodeFuel fuel bs = F.decode bs := by
  -- both sides are compared with a third one whose fuel is the larger of the two
  have key : ∀ (m : Nat) (bs : List β) (k : Nat), bs.length ≤ m → m ≤ k →
      F.decodeFuel k bs = F.decodeFuel m bs := by
    intro m
    induction m with
    | zero =>
      intro bs k hbs _
      have hnil : bs = [] := List.length_eq_zero_iff.mp (Nat.le_zero.mp hbs)
      subst hnil
      cases k with
      | zero => rfl
      | succ k =>
        have hnone : F.read [] = none := by
          cases hr : F.read [] with
          | none => rfl
          | some p =>
            have hpos := F.read_pos (a := p.1) (n := p.2) hr
            have hle := F.read_le (a := p.1) (n := p.2) hr
            rw [List.length_nil] at hle
            omega
        simp only [decodeFuel, hnone]
    | succ m ih =>
      intro bs k hbs hk
      obtain ⟨k, rfl⟩ : ∃ k', k = k' + 1 := ⟨k - 1, by omega⟩
      rw [decodeFuel, decodeFuel]
      cases hr : F.read bs with
      | none => rfl
      | some p =>
        obtain ⟨a, n⟩ := p
        have hpos := F.read_pos hr
        have hdrop : (bs.drop n).length ≤ m := by
          rw [List.length_drop]
          omega
        simp only [ih (bs.drop n) k hdrop (by omega)]
  exact key bs.length bs fuel (Nat.le_refl _) h

theorem decode_of_refused {bs : List β} (h : F.read bs = none) : F.decode bs = ([], bs.length) := by
  rw [← F.decodeFuel_eq_decode (bs.length + 1) bs (Nat.le_succ _), decodeFuel, h]

theorem decode_of_read {bs : List β} {a : α} {n : Nat} (h : F.read bs = some (a, n)) :
    F.decode bs = (a :: (F.decode (bs.drop n)).1, (F.decode (bs.drop n)).2) := by
  rw [← F.decodeFuel_eq_decode (bs.length + 1) bs (Nat.le_succ _), decodeFuel, h]
  have hle : (bs.drop n).length ≤ bs.length := by
    rw [List.length_drop]
    omega
  simp only [F.decodeFuel_eq_decode bs.length (bs.drop n) hle]

/-- What holds of a string that does not start with a frame, and of a string whose
first frame is followed by one it holds of, holds of every string. -/
theorem frames_induction {motive : List β → Prop}
    (refused : ∀ bs, F.read bs = none → motive bs)
    (accepted : ∀ bs a n, F.read bs = some (a, n) → motive (bs.drop n) → motive bs)
    (bs : List β) : motive bs := by
  induction hlen : bs.length using Nat.strongRecOn generalizing bs with
  | _ len ih =>
    subst hlen
    cases hread : F.read bs with
    | none => exact refused bs hread
    | some p =>
      obtain ⟨a, n⟩ := p
      have hpos := F.read_pos hread
      have hle := F.read_le hread
      apply accepted bs a n hread
      apply ih (bs.drop n).length _ (bs.drop n) rfl
      rw [List.length_drop]
      omega

/-! ## The residual -/

theorem decode_snd_le (bs : List β) : (F.decode bs).2 ≤ bs.length := by
  induction bs using F.frames_induction with
  | refused bs hread => exact Nat.le_of_eq (congrArg Prod.snd (F.decode_of_refused hread))
  | accepted bs a n hread ih =>
    rw [F.decode_of_read hread]
    rw [List.length_drop] at ih
    omega

/-- The symbols of a string that are part of no frame. -/
def residual (bs : List β) : List β := bs.drop (bs.length - (F.decode bs).2)

theorem residual_length (bs : List β) : (F.residual bs).length = (F.decode bs).2 := by
  have hle := F.decode_snd_le bs
  rw [residual, List.length_drop]
  omega

theorem residual_of_refused {bs : List β} (h : F.read bs = none) : F.residual bs = bs := by
  rw [residual, F.decode_of_refused h, Nat.sub_self, List.drop_zero]

theorem residual_of_read {bs : List β} {a : α} {n : Nat} (h : F.read bs = some (a, n)) :
    F.residual bs = F.residual (bs.drop n) := by
  have hle := F.read_le h
  have hrest := F.decode_snd_le (bs.drop n)
  rw [residual, residual, F.decode_of_read h, List.drop_drop, List.length_drop]
  rw [List.length_drop] at hrest
  congr 1
  omega

/-- **Decoding stops for a reason**: what is left does not start with a frame. -/
theorem read_residual (bs : List β) : F.read (F.residual bs) = none := by
  induction bs using F.frames_induction with
  | refused bs hread => rw [F.residual_of_refused hread, hread]
  | accepted bs a n hread ih => rw [F.residual_of_read hread, ih]

/-! ## Where the frames lie -/

/-- The length of a frame can be told from what it reads as. -/
def Sized (size : α → Nat) : Prop := ∀ ⦃bs a n⦄, F.read bs = some (a, n) → size a = n

/-- The place in the string behind the given frames. -/
def offset (size : α → Nat) (as : List α) : Nat := (as.map size).sum

theorem offset_cons (size : α → Nat) (a : α) (as : List α) :
    offset size (a :: as) = size a + offset size as := by
  rw [offset, offset, List.map_cons, List.sum_cons]

theorem offset_take_succ (size : α → Nat) {as : List α} {k : Nat} (hk : k < as.length) :
    offset size (as.take (k + 1)) = offset size (as.take k) + size as[k] := by
  induction as generalizing k with
  | nil => exact absurd hk (Nat.not_lt_zero k)
  | cons a as ih =>
    cases k with
    | zero => simp [offset]
    | succ k =>
      have hrest := ih (Nat.lt_of_succ_lt_succ hk)
      rw [List.take_succ_cons, List.take_succ_cons, offset_cons, offset_cons, hrest,
        List.getElem_cons_succ, Nat.add_assoc]

variable {F}
variable {size : α → Nat}

/-- **Every symbol is accounted for**, by a frame or by the residual. -/
theorem Sized.offset_decode (h : F.Sized size) (bs : List β) :
    offset size (F.decode bs).1 + (F.decode bs).2 = bs.length := by
  induction bs using F.frames_induction with
  | refused bs hread =>
    rw [F.decode_of_refused hread]
    exact Nat.zero_add _
  | accepted bs a n hread ih =>
    have hle := F.read_le hread
    rw [F.decode_of_read hread, offset_cons, h hread]
    rw [List.length_drop] at ih
    omega

/-- Each frame is read where the ones before it end. -/
theorem Sized.read_offset (h : F.Sized size) (bs : List β) :
    ∀ k (hk : k < (F.decode bs).1.length),
      F.read (bs.drop (offset size ((F.decode bs).1.take k))) =
        some ((F.decode bs).1[k], size (F.decode bs).1[k]) := by
  induction bs using F.frames_induction with
  | refused bs hread =>
    intro k hk
    rw [F.decode_of_refused hread] at hk
    exact absurd hk (Nat.not_lt_zero k)
  | accepted bs a n hread ih =>
    have hdecode := F.decode_of_read hread
    have hsize := h hread
    simp only [hdecode]
    intro k hk
    cases k with
    | zero =>
      rw [List.take_zero, List.getElem_cons_zero, hsize]
      exact hread
    | succ k =>
      have hrest := ih k (Nat.lt_of_succ_lt_succ hk)
      rw [List.drop_drop] at hrest
      rw [List.take_succ_cons, offset_cons, hsize, List.getElem_cons_succ]
      exact hrest

theorem Sized.offset_take_le (h : F.Sized size) (bs : List β) (k : Nat) :
    offset size ((F.decode bs).1.take k) ≤ bs.length := by
  have htotal := h.offset_decode bs
  have hsplit : offset size ((F.decode bs).1.take k) + offset size ((F.decode bs).1.drop k) =
      offset size (F.decode bs).1 := by
    rw [offset, offset, ← List.sum_append, ← List.map_append, List.take_append_drop, offset]
  omega

/-- **The frames make up the string**, up to the residual, if each of them encodes to
the symbols it was read from. -/
theorem Sized.flatMap_decode (h : F.Sized size) {enc : α → List β} (bs : List β)
    (henc : ∀ k (hk : k < (F.decode bs).1.length), enc (F.decode bs).1[k] =
      (bs.drop (offset size ((F.decode bs).1.take k))).take (size (F.decode bs).1[k])) :
    (F.decode bs).1.flatMap enc = bs.take (bs.length - (F.decode bs).2) := by
  induction bs using F.frames_induction with
  | refused bs hread =>
    rw [F.decode_of_refused hread, Nat.sub_self]
    rfl
  | accepted bs a n hread ih =>
    have hdecode := F.decode_of_read hread
    have hsize := h hread
    have hle := F.read_le hread
    have hrest := F.decode_snd_le (bs.drop n)
    simp only [hdecode] at henc ⊢
    have hfirst := henc 0 (Nat.zero_lt_succ _)
    rw [List.take_zero, List.getElem_cons_zero, hsize] at hfirst
    have hlater := ih (fun k hk => by
      have hk' := henc (k + 1) (Nat.succ_lt_succ hk)
      rw [List.take_succ_cons, offset_cons, hsize, List.getElem_cons_succ, ← List.drop_drop] at hk'
      exact hk')
    rw [List.flatMap_cons, hlater, hfirst, List.length_drop]
    rw [List.length_drop] at hrest
    have hsum : bs.length - (F.decode (bs.drop n)).2 =
        n + (bs.length - n - (F.decode (bs.drop n)).2) := by omega
    rw [hsum, List.take_add]
    rfl

variable (F)

/-! ## Strings that arrive in pieces -/

/-- A frame that has been read is read the same way when more follows. -/
def Stable : Prop := ∀ ⦃bs a n⦄, F.read bs = some (a, n) → ∀ t, F.read (bs ++ t) = some (a, n)

variable {F} in
/-- **What follows is decoded from the residual on.** -/
theorem Stable.decode_append (h : F.Stable) (bs t : List β) :
    F.decode (bs ++ t) = ((F.decode bs).1 ++ (F.decode (F.residual bs ++ t)).1,
      (F.decode (F.residual bs ++ t)).2) := by
  induction bs using F.frames_induction with
  | refused bs hread =>
    rw [F.residual_of_refused hread, F.decode_of_refused hread, List.nil_append]
  | accepted bs a n hread ih =>
    have hmore := h hread t
    have hdrop : (bs ++ t).drop n = bs.drop n ++ t :=
      List.drop_append_of_le_length (F.read_le hread)
    rw [F.decode_of_read hmore, hdrop, ih, F.residual_of_read hread, F.decode_of_read hread,
      List.cons_append]

variable {F} in
theorem Stable.residual_append (h : F.Stable) (bs t : List β) :
    F.residual (bs ++ t) = F.residual (F.residual bs ++ t) := by
  induction bs using F.frames_induction with
  | refused bs hread => rw [F.residual_of_refused hread]
  | accepted bs a n hread ih =>
    have hdrop : (bs ++ t).drop n = bs.drop n ++ t :=
      List.drop_append_of_le_length (F.read_le hread)
    rw [F.residual_of_read (h hread t), hdrop, ih, F.residual_of_read hread]

/-! ## Concatenated encodings -/

variable (enc : α → List β) (norm : α → α)

/-- The encoding of `a` reads back as `norm a`, whatever follows it. -/
def Reads (a : α) : Prop :=
  ∀ t, F.read (enc a ++ t) = some (norm a, (enc a).length)

/-- No proper prefix of the encoding of `a` reads as a frame. -/
def Unsplittable (a : α) : Prop :=
  ∀ k, k < (enc a).length → F.read ((enc a).take k) = none

variable {enc norm}

/-- **Decoding undoes encoding**, up to whatever follows the encodings. -/
theorem decode_flatMap_append {as : List α} (h : ∀ a ∈ as, F.Reads enc norm a) (t : List β) :
    F.decode (as.flatMap enc ++ t) = (as.map norm ++ (F.decode t).1, (F.decode t).2) := by
  induction as with
  | nil => rfl
  | cons a as ih =>
    have hrest := ih (fun b hb => h b (List.mem_cons_of_mem a hb))
    have hread := h a List.mem_cons_self (as.flatMap enc ++ t)
    rw [List.flatMap_cons, List.append_assoc, F.decode_of_read hread, List.drop_left, hrest]
    rfl

/-- Encodings followed by something that does not start with a frame. -/
theorem decode_flatMap_refused {as : List α} (h : ∀ a ∈ as, F.Reads enc norm a) {t : List β}
    (ht : F.read t = none) :
    F.decode (as.flatMap enc ++ t) = (as.map norm, t.length) := by
  rw [F.decode_flatMap_append h, F.decode_of_refused ht, List.append_nil]

/-- The number of leading encodings that lie wholly within the first `k` symbols. -/
def wholeWithin (enc : α → List β) : List α → Nat → Nat
  | [], _ => 0
  | a :: as, k => if (enc a).length ≤ k then wholeWithin enc as (k - (enc a).length) + 1 else 0

theorem wholeWithin_le (as : List α) (k : Nat) : wholeWithin enc as k ≤ as.length := by
  induction as generalizing k with
  | nil => exact Nat.le_refl 0
  | cons a as ih =>
    rw [wholeWithin, List.length_cons]
    split
    · exact Nat.succ_le_succ (ih _)
    · exact Nat.zero_le _

/-- `wholeWithin` counts exactly: the first `j` encodings fit into `k` symbols
iff `j` is at most the count. -/
theorem le_wholeWithin_iff (hpos : ∀ a : α, 0 < (enc a).length) (as : List α) (k j : Nat)
    (hj : j ≤ as.length) :
    j ≤ wholeWithin enc as k ↔ ((as.take j).flatMap enc).length ≤ k := by
  induction as generalizing k j with
  | nil =>
    have : j = 0 := Nat.le_zero.mp hj
    subst this
    simp
  | cons a as ih =>
    cases j with
    | zero => simp
    | succ j =>
      have hj' : j ≤ as.length := Nat.le_of_succ_le_succ hj
      have ha := hpos a
      rw [wholeWithin, List.take_succ_cons, List.flatMap_cons, List.length_append]
      split
      · rename_i hfit
        rw [Nat.succ_le_succ_iff, ih (k - (enc a).length) j hj']
        omega
      · omega

/-- **A torn stream.**  The first `k` symbols of a concatenation of encodings
decode to the encodings that lie wholly within them, and the residual is what is
left of the `k` symbols. -/
theorem decode_flatMap_take {as : List α} (hread : ∀ a ∈ as, F.Reads enc norm a)
    (hsplit : ∀ a ∈ as, F.Unsplittable enc a) (k : Nat) (hk : k ≤ (as.flatMap enc).length) :
    F.decode ((as.flatMap enc).take k) =
      ((as.take (wholeWithin enc as k)).map norm,
        k - ((as.take (wholeWithin enc as k)).flatMap enc).length) := by
  induction as generalizing k with
  | nil =>
    have : k = 0 := Nat.le_zero.mp hk
    subst this
    rfl
  | cons a as ih =>
    rw [List.flatMap_cons, List.length_append] at hk
    rw [wholeWithin, List.flatMap_cons]
    split
    · -- the first encoding is complete: read it and continue behind it
      rename_i hfit
      have hrest := ih (fun b hb => hread b (List.mem_cons_of_mem a hb))
        (fun b hb => hsplit b (List.mem_cons_of_mem a hb)) (k - (enc a).length) (by omega)
      have hfirst := hread a List.mem_cons_self ((as.flatMap enc).take (k - (enc a).length))
      rw [List.take_append, List.take_of_length_le hfit, F.decode_of_read hfirst, List.drop_left,
        hrest, List.take_succ_cons, List.map_cons, List.flatMap_cons, List.length_append]
      congr 1
      omega
    · -- the cut lies inside the first encoding
      rename_i hcut
      have hlt : k < (enc a).length := Nat.lt_of_not_le hcut
      rw [List.take_append_of_le_length (Nat.le_of_lt hlt),
        F.decode_of_refused (hsplit a List.mem_cons_self k hlt), List.take_zero, List.map_nil,
        List.flatMap_nil, List.length_take]
      congr 1
      rw [Nat.min_eq_left (Nat.le_of_lt hlt)]
      rfl

end Framer
