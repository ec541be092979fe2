import SovProbe.Eviction
import Mathlib.Data.Finset.Max

/-! # Which segments the loop removes

Counting up from `min_no` and wrapping at `2 ^ 64`, the loop meets the segments in
the order of their `age`.  What it removes of a directory are the youngest by that
count, as many as there are too many; names that `seg_path` does not format are
never met.  Whether these are the right ones is a question of order alone, and
`outranked_iff` answers it: they are outranked by enough others iff they all lie
below everything that stays.
-/

namespace SovProbe

/-! ## Ranks -/

/-- Let as many of `C` and `F` stay as there is room for.  Then every number that goes
has that many above it iff all that stays is above all that goes. -/
theorem outranked_iff {κ : Type} {C R : Finset Nat} (hR : R ⊆ C) {F : Finset κ}
    {number : κ → Option Nat} {room : Nat} (hcard : C.card + F.card = room + R.card) :
    (∀ n ∈ R, room ≤ (C.filter fun c => n < c).card +
        (F.filter fun f => ∃ m, number f = some m ∧ n < m).card) ↔
      ∀ n ∈ R, (∀ c ∈ C \ R, n < c) ∧ ∀ f ∈ F, ∃ m, number f = some m ∧ n < m := by
  have hdiff : (C \ R).card + R.card = C.card := Finset.card_sdiff_add_card_eq_card hR
  constructor
  · intro h n hn
    -- the largest number that goes has only what stays above it, and needs all of that
    have hne : R.Nonempty := ⟨n, hn⟩
    have hlarge := h (R.max' hne) (R.max'_mem hne)
    have habove : (C.filter fun c => R.max' hne < c) ⊆ C \ R := by
      intro c hc
      obtain ⟨hcC, hlt⟩ := Finset.mem_filter.mp hc
      exact Finset.mem_sdiff.mpr ⟨hcC, fun hcR => absurd (R.le_max' c hcR) (Nat.not_le.mpr hlt)⟩
    have hC := Finset.card_le_card habove
    have hF := Finset.card_filter_le F fun f => ∃ m, number f = some m ∧ R.max' hne < m
    have hCeq : (C.filter fun c => R.max' hne < c) = C \ R :=
      Finset.eq_of_subset_of_card_le habove (by omega)
    have hFeq : (F.filter fun f => ∃ m, number f = some m ∧ R.max' hne < m) = F :=
      Finset.eq_of_subset_of_card_le (Finset.filter_subset _ _) (by omega)
    have hle : n ≤ R.max' hne := R.le_max' n hn
    refine ⟨fun c hc => ?_, fun f hf => ?_⟩
    · rw [← hCeq] at hc
      exact Nat.lt_of_le_of_lt hle (Finset.mem_filter.mp hc).2
    · rw [← hFeq] at hf
      obtain ⟨m, hm, hlt⟩ := (Finset.mem_filter.mp hf).2
      exact ⟨m, hm, Nat.lt_of_le_of_lt hle hlt⟩
  · intro h n hn
    obtain ⟨hC, hF⟩ := h n hn
    have hCle : (C \ R).card ≤ (C.filter fun c => n < c).card := by
      refine Finset.card_le_card fun c hc => ?_
      exact Finset.mem_filter.mpr ⟨(Finset.mem_sdiff.mp hc).1, hC c hc⟩
    rw [Finset.filter_true_of_mem hF]
    omega

/-! ## Ages -/

/-- How far the loop has to count from `start` to reach `n`. -/
def age (start n : Nat) : Nat := (n + 2 ^ 64 - start) % 2 ^ 64

theorem age_of_le {start n : Nat} (hn : n < 2 ^ 64) (h : start ≤ n) : age start n = n - start := by
  unfold age
  omega

theorem age_of_lt {start n : Nat} (hstart : start < 2 ^ 64) (h : n < start) :
    age start n = n + 2 ^ 64 - start := by
  unfold age
  omega

theorem age_lt (start n : Nat) : age start n < 2 ^ 64 := Nat.mod_lt _ (by decide)

/-- What `k` iterations leave of the numbers. -/
theorem mem_numbers_sweep {S : Finset FileName} {start k n : Nat} (hstart : start < 2 ^ 64) :
    n ∈ numbers (sweep S start k) ↔ n ∈ numbers S ∧ k ≤ age start n := by
  rw [mem_numbers, mem_numbers, mem_sweep]
  constructor
  · rintro ⟨⟨hS, hk⟩, hn⟩
    refine ⟨⟨hS, hn⟩, Nat.not_lt.mp fun hlt => hk _ hlt ?_⟩
    congr 1
    unfold age
    omega
  · rintro ⟨⟨hS, hn⟩, hk⟩
    refine ⟨⟨hS, fun j hj heq => ?_⟩, hn⟩
    have hno := segPath_injective heq
    have hage := age_lt start n
    unfold age at hk hage
    omega

theorem foreign_sweep (S : Finset FileName) (start k : Nat) :
    foreign (sweep S start k) = foreign S := by
  ext name
  rw [mem_foreign, mem_foreign, mem_sweep]
  constructor
  · rintro ⟨⟨hS, -⟩, hname⟩
    exact ⟨hS, hname⟩
  · rintro ⟨hS, hname⟩
    exact ⟨⟨hS, fun j _ => hname _ (Nat.mod_lt _ (by decide))⟩, hname⟩

theorem numbers_sweep (S : Finset FileName) {start : Nat} (hstart : start < 2 ^ 64) (k : Nat) :
    numbers (sweep S start k) = (numbers S).filter (k ≤ age start ·) := by
  ext n
  rw [mem_numbers_sweep hstart, Finset.mem_filter]

/-- The numbers of the segments that `k` iterations remove. -/
noncomputable def evicted (S : Finset FileName) (start k : Nat) : Finset Nat :=
  (numbers S).filter (age start · < k)

theorem mem_evicted {S : Finset FileName} {start k n : Nat} :
    n ∈ evicted S start k ↔ n ∈ numbers S ∧ age start n < k := Finset.mem_filter

theorem evicted_subset (S : Finset FileName) (start k : Nat) : evicted S start k ⊆ numbers S :=
  Finset.filter_subset _ _

theorem card_sweep (S : Finset FileName) {start : Nat} (hstart : start < 2 ^ 64) (k : Nat) :
    (sweep S start k).card + (evicted S start k).card = S.card := by
  have hsplit : ((numbers S).filter (k ≤ age start ·)).card + (evicted S start k).card =
      (numbers S).card := by
    rw [evicted, Nat.add_comm, ← Finset.card_filter_add_card_filter_not (s := numbers S)
      (fun n => age start n < k)]
    simp only [Nat.not_lt]
  rw [card_eq_numbers_add_foreign (sweep S start k), card_eq_numbers_add_foreign S, foreign_sweep,
    numbers_sweep S hstart]
  omega

/-- A whole turn of the counter removes all that can be removed. -/
theorem card_sweep_turn (S : Finset FileName) {start : Nat} (hstart : start < 2 ^ 64) :
    (sweep S start (2 ^ 64)).card = (foreign S).card := by
  have hnone : numbers (sweep S start (2 ^ 64)) = ∅ := by
    rw [numbers_sweep S hstart, Finset.filter_eq_empty_iff]
    exact fun n _ => Nat.not_le.mpr (age_lt start n)
  rw [card_eq_numbers_add_foreign, foreign_sweep, hnone, Finset.card_empty, Nat.zero_add]

/-- Where no more names are foreign than there is room for, some sweep is within the
budget; the first one is where the loop ends. -/
theorem exists_stop {S : Finset FileName} {start room : Nat} (hstart : start < 2 ^ 64)
    (hforeign : (foreign S).card ≤ room) :
    ∃ k, (sweep S start k).card ≤ room ∧ ∀ j, j < k → room < (sweep S start j).card := by
  have hex : ∃ k, (sweep S start k).card ≤ room :=
    ⟨2 ^ 64, Nat.le_trans (Nat.le_of_eq (card_sweep_turn S hstart)) hforeign⟩
  exact ⟨Nat.find hex, Nat.find_spec hex, fun j hj => Nat.not_le.mp (Nat.find_min hex hj)⟩

/-- Where the loop stops after removing something, the directory is exactly full. -/
theorem card_sweep_of_first {S : Finset FileName} {start k room : Nat}
    (hfirst : ∀ j, j < k → room < (sweep S start j).card) (hk : (sweep S start k).card ≤ room)
    (hover : room < S.card) : (sweep S start k).card = room := by
  cases k with
  | zero =>
    rw [sweep_zero] at hk
    omega
  | succ k =>
    have hlast := hfirst k (Nat.lt_succ_self k)
    have hstep := card_sweep_le_succ S start k
    omega

/-! ## When the loop removes the lowest numbers -/

variable {S : Finset FileName} {start k : Nat}

/-- The counter does not stand between two segment numbers. -/
def OneSided (S : Finset FileName) (start : Nat) : Prop :=
  (∀ n ∈ numbers S, start ≤ n) ∨ ∀ n ∈ numbers S, n < start

/-- Then counting meets them in their order. -/
theorem OneSided.age_lt_age_iff (h : OneSided S start) (hstart : start < 2 ^ 64) {a c : Nat}
    (ha : a ∈ numbers S) (hc : c ∈ numbers S) : age start a < age start c ↔ a < c := by
  rcases h with hle | hlt
  · rw [age_of_le (mem_numbers.mp ha).2 (hle a ha), age_of_le (mem_numbers.mp hc).2 (hle c hc)]
    have := hle a ha
    have := hle c hc
    omega
  · rw [age_of_lt hstart (hlt a ha), age_of_lt hstart (hlt c hc)]
    omega

/-- Numbers that go are met before those that stay. -/
theorem age_lt_of_evicted {n c : Nat} (hn : n ∈ evicted S start k)
    (hc : c ∈ numbers S \ evicted S start k) : age start n < age start c := by
  obtain ⟨hcC, hcR⟩ := Finset.mem_sdiff.mp hc
  exact Nat.lt_of_lt_of_le (mem_evicted.mp hn).2
    (Nat.not_lt.mp fun hlt => hcR (mem_evicted.mpr ⟨hcC, hlt⟩))

/-- If what goes lies below what stays, and the number `new` stays, the counter is on
one side of all numbers. -/
theorem oneSided_of_lowest (hstart : start < 2 ^ 64) {new : Nat} (hnew : new ∈ numbers S)
    (hstays : new ∉ evicted S start k) (hsome : (evicted S start k).Nonempty)
    (hlow : ∀ n ∈ evicted S start k, ∀ c ∈ numbers S \ evicted S start k, n < c) :
    OneSided S start := by
  by_contra hsides
  simp only [OneSided, not_or, not_forall, Nat.not_le, Nat.not_lt, exists_prop] at hsides
  obtain ⟨⟨b, hb, hbelow⟩, a, ha, habove⟩ := hsides
  have hagea := age_of_le (mem_numbers.mp ha).2 habove
  have hageb := age_of_lt hstart hbelow
  have hnewStays : new ∈ numbers S \ evicted S start k := Finset.mem_sdiff.mpr ⟨hnew, hstays⟩
  have hnewlt := (mem_numbers.mp hnew).2
  have halt := (mem_numbers.mp ha).2
  obtain ⟨r, hr⟩ := hsome
  have hrnew := hlow r hr new hnewStays
  have hagernew := age_lt_of_evicted hr hnewStays
  -- `r` is above the counter, or it would be met after `new`
  have hrabove : start ≤ r := by
    by_contra hlt
    rw [Nat.not_le] at hlt
    by_cases haR : a ∈ evicted S start k
    · have := hlow a haR new hnewStays
      rw [age_of_lt hstart hlt] at hagernew
      rw [age_of_le hnewlt (by omega)] at hagernew
      omega
    · have := age_lt_of_evicted hr (Finset.mem_sdiff.mpr ⟨ha, haR⟩)
      rw [hagea, age_of_lt hstart hlt] at this
      omega
  -- so `b`, which is below it, has to go, but is met last
  have hbR : b ∈ evicted S start k := by
    by_contra hbR
    have := hlow r hr b (Finset.mem_sdiff.mpr ⟨hb, hbR⟩)
    omega
  have hagebnew := age_lt_of_evicted hbR hnewStays
  rw [hageb, age_of_le hnewlt (by omega)] at hagebnew
  omega

/-- **What goes is lowest**, below the number `new` and all foreign names, iff the
counter is on one side of the numbers and there are as many numbers below `new`
and each foreign name as have to go. -/
theorem evicted_lowest_iff (hstart : start < 2 ^ 64) {new : Nat} (hnew : new ∈ numbers S)
    (hsome : (evicted S start k).Nonempty) {κ : Type} {F : Finset κ} {number : κ → Option Nat} :
    (new ∉ evicted S start k ∧ ∀ n ∈ evicted S start k,
        (∀ c ∈ numbers S \ evicted S start k, n < c) ∧ ∀ f ∈ F, ∃ m, number f = some m ∧ n < m) ↔
      OneSided S start ∧
        (evicted S start k).card ≤ ((numbers S).filter (· < new)).card ∧
        ∀ f ∈ F, ∃ m, number f = some m ∧
          (evicted S start k).card ≤ ((numbers S).filter (· < m)).card := by
  constructor
  · rintro ⟨hstays, hlow⟩
    have hnewStays : new ∈ numbers S \ evicted S start k := Finset.mem_sdiff.mpr ⟨hnew, hstays⟩
    refine ⟨oneSided_of_lowest hstart hnew hstays hsome fun n hn => (hlow n hn).1, ?_, ?_⟩
    · refine Finset.card_le_card fun n hn => ?_
      exact Finset.mem_filter.mpr ⟨(mem_evicted.mp hn).1, (hlow n hn).1 new hnewStays⟩
    · intro f hf
      obtain ⟨r, hr⟩ := hsome
      obtain ⟨m, hm, -⟩ := (hlow r hr).2 f hf
      refine ⟨m, hm, Finset.card_le_card fun n hn => ?_⟩
      obtain ⟨m', hm', hlt⟩ := (hlow n hn).2 f hf
      rw [hm] at hm'
      exact Finset.mem_filter.mpr ⟨(mem_evicted.mp hn).1, Option.some.inj hm' ▸ hlt⟩
  · rintro ⟨hside, hroom, hforeign⟩
    -- a number not above some `n` that goes has fewer numbers below it than go
    have hfew : ∀ n ∈ evicted S start k, ∀ m, m ≤ n →
        ((numbers S).filter (· < m)).card < (evicted S start k).card := by
      intro n hn m hle
      have hn' := mem_evicted.mp hn
      refine Finset.card_lt_card ⟨fun c hc => ?_, fun hsub => ?_⟩
      · obtain ⟨hcC, hlt⟩ := Finset.mem_filter.mp hc
        refine mem_evicted.mpr ⟨hcC, Nat.lt_trans ?_ hn'.2⟩
        exact (hside.age_lt_age_iff hstart hcC hn'.1).mpr (Nat.lt_of_lt_of_le hlt hle)
      · have := (Finset.mem_filter.mp (hsub hn)).2
        omega
    refine ⟨fun hgoes => ?_, fun n hn => ⟨fun c hc => ?_, fun f hf => ?_⟩⟩
    · exact absurd (hfew new hgoes new (Nat.le_refl _)) (Nat.not_lt.mpr hroom)
    · exact (hside.age_lt_age_iff hstart (mem_evicted.mp hn).1 (Finset.mem_sdiff.mp hc).1).mp
        (age_lt_of_evicted hn hc)
    · obtain ⟨m, hm, hle⟩ := hforeign f hf
      refine ⟨m, hm, Nat.not_le.mp fun hmn => ?_⟩
      exact absurd (hfew n hn m hmn) (Nat.not_lt.mpr hle)

end SovProbe
