import Mathlib.Data.List.AList
import Mathlib.Data.List.MinMax
import Mathlib.Algebra.Ring.Nat
import Mathlib.Algebra.BigOperators.Group.List.Basic
import Mathlib.Algebra.Order.BigOperators.Group.List
import Mathlib.Algebra.Order.Group.Nat

/-! # Maps with a least key and with weights

Two things a map of finitely many keys is asked for: its first entry, which is the
one with the least key, and the total weight of its values.  Removing a key takes
its weight off the total, and inserting one replaces the weight of what it held.

A value can also be changed where it is (`adjust`), which leaves the order of the
entries alone.
-/

namespace List
variable {α β : Type} [LinearOrder β] {f : α → β} {l : List α} {a m : α}

/-- Of the elements with the least value, `argmin` is the first. -/
theorem argmin_first {R : α → α → Prop} (h : l.Pairwise R) (hm : m ∈ l.argmin f) (ha : a ∈ l)
    (hle : f a ≤ f m) : a = m ∨ R m a := by
  induction l with
  | nil => cases ha
  | cons b l ih =>
    obtain ⟨hb, hl⟩ := pairwise_cons.mp h
    rw [argmin_cons] at hm
    cases hrest : l.argmin f with
    | none =>
      rw [hrest] at hm
      obtain rfl : b = m := Option.some.inj hm
      rw [argmin_eq_none.mp hrest] at ha
      exact Or.inl (mem_singleton.mp ha)
    | some c =>
      rw [hrest] at hm
      dsimp only at hm
      by_cases hlt : f c < f b
      · rw [if_pos hlt] at hm
        obtain rfl : c = m := Option.some.inj hm
        rcases mem_cons.mp ha with rfl | hmem
        · exact absurd hle (not_le_of_gt hlt)
        · exact ih hl hrest hmem
      · rw [if_neg hlt] at hm
        obtain rfl : b = m := Option.some.inj hm
        exact (mem_cons.mp ha).imp_right (hb a)

/-- An element behind one with as small a value is not it. -/
theorem argmin_ne_of_sublist [DecidableEq α] (h : l.Nodup) (hpair : [a, m] <+ l)
    (hle : f a ≤ f m) : l.argmin f ≠ some m := by
  intro hm
  obtain ⟨l₁, l₂, rfl, ha, hrest⟩ := cons_sublist_iff.mp hpair
  have hm₂ : m ∈ l₂ := singleton_sublist.mp hrest
  have hm₁ : m ∉ l₁ := fun hmem => (nodup_append.mp h).2.2 m hmem m hm₂ rfl
  have hindex := index_of_argmin hm (mem_append_left l₂ ha) hle
  rw [idxOf_append_of_mem ha, idxOf_append_of_notMem hm₁] at hindex
  have hlt := idxOf_lt_length_of_mem ha
  omega

end List

namespace AList
variable {κ ν : Type}

/-- The entry with the least key. -/
def first? [LinearOrder κ] (m : AList (fun _ : κ => ν)) : Option (κ × ν) :=
  (m.entries.argmin Sigma.fst).map fun e => (e.1, e.2)

/-- The weights of the values, added up. -/
def total (w : ν → Nat) (m : AList (fun _ : κ => ν)) : Nat := (m.entries.map fun e => w e.2).sum

@[simp] theorem total_empty (w : ν → Nat) : (∅ : AList (fun _ : κ => ν)).total w = 0 := rfl

section
variable [LinearOrder κ] {m : AList (fun _ : κ => ν)} {k : κ} {v : ν}

/-- **The first entry** is the one with the least key. -/
theorem first?_eq_some : m.first? = some (k, v) ↔ m.lookup k = some v ∧ ∀ k' ∈ m, k ≤ k' := by
  have hmem : ∀ e : Sigma fun _ : κ => ν, e ∈ m.entries ↔ m.lookup e.1 = some e.2 :=
    fun e => (mem_lookup_iff (s := m)).symm
  constructor
  · intro h
    obtain ⟨e, he, heq⟩ := Option.map_eq_some_iff.mp h
    obtain ⟨rfl, rfl⟩ := Prod.mk.inj heq
    refine ⟨(hmem e).mp (List.argmin_mem he), fun k' hk' => ?_⟩
    obtain ⟨v', hv'⟩ := Option.isSome_iff_exists.mp (lookup_isSome.mpr hk')
    exact List.le_of_mem_argmin ((hmem ⟨k', v'⟩).mpr hv') he
  · rintro ⟨hlookup, hleast⟩
    cases hfirst : m.entries.argmin Sigma.fst with
    | none =>
      have hentry := (hmem ⟨k, v⟩).mpr hlookup
      rw [List.argmin_eq_none.mp hfirst] at hentry
      cases hentry
    | some e =>
      have he := List.argmin_mem hfirst
      have hle := List.le_of_mem_argmin ((hmem ⟨k, v⟩).mpr hlookup) hfirst
      have hge := hleast e.1 (lookup_isSome.mp (by rw [(hmem e).mp he]; rfl))
      have hkey : e.1 = k := le_antisymm hle hge
      have hvalue := (hmem e).mp he
      rw [hkey, hlookup] at hvalue
      rw [first?, hfirst, Option.map_some, hkey, Option.some.inj hvalue]

theorem first?_eq_none : m.first? = none ↔ ∀ k, k ∉ m := by
  rw [first?, Option.map_eq_none_iff, List.argmin_eq_none]
  constructor
  · intro h k hk
    rw [mem_keys, keys, h] at hk
    cases hk
  · intro h
    refine List.eq_nil_iff_forall_not_mem.mpr fun e he => h e.1 ?_
    exact mem_keys.mpr (List.mem_map_of_mem he)

theorem eq_empty_of_forall_notMem (h : ∀ k, k ∉ m) : m = ∅ :=
  ext (List.argmin_eq_none.mp (Option.map_eq_none_iff.mp (first?_eq_none.mpr h)))

end

section
variable [DecidableEq κ] {m : AList (fun _ : κ => ν)} {k k' : κ} {v v' : ν} {w : ν → Nat}

/-- What is found in a map into which a value was put. -/
theorem lookup_insert_eq_some : (m.insert k v).lookup k' = some v' ↔
    k' = k ∧ v = v' ∨ k' ≠ k ∧ m.lookup k' = some v' := by
  by_cases hk : k' = k
  · rw [hk, lookup_insert, Option.some.injEq]
    simp only [true_and, ne_eq, not_true_eq_false, false_and, or_false]
  · rw [lookup_insert_ne hk]
    simp only [hk, false_and, ne_eq, not_false_eq_true, true_and, false_or]

/-- What is found in a map from which a key was taken. -/
theorem lookup_erase_eq_some : (m.erase k).lookup k' = some v ↔ k' ≠ k ∧ m.lookup k' = some v := by
  by_cases hk : k' = k
  · rw [hk, lookup_erase]
    simp only [reduceCtorEq, ne_eq, not_true_eq_false, false_and]
  · rw [lookup_erase_ne hk]
    simp only [ne_eq, hk, not_false_eq_true, true_and]

/-- Erasing a key takes its weight off. -/
theorem total_erase (h : m.lookup k = some v) : (m.erase k).total w + w v = m.total w := by
  have key : ∀ l : List (Sigma fun _ : κ => ν), l.dlookup k = some v →
      ((l.kerase k).map fun e => w e.2).sum + w v = (l.map fun e => w e.2).sum := by
    intro l
    induction l with
    | nil => intro hl; cases hl
    | cons e l ih =>
      intro hl
      rw [List.map_cons, List.sum_cons]
      by_cases hk : k = e.1
      · obtain ⟨k', v'⟩ := e
        obtain rfl : k = k' := hk
        rw [List.dlookup_cons_eq] at hl
        have hhead : List.kerase k (⟨k, v'⟩ :: l) = l := List.kerase_cons_eq rfl
        rw [hhead, Option.some.inj hl]
        exact Nat.add_comm _ _
      · rw [List.dlookup_cons_ne _ _ hk] at hl
        rw [List.kerase_cons_ne hk, List.map_cons, List.sum_cons, Nat.add_assoc, ih hl]
  exact key m.entries h

theorem erase_of_notMem (h : k ∉ m) : m.erase k = m :=
  ext (List.kerase_of_notMem_keys (fun hk => h (mem_keys.mpr hk)))

theorem erase_insert_self : (m.insert k v).erase k = m.erase k := by
  refine ext ?_
  show (m.insert k v).entries.kerase k = _
  rw [entries_insert]
  exact List.kerase_cons_eq rfl

/-- Inserting replaces the weight the key had. -/
theorem total_insert : (m.insert k v).total w = w v + (m.erase k).total w := by
  rw [total, total, entries_insert, List.map_cons, List.sum_cons]
  rfl

theorem total_erase_le : (m.erase k).total w ≤ m.total w := by
  by_cases h : k ∈ m
  · obtain ⟨v, hv⟩ := Option.isSome_iff_exists.mp (lookup_isSome.mpr h)
    have := total_erase (w := w) hv
    omega
  · rw [erase_of_notMem h]

/-- A total of lighter values. -/
theorem total_le_total {w' : ν → Nat} (h : ∀ k v, m.lookup k = some v → w v ≤ w' v) :
    m.total w ≤ m.total w' :=
  List.sum_le_sum fun e he => h e.1 e.2 (mem_lookup_iff.mpr he)

/-- A total depends on nothing but the weights found at the keys. -/
theorem total_congr {ν' : Type} {m' : AList (fun _ : κ => ν')} {w' : ν' → Nat}
    (h : ∀ k, (m.lookup k).map w = (m'.lookup k).map w') : m.total w = m'.total w' := by
  have hnodup : ∀ {μ : Type} (u : μ → Nat) (n : AList (fun _ : κ => μ)),
      (n.entries.map (Sigma.map id fun _ => u) : List (Sigma fun _ : κ => Nat)).NodupKeys := by
    intro μ u n
    have hkeys := n.nodupKeys
    rwa [List.NodupKeys, ← List.map₂_keys fun _ => u] at hkeys
  have hperm := List.lookup_ext (hnodup w m) (hnodup w' m') fun k n => by
    rw [List.dlookup_map₂, List.dlookup_map₂]
    exact iff_of_eq (congrArg (n ∈ ·) (h k))
  have hsum := (hperm.map Sigma.snd).sum_eq
  rwa [List.map_map, List.map_map] at hsum

/-- A total over the keys, in any order. -/
theorem total_eq_sum {u : κ → Nat} {ks : List κ} (hnodup : ks.Nodup) (hmem : ∀ k, k ∈ ks ↔ k ∈ m)
    (h : ∀ k v, m.lookup k = some v → w v = u k) : m.total w = (ks.map u).sum := by
  have hentries : (m.entries.map fun e => w e.2) = m.keys.map u := by
    rw [keys, List.keys, List.map_map]
    exact List.map_congr_left fun e he => h e.1 e.2 (mem_lookup_iff.mpr he)
  have hperm : m.keys.Perm ks := (List.perm_ext_iff_of_nodup m.keys_nodup hnodup).mpr
    fun k => mem_keys.symm.trans (hmem k).symm
  rw [total, hentries, (hperm.map u).sum_eq]

/-! ## Changing a value where it is -/

/-- The value of a key is changed; the entries stay in their order. -/
def adjust (k : κ) (f : ν → ν) (m : AList fun _ : κ => ν) : AList fun _ : κ => ν :=
  ⟨m.entries.map (.map id fun k' v => if k' = k then f v else v), m.nodupKeys.map₂ _ _⟩

variable {f : ν → ν}

theorem entries_adjust : (m.adjust k f).entries =
    m.entries.map fun e => ⟨e.1, if e.1 = k then f e.2 else e.2⟩ := rfl

theorem lookup_adjust : (m.adjust k f).lookup k' =
    (m.lookup k').map fun v => if k' = k then f v else v :=
  List.dlookup_map₂ k'

theorem adjust_of_notMem (h : k ∉ m) : m.adjust k f = m := by
  refine ext ((List.map_congr_left fun e he => ?_).trans (List.map_id m.entries))
  have hk : e.1 ≠ k := by
    rintro rfl
    exact h (mem_keys.mpr (List.mem_map_of_mem he))
  exact congrArg (Sigma.mk e.1) (if_neg hk)

theorem erase_adjust : (m.adjust k f).erase k' = (m.erase k').adjust k f := by
  have hkerase : ∀ l : List (Sigma fun _ : κ => ν),
      (l.map fun e => ⟨e.1, if e.1 = k then f e.2 else e.2⟩ :
        List (Sigma fun _ : κ => ν)).kerase k' =
          (l.kerase k').map fun e => ⟨e.1, if e.1 = k then f e.2 else e.2⟩ := by
    intro l
    induction l with
    | nil => rfl
    | cons e l ih =>
      rw [List.map_cons]
      by_cases hk : k' = e.1
      · rw [List.kerase_cons_eq hk]
        exact List.kerase_cons_eq hk
      · rw [List.kerase_cons_ne hk, List.map_cons, ← ih]
        exact List.kerase_cons_ne hk
  exact ext (hkerase m.entries)

/-- A changed value is put in. -/
theorem adjust_insert_self : (m.insert k v).adjust k f = m.insert k (f v) := by
  have hrest : (m.erase k).adjust k f = m.erase k :=
    adjust_of_notMem fun hk => (mem_erase.mp hk).1 rfl
  refine ext ?_
  rw [entries_adjust, entries_insert, List.map_cons, if_pos rfl, entries_insert]
  exact congrArg (_ :: ·) (congrArg entries hrest)

/-- One value is changed, and another one put in. -/
theorem adjust_insert_of_ne (hk : k' ≠ k) :
    (m.insert k' v).adjust k f = (m.adjust k f).insert k' v := by
  refine ext ?_
  rw [entries_adjust, entries_insert, List.map_cons, if_neg hk, entries_insert]
  exact congrArg (_ :: ·) (congrArg entries erase_adjust).symm

/-- A value that replaces another one may as well replace the changed one. -/
theorem insert_adjust : (m.adjust k f).insert k v = m.insert k v := by
  have hrest : (m.adjust k f).erase k = m.erase k :=
    erase_adjust.trans (adjust_of_notMem fun hk => (mem_erase.mp hk).1 rfl)
  refine ext ?_
  rw [entries_insert, entries_insert]
  exact congrArg (_ :: ·) (congrArg entries hrest)

end
end AList
