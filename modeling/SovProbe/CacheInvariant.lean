import SovProbe.BlindCache

/-! # The cache under any insertions

A map, a queue and a count of bytes have to stay in step while ids are inserted for the
first time or again, with shorter or longer bytes, and while the oldest are evicted.
They do: the queue lists the keys of the map in the order in which they last entered, the
count is the size of what the map holds, and an insertion evicts from the old end of the
queue, and no more than it has to.
-/

namespace SovProbe
open FifoWindow Checked

/-- A call of `cache_insert`. -/
abbrev Insertion := BlindId × List UInt8

namespace BlindCache

/-- The cache after these insertions, one after the other. -/
def insertAll (inserts : List Insertion) : Checked BlindCache :=
  inserts.foldlM (fun c i => c.cacheInsert i.1 i.2) {}

/-- These bytes are the last ones inserted for the id. -/
def Latest (inserts : List Insertion) (id : BlindId) (bytes : List UInt8) : Prop :=
  ∃ pre post, inserts = pre ++ (id, bytes) :: post ∧ ∀ i ∈ post, i.1 ≠ id

/-- The id last entered the cache at this insertion: it was not there before, and it has
been there ever since. -/
structure Entered (inserts : List Insertion) (i : Nat) (id : BlindId) : Prop where
  inserted : ∃ bytes, inserts[i]? = some (id, bytes)
  absent : ∀ c, insertAll (inserts.take i) = .ok c → id ∉ c.blindCache
  stayed : ∀ j, i < j → j ≤ inserts.length → ∀ c, insertAll (inserts.take j) = .ok c →
    id ∈ c.blindCache

/-- What the cache holds after some insertions. -/
structure Kept (inserts : List Insertion) (plain : BlindId → List UInt8) (entry : BlindId → Nat)
    (c : BlindCache) : Prop extends Holding plain c where
  budget : c.blindCacheBytes ≤ blindCacheBudget
  latest : ∀ id ∈ c.blindOrder, Latest inserts id (plain id)
  entered : ∀ id ∈ c.blindOrder, Entered inserts (entry id) id
  order : c.blindOrder.Pairwise fun id id' => entry id < entry id'

variable {inserts : List Insertion} {plain : BlindId → List UInt8} {entry : BlindId → Nat}
  {c c' : BlindCache} {id id' : BlindId} {bytes : List UInt8} {i : Nat}

theorem insertAll_concat (x : Insertion) :
    insertAll (inserts ++ [x]) = insertAll inserts >>= fun c => c.cacheInsert x.1 x.2 := by
  rw [insertAll, List.foldlM_append]
  simp only [List.foldlM_cons, List.foldlM_nil, bind_pure]
  rfl

theorem Holding.mem_cache (h : Holding plain c) : id ∈ c.blindOrder ↔ id ∈ c.blindCache := by
  rw [← AList.lookup_isSome, h.lookup]
  by_cases hmem : id ∈ c.blindOrder
  · rw [if_pos hmem]
    exact iff_of_true hmem rfl
  · rw [if_neg hmem]
    exact iff_of_false hmem Bool.false_ne_true

theorem Holding.total (h : Holding plain c) :
    c.blindCacheBytes = c.blindCache.total List.length := by
  refine h.bytes.trans (AList.total_eq_sum h.nodup (fun id => h.mem_cache) fun id v hv => ?_).symm
  rw [h.lookup] at hv
  by_cases hmem : id ∈ c.blindOrder
  · rw [if_pos hmem] at hv
    rw [size, Option.some.inj hv]
  · rw [if_neg hmem] at hv
    cases hv

/-! ## Histories -/

theorem Latest.concat (id : BlindId) (bytes : List UInt8) :
    Latest (inserts ++ [(id, bytes)]) id bytes := ⟨inserts, [], rfl, nofun⟩

theorem Latest.append (h : Latest inserts id' bytes) {x : Insertion} (hne : x.1 ≠ id') :
    Latest (inserts ++ [x]) id' bytes := by
  obtain ⟨pre, post, rfl, hpost⟩ := h
  refine ⟨pre, post ++ [x], by simp, fun i hi => ?_⟩
  rcases List.mem_append.mp hi with hold | hnew
  · exact hpost i hold
  · exact List.mem_singleton.mp hnew ▸ hne

theorem Entered.lt (h : Entered inserts i id) : i < inserts.length := by
  obtain ⟨bytes, hbytes⟩ := h.inserted
  exact (List.getElem?_eq_some_iff.mp hbytes).1

/-- An id that is still there. -/
theorem Entered.append (h : Entered inserts i id) {x : Insertion}
    (hc' : insertAll (inserts ++ [x]) = .ok c') (hmem : id ∈ c'.blindCache) :
    Entered (inserts ++ [x]) i id where
  inserted := by
    obtain ⟨bytes, hbytes⟩ := h.inserted
    exact ⟨bytes, by rw [List.getElem?_append_left h.lt, hbytes]⟩
  absent c hc := by
    rw [List.take_append_of_le_length (Nat.le_of_lt h.lt)] at hc
    exact h.absent c hc
  stayed j hij hj c hc := by
    rw [List.length_append, List.length_singleton] at hj
    rcases Nat.lt_or_ge inserts.length j with hlast | hbefore
    · rw [List.take_of_length_le (by simp; omega), hc'] at hc
      exact Except.ok.inj hc ▸ hmem
    · rw [List.take_append_of_le_length hbefore] at hc
      exact h.stayed j hij hbefore c hc

/-- An id that was not there. -/
theorem Entered.new (hc : insertAll inserts = .ok c) (hnot : id ∉ c.blindCache)
    (hc' : insertAll (inserts ++ [(id, bytes)]) = .ok c') (hmem : id ∈ c'.blindCache) :
    Entered (inserts ++ [(id, bytes)]) inserts.length id where
  inserted := ⟨bytes, by rw [List.getElem?_concat_length]⟩
  absent c₀ hc₀ := by
    rw [List.take_left, hc] at hc₀
    exact Except.ok.inj hc₀ ▸ hnot
  stayed j hij hj c₀ hc₀ := by
    rw [List.take_of_length_le (by simp; omega), hc'] at hc₀
    exact Except.ok.inj hc₀ ▸ hmem

theorem Kept.new : Kept [] plain entry {} where
  lookup _ := rfl
  bytes := rfl
  nodup := List.nodup_nil
  budget := Nat.zero_le _
  latest := nofun
  entered := nofun
  order := List.Pairwise.nil

/-- The part of the queue an insertion leaves is its new end, and the next entry does not
fit. -/
theorem evicted_of_window {w : BlindId → Nat} {order kept : List BlindId}
    (h : kept.reverse = window w blindCacheBudget order.reverse) :
    ∃ evicted, order = evicted ++ kept ∧ ∀ older id, evicted = older ++ [id] →
      blindCacheBudget < w id + weight w kept := by
  obtain ⟨rest, hrest⟩ := h ▸ window_prefix w blindCacheBudget order.reverse
  have horder : order = rest.reverse ++ kept := by
    have hreverse := congrArg List.reverse hrest
    rw [List.reverse_append, List.reverse_reverse, List.reverse_reverse] at hreverse
    exact hreverse.symm
  refine ⟨rest.reverse, horder, fun older id holder => ?_⟩
  have hnext : window w blindCacheBudget order.reverse ++ [id] <+: order.reverse := by
    refine ⟨older.reverse, ?_⟩
    rw [← h, horder, holder, List.reverse_append, List.reverse_append, List.append_assoc]
    rfl
  have hover := window_maximal hnext
  rwa [← h, weight_reverse, Nat.add_comm] at hover

/-- An id that is inserted is in the queue, in the order of entering. -/
theorem Kept.admitted_order (h : Kept inserts plain entry c) (id : BlindId) :
    ∃ entry' : BlindId → Nat, (c.admitted id).Pairwise (fun x y => entry' x < entry' y) ∧
      (id ∉ c.blindOrder → entry' id = inserts.length) ∧
      ∀ x ∈ c.blindOrder, entry' x = entry x := by
  unfold admitted
  by_cases hmem : id ∈ c.blindOrder
  · rw [if_pos hmem]
    exact ⟨entry, h.order, fun hnot => absurd hmem hnot, fun _ _ => rfl⟩
  · have hold : ∀ x ∈ c.blindOrder, Function.update entry id inserts.length x = entry x := by
      intro x hx
      have hne : x ≠ id := by
        rintro rfl
        exact hmem hx
      exact Function.update_of_ne hne _ _
    rw [if_neg hmem]
    refine ⟨Function.update entry id inserts.length, ?_, fun _ => Function.update_self _ _ _, hold⟩
    refine List.pairwise_append.mpr ⟨?_, List.pairwise_singleton _ _, fun x hx y hy => ?_⟩
    · refine h.order.imp_of_mem fun hx hy hlt => ?_
      rwa [hold _ hx, hold _ hy]
    · rw [List.mem_singleton.mp hy, hold x hx, Function.update_self]
      exact (h.entered x hx).lt

theorem mem_admitted : id' ∈ c.admitted id ↔ id' = id ∨ id' ∈ c.blindOrder := by
  unfold admitted
  by_cases hmem : id ∈ c.blindOrder
  · rw [if_pos hmem]
    refine ⟨Or.inr, ?_⟩
    rintro (rfl | hold)
    · exact hmem
    · exact hold
  · rw [if_neg hmem, List.mem_append, List.mem_singleton, or_comm]

/-- **One insertion** succeeds; what it evicts is the old end of the queue, and with the
last entry evicted the rest would not fit. -/
theorem Kept.insert (h : Kept inserts plain entry c) (hc : insertAll inserts = .ok c)
    (id : BlindId) (bytes : List UInt8) :
    ∃ c' evicted entry', insertAll (inserts ++ [(id, bytes)]) = .ok c' ∧
      c.admitted id = evicted ++ c'.blindOrder ∧
      (∀ older id', evicted = older ++ [id'] →
        blindCacheBudget < (Function.update plain id bytes id').length + c'.blindCacheBytes) ∧
      Kept (inserts ++ [(id, bytes)]) (Function.update plain id bytes) entry' c' := by
  obtain ⟨c', hc', -, hholding, hwindow⟩ := h.toHolding.cacheInsert id bytes
  obtain ⟨evicted, hsplit, hover⟩ := evicted_of_window hwindow
  obtain ⟨entry', horder, hnew, hold⟩ := h.admitted_order id
  have hrun : insertAll (inserts ++ [(id, bytes)]) = .ok c' := by
    rw [insertAll_concat, hc, ok_bind]
    exact hc'
  have hkept : ∀ x ∈ c'.blindOrder, x = id ∨ x ∈ c.blindOrder := fun x hx =>
    mem_admitted.mp (hsplit ▸ List.mem_append_right _ hx)
  rw [← hholding.bytes] at hover
  refine ⟨c', evicted, entry', hrun, hsplit, hover,
    ⟨hholding, ?_, fun x hx => ?_, fun x hx => ?_, ?_⟩⟩
  · rw [hholding.bytes, ← weight_reverse, hwindow]
    exact weight_window_le
  · by_cases heq : x = id
    · rw [heq, Function.update_self]
      exact Latest.concat id bytes
    · rw [Function.update_of_ne heq]
      exact (h.latest x ((hkept x hx).resolve_left heq)).append (Ne.symm heq)
  · have hmem := hholding.mem_cache.mp hx
    by_cases hbefore : x ∈ c.blindOrder
    · rw [hold x hbefore]
      exact (h.entered x hbefore).append hrun hmem
    · obtain rfl := (hkept x hx).resolve_right hbefore
      rw [hnew hbefore]
      exact Entered.new hc (mt h.toHolding.mem_cache.mpr hbefore) hrun hmem
  · rw [hsplit] at horder
    exact (List.pairwise_append.mp horder).2.1

/-- **What a run of insertions leaves.** -/
theorem exists_kept (inserts : List Insertion) :
    ∃ c plain entry, insertAll inserts = .ok c ∧ Kept inserts plain entry c := by
  induction inserts using List.reverseRecOn with
  | nil => exact ⟨{}, fun _ => [], fun _ => 0, rfl, Kept.new⟩
  | append_singleton inserts x ih =>
    obtain ⟨c, plain, entry, hc, hkept⟩ := ih
    obtain ⟨c', -, entry', hc', -, -, hkept'⟩ := hkept.insert hc x.1 x.2
    exact ⟨c', _, entry', hc', hkept'⟩

/-- **The invariant of the cache**, after any insertions of any bytes for any ids.  They
return, so no subtraction underflows.  The queue lists each key of the map once and
nothing else, the count is the size of the values and within the budget, and a value that
is there is the last one inserted for its key.  The queue is in the order in which its
ids last entered the cache; what the next insertion evicts is the old end of the queue
with the inserted id, and it ends where one more entry would not have fitted. -/
theorem cache_invariant (inserts : List Insertion) :
    ∃ c, insertAll inserts = .ok c ∧
      c.blindOrder.Nodup ∧ (∀ id, id ∈ c.blindOrder ↔ id ∈ c.blindCache) ∧
      c.blindCacheBytes = c.blindCache.total List.length ∧ c.blindCacheBytes ≤ blindCacheBudget ∧
      (∀ id bytes, c.blindCache.lookup id = some bytes → Latest inserts id bytes) ∧
      (∃ entry : BlindId → Nat, (∀ id ∈ c.blindOrder, Entered inserts (entry id) id) ∧
        c.blindOrder.Pairwise fun id id' => entry id < entry id') ∧
      ∀ id bytes, ∃ c' evicted, c.cacheInsert id bytes = .ok c' ∧
        c.admitted id = evicted ++ c'.blindOrder ∧
        ∀ older id', evicted = older ++ [id'] → ∃ value,
          (c.blindCache.insert id bytes).lookup id' = some value ∧
          blindCacheBudget < value.length + c'.blindCacheBytes := by
  obtain ⟨c, plain, entry, hc, hkept⟩ := exists_kept inserts
  refine ⟨c, hc, hkept.nodup, fun id => hkept.toHolding.mem_cache, hkept.toHolding.total,
    hkept.budget, fun id bytes hlookup => ?_, ⟨entry, hkept.entered, hkept.order⟩,
    fun id bytes => ?_⟩
  · rw [hkept.lookup] at hlookup
    by_cases hmem : id ∈ c.blindOrder
    · rw [if_pos hmem] at hlookup
      exact Option.some.inj hlookup ▸ hkept.latest id hmem
    · rw [if_neg hmem] at hlookup
      cases hlookup
  · obtain ⟨c', evicted, -, hc', hsplit, hover, -⟩ := hkept.insert hc id bytes
    rw [insertAll_concat, hc, ok_bind] at hc'
    refine ⟨c', evicted, hc', hsplit, fun older id' holder => ⟨_, ?_, hover older id' holder⟩⟩
    have hmem : id' ∈ c.admitted id := by
      rw [hsplit, holder]
      exact List.mem_append_left _ (List.mem_append_right _ List.mem_cons_self)
    by_cases heq : id' = id
    · rw [heq, AList.lookup_insert, Function.update_self]
    · rw [AList.lookup_insert_ne heq, Function.update_of_ne heq, hkept.lookup,
        if_pos ((mem_admitted.mp hmem).resolve_left heq)]

end BlindCache
end SovProbe
