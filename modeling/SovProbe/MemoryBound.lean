import SovProbe.PendingAccounting

/-! # The memory of the receiver

The eviction loop goes by the accounts, which may count more than waits but never less.
So when it ends within the budget, what waits is within the budget; and when it ends
because there is nothing left to evict, nothing waits.  Every call leaves it so, and the
loop ends whatever the accounts say, since each iteration takes a chunk away.
-/

namespace SovProbe
open Process

namespace Reassembler
variable {r r' : Reassembler}

/-- **What waits is within the budget** where the loop has nothing to do. -/
theorem Within.heldBytes_le (h : r.Within) (hcounted : r.Counted) :
    r.heldBytes ≤ pendingBudget := by
  rcases h with hbudget | hidle
  · refine Nat.le_trans (AList.total_le_total fun key buf hlookup => ?_) hbudget
    exact (hcounted key buf hlookup).held
  · have hnone : r.heldBytes ≤ r.segments.total fun _ => 0 := by
      refine AList.total_le_total fun key buf hlookup => ?_
      rw [SegmentBuf.heldBytes, hidle key buf hlookup, AList.total_empty]
    have hzero : (r.segments.total fun _ => 0) = 0 := List.sum_eq_zero fun n hn => by
      obtain ⟨e, -, rfl⟩ := List.mem_map.mp hn
      rfl
    omega

theorem SameContent.pendingTotal (h : SameContent r r') : r'.pendingTotal = r.pendingTotal := by
  refine AList.total_congr fun key => ?_
  have hbytes := congrArg
    (Option.map fun c : Nat × (Nat → Option (List UInt8)) × Nat => c.2.2) (h key)
  rwa [Option.map_map, Option.map_map] at hbytes

theorem Within.sameContent (h : r.Within) (hsame : SameContent r r') : r'.Within := by
  rcases h with hbudget | hidle
  · exact Or.inl (hsame.pendingTotal ▸ hbudget)
  · refine Or.inr fun key buf hlookup => AList.eq_empty_of_forall_notMem fun o => ?_
    obtain ⟨buf₀, hlookup₀, hcontent⟩ := hsame.symm.lookup hlookup
    have hnone : buf₀.pending.lookup o = buf.pending.lookup o :=
      congrFun (congrArg (fun c => c.2.1) hcontent) o
    rw [hidle key buf₀ hlookup₀, AList.lookup_empty] at hnone
    exact AList.lookup_eq_none.mp hnone.symm

theorem Within.erase (h : r.Within) (key : SegmentKey) :
    Within { r with segments := r.segments.erase key } := by
  rcases h with hbudget | hidle
  · exact Or.inl (Nat.le_trans AList.total_erase_le hbudget)
  · refine Or.inr fun key' buf hlookup => ?_
    exact hidle key' buf (AList.lookup_erase_eq_some.mp hlookup).2

theorem Within.new : Within .new := Or.inr nofun

end Reassembler

namespace Call
open Reassembler

/-- **One call** returns, and leaves the loop nothing to do. -/
theorem step_within {s : FileSystem × Reassembler} (crc32 : List UInt8 → UInt32)
    (h : s.2.Counted ∧ s.2.Within) (c : Call) :
    ∃ t, c.step crc32 s = some t ∧ t.2.Counted ∧ t.2.Within := by
  cases c with
  | placeRaw env key offset plaintext =>
    obtain ⟨t, hstep, -, hcounted, hwithin, -⟩ :=
      (h.1.holds_placeRaw env key offset plaintext s.1).state?
    exact ⟨t, hstep, hcounted, hwithin⟩
  | sealFrame key sealedSize =>
    have hperform : ((sealFrame key sealedSize).perform crc32).Holds (fun _ => True)
        (.returns fun _ _ r' => SameData s.2 r') s.1 s.2 :=
      (holds_onSealFrame crc32 key sealedSize s.1 s.2).bind fun _ _ _ h => (holds_pure _).mpr h.2.2
    obtain ⟨t, hstep, -, hsame⟩ := hperform.state?
    exact ⟨t, hstep, (h.1.sameData hsame).1, h.2.sameContent hsame.content⟩
  | remove key =>
    have hremove : (removeSegment key.1 key.2).Holds (fun _ => True) _ s.1 s.2 :=
      holds_removeSegment key s.1 s.2
    obtain ⟨t, hstep, -, -, hlast⟩ := hremove.state?
    exact ⟨t, hstep, hlast ▸ h.1.erase key, hlast ▸ h.2.erase key⟩

/-- **The receiver's memory is bounded.**  Any chunks are placed, for any segments and at any
offsets, repeated or not, with seals and removals in between and whatever file operations
fail.  Every call returns, so that its loops end and no subtraction from an account
underflows, and after it the chunks that wait in all segments hold at most the budget. -/
theorem held_within_budget (crc32 : List UInt8 → UInt32) (start : FileSystem)
    (calls : List Call) : ∃ s, Transition.run (step crc32) (start, .new) calls = some s ∧
      s.2.heldBytes ≤ pendingBudget := by
  have hnew : (start, Reassembler.new).2.Counted ∧ (start, Reassembler.new).2.Within :=
    ⟨Counted.new, Within.new⟩
  have hstep : ∀ (s : FileSystem × Reassembler) (c : Call), s.2.Counted ∧ s.2.Within →
      ∃ t, step crc32 s c = some t ∧ t.2.Counted ∧ t.2.Within :=
    fun s c hs => step_within crc32 hs c
  obtain ⟨s, hs, hcounted, hwithin⟩ := Transition.exists_run hstep calls hnew
  exact ⟨s, hs, hwithin.heldBytes_le hcounted⟩

end Call
end SovProbe
