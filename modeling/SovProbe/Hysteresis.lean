import SovProbe.Breaker
import Mathlib.Algebra.Ring.Nat

/-! # The thresholds of the breaker in machine arithmetic

Both layers of the breaker compare a reading with a limit and with a lower
threshold at which they recover, and both compute these bounds in the width of
the configuration's own fields: `u64` for the memory limit, `u8` for the host's
load, `usize` for the percentage of the queue.  `validate` bounds none of them but
the watermark, and that from above only.

**The queue.**  `watermark_iff`: the check returns, degrades at the watermark and
recovers on an empty queue iff the capacity is neither zero nor too large for a
percentage, and half the watermark is not zero.

**The sampler.**  `sampler_iff`: the ticks follow the thresholds as the integers
they are meant to be iff the products by eight fit, which for the host's load
means a limit of at most 31 percent.
-/

namespace SovProbe
open Checked

namespace Breaker
variable (cfg : Config)

/-! ## The queue -/

/-- A sequence of checks at the given queue lengths. -/
def checks (degraded : Bool) (fills : List UInt64) : Checked Bool :=
  fills.foldlM (fun d fill => step cfg d (.hotPathCheck fill)) degraded

theorem checks_concat (d : Bool) (fills : List UInt64) (fill : UInt64) :
    checks cfg d (fills ++ [fill]) =
      checks cfg d fills >>= fun d => step cfg d (.hotPathCheck fill) := by
  rw [checks, List.foldlM_append]
  simp only [List.foldlM_cons, List.foldlM_nil, bind_pure]
  rfl

/-- What the check is for, at queue lengths up to the capacity: it returns, a filled
queue at or above the watermark leaves the flag on, and an empty one leaves it off. -/
def WatermarkSound (degraded : Bool) : Prop :=
  ∀ fills fill, (∀ f ∈ fills ++ [fill], f ≤ cfg.queueCapacity) →
    ∃ d, checks cfg degraded (fills ++ [fill]) = .ok d ∧
      (0 < fill → cfg.queueHighWatermark.toNat * cfg.queueCapacity.toNat ≤ fill.toNat * 100 →
        d = true) ∧
      (fill = 0 → d = false)

/-- The capacities and watermarks the check can work with. -/
def WatermarkUsable : Prop :=
  cfg.queueCapacity ≠ 0 ∧ 2 ≤ cfg.queueHighWatermark ∧ cfg.queueCapacity.toNat * 100 < 2 ^ 64

theorem fillPct_toNat (fill capacity : UInt64) :
    (fillPct fill capacity).toNat = fill.toNat * 100 % 2 ^ 64 / capacity.toNat := by
  rw [fillPct, UInt64.toNat_div, UInt64.toNat_mul]
  rfl

theorem trips_hotPathCheck (fill : UInt64) :
    trips cfg (.hotPathCheck fill) = true ↔
      cfg.queueHighWatermark.toNat ≤ fill.toNat * 100 % 2 ^ 64 / cfg.queueCapacity.toNat := by
  rw [trips, slowTrips, Bool.or_false, hotTrips, decide_eq_true_eq, ge_iff_le,
    UInt64.le_iff_toNat_le, fillPct_toNat, UInt8.toNat_toUInt64]

theorem clears_hotPathCheck (fill : UInt64) :
    clears cfg (.hotPathCheck fill) = true ↔
      fill.toNat * 100 % 2 ^ 64 / cfg.queueCapacity.toNat < cfg.queueHighWatermark.toNat / 2 := by
  rw [clears, slowQuiet, Bool.or_false, hotRecovers, decide_eq_true_eq, UInt64.lt_iff_toNat_lt,
    fillPct_toNat, UInt64.toNat_div, UInt8.toNat_toUInt64]
  rfl

/-- With a capacity that is not zero a check returns, and is a step of the latch. -/
theorem hotPathCheck_returns (hcapacity : cfg.queueCapacity ≠ 0) (d : Bool) (fill : UInt64) :
    step cfg d (.hotPathCheck fill) =
      .ok (Latch.step (trips cfg) (clears cfg) d (.hotPathCheck fill)) := by
  have hreturns : ∃ d', step cfg d (.hotPathCheck fill) = .ok d' := by
    rw [step, hotPathCheck, div_of_ne hcapacity, ok_bind]
    split
    · exact ⟨true, rfl⟩
    · split
      · exact ⟨false, rfl⟩
      · exact ⟨d, rfl⟩
  obtain ⟨d', hd'⟩ := hreturns
  rw [hd', step_eq cfg hd']

theorem checks_return (hcapacity : cfg.queueCapacity ≠ 0) (d : Bool) (fills : List UInt64) :
    ∃ d', checks cfg d fills = .ok d' := by
  induction fills using List.reverseRec with
  | nil => exact ⟨d, rfl⟩
  | append_singleton fills fill ih =>
    obtain ⟨d', hd'⟩ := ih
    rw [checks_concat, hd', ok_bind, hotPathCheck_returns cfg hcapacity]
    exact ⟨_, rfl⟩

/-- One more check, where the capacity is not zero. -/
theorem checks_concat_eq (hcapacity : cfg.queueCapacity ≠ 0) {d d' : Bool} {fills : List UInt64}
    (h : checks cfg d fills = .ok d') (fill : UInt64) :
    checks cfg d (fills ++ [fill]) =
      .ok (Latch.step (trips cfg) (clears cfg) d' (.hotPathCheck fill)) := by
  rw [checks_concat, h, ok_bind, hotPathCheck_returns cfg hcapacity]

theorem watermarkSound_of_usable (h : WatermarkUsable cfg) (d : Bool) : WatermarkSound cfg d := by
  obtain ⟨hcapacity, hwatermark, hfits⟩ := h
  intro fills fill hle
  obtain ⟨d', hd'⟩ := checks_return cfg hcapacity d fills
  refine ⟨_, checks_concat_eq cfg hcapacity hd' fill, ?_, ?_⟩
  · intro hpos hreached
    apply Latch.step_of_on
    have hfill : fill.toNat ≤ cfg.queueCapacity.toNat :=
      UInt64.le_iff_toNat_le.mp (hle fill (by simp))
    have hcap : 0 < cfg.queueCapacity.toNat := by
      apply Nat.pos_of_ne_zero
      intro hzero
      exact hcapacity (UInt64.toNat_inj.mp hzero)
    rw [trips_hotPathCheck, Nat.mod_eq_of_lt (by omega), Nat.le_div_iff_mul_le hcap]
    exact hreached
  · intro hempty
    have htwo : 2 ≤ cfg.queueHighWatermark.toNat := UInt8.le_iff_toNat_le.mp hwatermark
    have hzero : fill.toNat * 100 % 2 ^ 64 / cfg.queueCapacity.toNat = 0 := by
      rw [hempty]
      simp
    apply Latch.step_of_off
    · rw [trips_hotPathCheck, hzero]
      omega
    · rw [clears_hotPathCheck, hzero]
      omega

variable {cfg}

theorem capacity_ne_zero_of_sound {d : Bool} (h : WatermarkSound cfg d) :
    cfg.queueCapacity ≠ 0 := by
  intro hzero
  obtain ⟨d', hrun, -⟩ := h [] 0 (by simp)
  have hfault : step cfg d (.hotPathCheck 0) = .error .divideByZero := by
    rw [step, hotPathCheck, hzero, div_zero, error_bind]
  have hfault' : checks cfg d ([] ++ [0]) = .error .divideByZero := by
    rw [checks_concat]
    exact hfault
  rw [hfault'] at hrun
  cases hrun

/-- A watermark of 0 or 1 is reached by a full queue, and no fill is below half of it. -/
theorem two_le_watermark_of_sound {d : Bool} (h : WatermarkSound cfg d) :
    2 ≤ cfg.queueHighWatermark := by
  have hcapacity := capacity_ne_zero_of_sound h
  have hpos : 0 < cfg.queueCapacity :=
    UInt64.lt_iff_toNat_lt.mpr
      (Nat.pos_of_ne_zero fun hzero => hcapacity (UInt64.toNat_inj.mp hzero))
  apply UInt8.le_iff_toNat_le.mpr
  apply Classical.byContradiction
  intro hsmall
  have hwatermark : cfg.queueHighWatermark.toNat ≤ 1 := Nat.le_of_lt_succ (Nat.lt_of_not_le hsmall)
  obtain ⟨d₁, hfull, hon, -⟩ := h [] cfg.queueCapacity (by simp)
  have hd₁ : d₁ = true := by
    apply hon hpos
    rw [Nat.mul_comm]
    exact Nat.mul_le_mul_left _ (by omega)
  rw [List.nil_append, hd₁] at hfull
  obtain ⟨d₂, hempty, -, hoff⟩ := h [cfg.queueCapacity] 0 (by simp)
  rw [checks_concat_eq cfg hcapacity hfull] at hempty
  have hlatched : Latch.step (trips cfg) (clears cfg) true (.hotPathCheck 0) = true := by
    by_cases htrip : trips cfg (.hotPathCheck 0) = true
    · exact Latch.step_of_on htrip
    · apply Latch.step_of_neither htrip
      have hhalf : cfg.queueHighWatermark.toNat / 2 = 0 := by omega
      rw [clears_hotPathCheck, hhalf]
      exact Nat.not_lt_zero _
  rw [hlatched, hoff rfl] at hempty
  cases hempty

/-- A capacity whose hundredfold does not fit a word: there is a queue length at or
above the watermark whose percentage wraps to one below it. -/
theorem capacity_fits_of_sound (hmax : cfg.queueHighWatermark ≤ 100) {d : Bool}
    (h : WatermarkSound cfg d) : cfg.queueCapacity.toNat * 100 < 2 ^ 64 := by
  have hcapacity := capacity_ne_zero_of_sound h
  have htwo : 2 ≤ cfg.queueHighWatermark.toNat :=
    UInt8.le_iff_toNat_le.mp (two_le_watermark_of_sound h)
  have hmax' : cfg.queueHighWatermark.toNat ≤ 100 := UInt8.le_iff_toNat_le.mp hmax
  apply Classical.byContradiction
  intro hlarge
  -- the least length whose hundredfold reaches both the watermark and the word size
  obtain ⟨reach, hreach⟩ :
      ∃ p, cfg.queueHighWatermark.toNat * cfg.queueCapacity.toNat = p := ⟨_, rfl⟩
  have hreach_le : reach ≤ 100 * cfg.queueCapacity.toNat := by
    rw [← hreach]
    exact Nat.mul_le_mul_right _ hmax'
  have hcap_le : cfg.queueCapacity.toNat ≤ reach := by
    rw [← hreach]
    exact Nat.le_mul_of_pos_left _ (by omega)
  obtain ⟨n, hn, hnlow, hnword, hntight⟩ : ∃ n, n ≤ cfg.queueCapacity.toNat ∧ reach ≤ n * 100 ∧
      2 ^ 64 ≤ n * 100 ∧ (n * 100 < reach + 100 ∨ n * 100 < 2 ^ 64 + 100) := by
    refine ⟨(max reach (2 ^ 64) + 99) / 100, ?_, ?_, ?_, ?_⟩ <;> omega
  have hnlt : n < 2 ^ 64 := Nat.lt_of_le_of_lt hn cfg.queueCapacity.toNat_lt
  have hvalue : (UInt64.ofNat n).toNat = n := by
    rw [UInt64.toNat_ofNat', Nat.mod_eq_of_lt hnlt]
  have hle : UInt64.ofNat n ≤ cfg.queueCapacity := by
    rw [UInt64.le_iff_toNat_le, hvalue]
    exact hn
  have hmiss : ¬ trips cfg (.hotPathCheck (UInt64.ofNat n)) = true := by
    rw [trips_hotPathCheck, hvalue, Nat.not_le]
    apply Nat.div_lt_of_lt_mul
    rw [Nat.mul_comm cfg.queueCapacity.toNat, hreach]
    omega
  obtain ⟨d₁, hempty, -, hoff⟩ := h [] 0 (by simp)
  rw [List.nil_append, hoff rfl] at hempty
  obtain ⟨d₂, hfilled, hon, -⟩ := h [0] (UInt64.ofNat n) (by simpa using hle)
  rw [checks_concat_eq cfg hcapacity hempty] at hfilled
  have hmissed : Latch.step (trips cfg) (clears cfg) false (.hotPathCheck (UInt64.ofNat n)) =
      false := by
    by_cases hclear : clears cfg (.hotPathCheck (UInt64.ofNat n)) = true
    · exact Latch.step_of_off hmiss hclear
    · exact Latch.step_of_neither hmiss hclear
  have hpos : 0 < UInt64.ofNat n := by
    rw [UInt64.lt_iff_toNat_lt, hvalue]
    exact Nat.pos_of_ne_zero fun hzero => by omega
  rw [hmissed, hon hpos (by rw [hreach, hvalue]; exact hnlow)] at hfilled
  cases hfilled

/-- **Exactly which accepted configurations the watermark check works for**, whatever
the flag was before. -/
theorem watermark_iff {cfg : Config} (hvalid : cfg.validate = .ok ()) (d : Bool) :
    WatermarkSound cfg d ↔ WatermarkUsable cfg := by
  have hmax : cfg.queueHighWatermark ≤ 100 := (Config.validate_eq_ok.mp hvalid).2.2.2.2
  constructor
  · intro h
    exact ⟨capacity_ne_zero_of_sound h, two_le_watermark_of_sound h, capacity_fits_of_sound hmax h⟩
  · intro h
    exact watermarkSound_of_usable cfg h d

theorem watermark_iff_default :
    WatermarkSound defaultConfig false ↔ WatermarkUsable defaultConfig :=
  watermark_iff defaultConfig_valid false

/-- A queue of capacity zero is accepted, and the first check divides by it. -/
theorem watermark_divides_by_zero :
    ¬ ∀ cfg : Config, cfg.validate = .ok () → WatermarkSound cfg false := by
  intro h
  have hvalid : Config.validate { defaultConfig with queueCapacity := 0 } = .ok () := by
    rw [Config.validate_eq_ok]
    decide
  obtain ⟨d, hrun, -⟩ := h _ hvalid [] 0 (by simp)
  have hfault : checks { defaultConfig with queueCapacity := 0 } false ([] ++ [0]) =
      .error .divideByZero := rfl
  rw [hfault] at hrun
  cases hrun

/-! ## The sampler -/

/-- What a tick reads when both readings succeed: the resident pages, whose size in
bytes is a `u64`, and the load in percent. -/
structure Reading where
  pages : UInt64
  load : UInt8
  rss_fits : pages.toNat * 4096 < 2 ^ 64

/-- The resident memory in bytes. -/
def Reading.rss (r : Reading) : Nat := r.pages.toNat * 4096

/-- The sampler tick that reads this. -/
def Reading.event (r : Reading) : Event := .samplerTick (some r.pages) (some r.load)

variable (cfg : Config)

/-- The flag after ticks with the given readings. -/
def ticks (degraded : Bool) (rs : List Reading) : Bool :=
  rs.foldl (fun d r => samplerTick cfg (some r.pages) (some r.load) d) degraded

/-- The memory limit in bytes, as an integer. -/
def memoryLimit : Nat := cfg.ramLimitMb.toNat * 1024 * 1024

/-- The memory or the load is above its limit. -/
def exceeds (r : Reading) : Bool :=
  r.rss > memoryLimit cfg ∨ r.load.toNat > cfg.hostCpuLimitPct.toNat

/-- The memory and the load are both at or below 80 % of their limits. -/
def rests (r : Reading) : Bool :=
  r.rss ≤ memoryLimit cfg * 8 / 10 ∧ r.load.toNat ≤ cfg.hostCpuLimitPct.toNat * 8 / 10

/-- Each tick sets the flag above a limit, clears it at rest and leaves it alone
otherwise. -/
def FollowsThresholds (degraded : Bool) : Prop :=
  ∀ rs r, ticks cfg degraded (rs ++ [r]) =
    Latch.step (exceeds cfg) (rests cfg) (ticks cfg degraded rs) r

/-- No multiplication that a tick performs on the limits wraps.  A recovery threshold
is computed only for a reading that is not above its limit. -/
def NoWrap (r : Reading) : Prop :=
  memoryLimit cfg < 2 ^ 64 ∧ (r.rss ≤ memoryLimit cfg → memoryLimit cfg * 8 < 2 ^ 64) ∧
    (r.load.toNat ≤ cfg.hostCpuLimitPct.toNat → cfg.hostCpuLimitPct.toNat * 8 < 2 ^ 8)

/-- The sampler is the automaton it is meant to be, in exact arithmetic. -/
def SamplerExact (degraded : Bool) : Prop :=
  FollowsThresholds cfg degraded ∧ ∀ r, NoWrap cfg r

/-- Eight times either limit fits the width it is computed in. -/
def LimitsFit : Prop :=
  cfg.ramLimitMb.toNat < 2 ^ 41 ∧ cfg.hostCpuLimitPct.toNat < 32

theorem ticks_concat (d : Bool) (rs : List Reading) (r : Reading) :
    ticks cfg d (rs ++ [r]) =
      Latch.step (trips cfg) (clears cfg) (ticks cfg d rs) r.event := by
  rw [ticks, List.foldl_append, List.foldl_cons, List.foldl_nil, samplerTick_eq]
  rfl

theorem ramLimit_toNat : (ramLimit cfg).toNat = memoryLimit cfg % 2 ^ 64 := by
  rw [ramLimit, UInt64.toNat_mul, UInt64.toNat_mul, memoryLimit]
  exact Nat.mod_mul_mod _ _ _

theorem Reading.rss_toNat (r : Reading) : (r.pages * 4096).toNat = r.rss := by
  rw [UInt64.toNat_mul]
  exact Nat.mod_eq_of_lt r.rss_fits

/-- When a tick trips the flag, with the limits as the code computes them. -/
theorem trips_event (r : Reading) :
    trips cfg r.event = true ↔
      r.rss > memoryLimit cfg % 2 ^ 64 ∨ r.load.toNat > cfg.hostCpuLimitPct.toNat := by
  rw [trips, Reading.event, hotTrips, Bool.false_or, slowTrips, Option.any_some, Option.any_some,
    Bool.or_eq_true, decide_eq_true_eq, decide_eq_true_eq, gt_iff_lt, UInt64.lt_iff_toNat_lt,
    ramLimit_toNat, r.rss_toNat, gt_iff_lt, UInt8.lt_iff_toNat_lt]

/-- When a tick that does not trip the flag clears it. -/
theorem clears_event {r : Reading} (h : ¬ trips cfg r.event = true) :
    clears cfg r.event = true ↔
      r.rss ≤ memoryLimit cfg % 2 ^ 64 * 8 % 2 ^ 64 / 10 ∧
        r.load.toNat ≤ cfg.hostCpuLimitPct.toNat * 8 % 2 ^ 8 / 10 := by
  have hrss : (ramLimit cfg * 8 / 10).toNat = memoryLimit cfg % 2 ^ 64 * 8 % 2 ^ 64 / 10 := by
    rw [UInt64.toNat_div, UInt64.toNat_mul, ramLimit_toNat]
    rfl
  have hload :
      (cfg.hostCpuLimitPct * 8 / 10).toNat = cfg.hostCpuLimitPct.toNat * 8 % 2 ^ 8 / 10 := by
    rw [UInt8.toNat_div, UInt8.toNat_mul]
    rfl
  rw [trips_event, not_or] at h
  rw [clears, Reading.event, hotRecovers, Bool.false_or, slowQuiet, Option.all_some,
    Option.all_some, Bool.and_eq_true, decide_eq_true_eq, decide_eq_true_eq, gt_iff_lt,
    gt_iff_lt, UInt64.lt_iff_toNat_lt, UInt64.lt_iff_toNat_lt, hrss, ramLimit_toNat, r.rss_toNat,
    gt_iff_lt, gt_iff_lt, UInt8.lt_iff_toNat_lt, UInt8.lt_iff_toNat_lt, hload]
  simp only [gt_iff_lt, Nat.not_lt] at h ⊢
  exact ⟨fun hc => ⟨hc.1.2, hc.2.2⟩, fun hc => ⟨⟨h.1, hc.1⟩, h.2, hc.2⟩⟩

theorem exceeds_iff (r : Reading) :
    exceeds cfg r = true ↔
      r.rss > memoryLimit cfg ∨ r.load.toNat > cfg.hostCpuLimitPct.toNat := by
  rw [exceeds, decide_eq_true_eq]

theorem rests_iff (r : Reading) :
    rests cfg r = true ↔ r.rss ≤ memoryLimit cfg * 8 / 10 ∧
      r.load.toNat ≤ cfg.hostCpuLimitPct.toNat * 8 / 10 := by
  rw [rests, decide_eq_true_eq]

theorem exists_reading {n : Nat} (h : n * 4096 < 2 ^ 64) (load : UInt8) :
    ∃ r : Reading, r.rss = n * 4096 ∧ r.load = load := by
  have hvalue : (UInt64.ofNat n).toNat = n := by
    rw [UInt64.toNat_ofNat', Nat.mod_eq_of_lt (by omega)]
  refine ⟨⟨UInt64.ofNat n, load, by rw [hvalue]; exact h⟩, ?_, rfl⟩
  rw [Reading.rss, hvalue]

variable {cfg}

theorem limitsFit_iff :
    LimitsFit cfg ↔ memoryLimit cfg * 8 < 2 ^ 64 ∧ cfg.hostCpuLimitPct.toNat * 8 < 2 ^ 8 := by
  rw [LimitsFit, memoryLimit]
  omega

/-- Where the limits fit, the code's bounds are the ones it means. -/
theorem followsThresholds_of_fit (h : LimitsFit cfg) (d : Bool) : FollowsThresholds cfg d := by
  obtain ⟨hmemory, hhost⟩ := limitsFit_iff.mp h
  have hlimit : memoryLimit cfg % 2 ^ 64 = memoryLimit cfg := Nat.mod_eq_of_lt (by omega)
  intro rs r
  rw [ticks_concat]
  have htrips : trips cfg r.event = true ↔ exceeds cfg r = true := by
    rw [trips_event, exceeds_iff, hlimit]
  by_cases hon : exceeds cfg r = true
  · rw [Latch.step_of_on hon, Latch.step_of_on (htrips.mpr hon)]
  have hon' : ¬ trips cfg r.event = true := fun htrip => hon (htrips.mp htrip)
  have hclears : clears cfg r.event = true ↔ rests cfg r = true := by
    rw [clears_event cfg hon', rests_iff, hlimit, Nat.mod_eq_of_lt hmemory, Nat.mod_eq_of_lt hhost]
  by_cases hoff : rests cfg r = true
  · rw [Latch.step_of_off hon hoff, Latch.step_of_off hon' (hclears.mpr hoff)]
  · rw [Latch.step_of_neither hon hoff,
      Latch.step_of_neither hon' (fun hclear => hoff (hclears.mp hclear))]

/-- A tick with no memory in use and no load clears the flag. -/
theorem ticks_idle {d : Bool} (h : FollowsThresholds cfg d) (rs : List Reading) {r : Reading}
    (hrss : r.rss = 0) (hload : r.load = 0) : ticks cfg d (rs ++ [r]) = false := by
  have hload' : r.load.toNat = 0 := by rw [hload]; rfl
  rw [h rs r]
  apply Latch.step_of_off
  · rw [exceeds_iff]
    omega
  · rw [rests_iff]
    omega

/-- A memory limit of 2^64 bytes or more: the code's limit is smaller, and memory above
it sets the flag. -/
theorem memoryLimit_lt_of_follows {d : Bool} (h : FollowsThresholds cfg d) :
    memoryLimit cfg < 2 ^ 64 := by
  apply Classical.byContradiction
  intro hlarge
  have hmultiple : memoryLimit cfg = cfg.ramLimitMb.toNat * 1024 * 1024 := rfl
  obtain ⟨idle, hidle, hidleLoad⟩ := exists_reading (n := 0) (by decide) 0
  obtain ⟨r, hrss, hload⟩ := exists_reading (n := 2 ^ 52 - 1) (by decide) 0
  have hload' : r.load.toNat = 0 := by rw [hload]; rfl
  have hbefore : ticks cfg d [idle] = false := ticks_idle h [] (by omega) hidleLoad
  have hset : ticks cfg d ([idle] ++ [r]) = true := by
    rw [ticks_concat]
    apply Latch.step_of_on
    rw [trips_event]
    omega
  have hquiet : ¬ exceeds cfg r = true := by
    rw [exceeds_iff]
    omega
  rw [h [idle] r, hbefore] at hset
  by_cases hoff : rests cfg r = true
  · rw [Latch.step_of_off hquiet hoff] at hset
    cases hset
  · rw [Latch.step_of_neither hquiet hoff] at hset
    cases hset

/-- A reading above a memory limit that fits sets the flag. -/
theorem ticks_above {d : Bool} (h : FollowsThresholds cfg d) :
    ∃ r, ticks cfg d [r] = true := by
  have hfits := memoryLimit_lt_of_follows h
  have hmultiple : memoryLimit cfg = cfg.ramLimitMb.toNat * 1024 * 1024 := rfl
  obtain ⟨r, hrss, -⟩ := exists_reading (n := cfg.ramLimitMb.toNat * 256 + 1) (by omega) 0
  refine ⟨r, ?_⟩
  have hstep := h [] r
  rw [List.nil_append] at hstep
  rw [hstep]
  apply Latch.step_of_on
  rw [exceeds_iff]
  omega

/-- A reading at rest clears the flag, so the code's thresholds must let it. -/
theorem recovers_of_follows {d : Bool} (h : FollowsThresholds cfg d) {r : Reading}
    (hquiet : ¬ exceeds cfg r = true) (hrest : rests cfg r = true)
    (hquiet' : ¬ trips cfg r.event = true) : clears cfg r.event = true := by
  obtain ⟨above, habove⟩ := ticks_above h
  have hcleared := h [above] r
  rw [ticks_concat, habove, Latch.step_of_off hquiet hrest] at hcleared
  apply Classical.byContradiction
  intro hstuck
  rw [Latch.step_of_neither hquiet' hstuck] at hcleared
  cases hcleared

/-- **The thresholds need the room**: each product by eight that wraps moves the recovery
threshold down, and a reading between the two thresholds is not recovered from. -/
theorem fit_of_followsThresholds {d : Bool} (h : FollowsThresholds cfg d) : LimitsFit cfg := by
  have hlimit := memoryLimit_lt_of_follows h
  have hlimit' : memoryLimit cfg % 2 ^ 64 = memoryLimit cfg := Nat.mod_eq_of_lt hlimit
  rw [limitsFit_iff]
  constructor
  · apply Classical.byContradiction
    intro hlarge
    obtain ⟨r, hrss, hload⟩ := exists_reading (n := memoryLimit cfg * 8 / 10 / 4096) (by omega) 0
    have hload' : r.load.toNat = 0 := by rw [hload]; rfl
    have hquiet : ¬ exceeds cfg r = true := by
      rw [exceeds_iff]
      omega
    have hrest : rests cfg r = true := by
      rw [rests_iff]
      omega
    have hquiet' : ¬ trips cfg r.event = true := by
      rw [trips_event, hlimit']
      omega
    have hclears := recovers_of_follows h hquiet hrest hquiet'
    have hwrapped : memoryLimit cfg * 8 % 2 ^ 64 + 2 ^ 64 ≤ memoryLimit cfg * 8 := by omega
    rw [clears_event cfg hquiet', hlimit'] at hclears
    omega
  · apply Classical.byContradiction
    intro hlarge
    have hbyte := cfg.hostCpuLimitPct.toNat_lt
    obtain ⟨r, hrss, hload⟩ := exists_reading (n := 0) (by decide)
      (UInt8.ofNat (cfg.hostCpuLimitPct.toNat * 8 / 10))
    have hload' : r.load.toNat = cfg.hostCpuLimitPct.toNat * 8 / 10 := by
      rw [hload, UInt8.toNat_ofNat']
      omega
    have hquiet : ¬ exceeds cfg r = true := by
      rw [exceeds_iff]
      omega
    have hrest : rests cfg r = true := by
      rw [rests_iff]
      omega
    have hquiet' : ¬ trips cfg r.event = true := by
      rw [trips_event, hlimit']
      omega
    have hclears := recovers_of_follows h hquiet hrest hquiet'
    rw [clears_event cfg hquiet', hlimit'] at hclears
    omega

/-- **Exactly when the sampler is an exact hysteresis automaton**, whatever the flag was
before.  The flag alone, without a word about wrapping, already asks for as much. -/
theorem sampler_iff (cfg : Config) (d : Bool) :
    (SamplerExact cfg d ↔ LimitsFit cfg) ∧ (FollowsThresholds cfg d → LimitsFit cfg) := by
  refine ⟨⟨fun h => fit_of_followsThresholds h.1, fun h => ?_⟩, fit_of_followsThresholds⟩
  obtain ⟨hmemory, hhost⟩ := limitsFit_iff.mp h
  refine ⟨followsThresholds_of_fit h d, fun r => ⟨?_, fun _ => hmemory, fun _ => hhost⟩⟩
  omega

/-- **With the default limits the sampler does not recover**: 80 % of a load limit of 85
is 68, but 85 * 8 wraps to 168, and a load of 60 keeps the flag on. -/
theorem sampler_does_not_recover :
    ¬ ∀ cfg : Config, cfg.validate = .ok () → SamplerExact cfg false := by
  intro h
  have hfollows := (h defaultConfig defaultConfig_valid).1
  have hstep := hfollows [⟨0, 90, by decide⟩] ⟨0, 60, by decide⟩
  have hstuck : ticks defaultConfig false
      ([⟨0, 90, by decide⟩] ++ [⟨0, 60, by decide⟩]) = true := by decide
  have hquiet : ¬ exceeds defaultConfig ⟨0, 60, by decide⟩ = true := by
    rw [exceeds_iff]
    decide
  have hrest : rests defaultConfig ⟨0, 60, by decide⟩ = true := by
    rw [rests_iff]
    decide
  cases hstuck.symm.trans (hstep.trans (Latch.step_of_off hquiet hrest))

end Breaker
end SovProbe
