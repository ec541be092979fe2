import SovProbe.Checked
import SovProbe.Config
import SovProbe.Latch

/-! # The dual-layer circuit breaker

`guard/breaker.rs`.  One shared flag, `degraded`, is written by two layers: the
writer's `hot_path_check`, which looks at the fill of the queue, and the
background sampler, which looks at the memory of the process and the load of the
host.  Arithmetic is that of the release build the probe ships as: unsigned
integers wrap, a division by zero ends the process.

Each layer has hysteresis of its own, so the design is two latches, one per layer,
and the flag should be on while either is.  The code has a single latch that both
layers set and reset (`run_eq_latch`).  `layersIndependent_iff` says exactly in
which runs that makes no difference.
-/

namespace SovProbe
open Checked

namespace Breaker

/-- The fill of the queue in percent. -/
def fillPct (fill capacity : UInt64) : UInt64 := fill * 100 / capacity

/-- `hot_path_check`: the flag after a check that finds `fill` records in a channel
of the given capacity (`none` for an unbounded one). -/
def hotPathCheck (capacity : Option UInt64) (fill : UInt64) (watermark : UInt8)
    (degraded : Bool) : Checked Bool := do
  match capacity with
  | none => return degraded
  | some capacity =>
    let pct ← div (fill * 100) capacity
    if pct ≥ watermark.toUInt64 then
      return true
    if pct < watermark.toUInt64 / 2 then
      return false
    return degraded

/-- One tick of `run_background_sampler`: the flag after a sample that read
`resident` pages and a load of `load` percent, `none` where a reading failed. -/
def samplerTick (cfg : Config) (resident : Option UInt64) (load : Option UInt8)
    (degraded : Bool) : Bool :=
  let shouldRecover := true
  let (degraded, shouldRecover) :=
    match resident with
    | none => (degraded, shouldRecover)
    | some resident =>
      let rssBytes := resident * 4096
      let limit := cfg.ramLimitMb * 1024 * 1024
      if rssBytes > limit then (true, false)
      else if rssBytes > limit * 8 / 10 then (degraded, false)
      else (degraded, shouldRecover)
  let (degraded, shouldRecover) :=
    match load with
    | none => (degraded, shouldRecover)
    | some pct =>
      if pct > cfg.hostCpuLimitPct then (true, false)
      else if pct > cfg.hostCpuLimitPct * 8 / 10 then (degraded, false)
      else (degraded, shouldRecover)
  if shouldRecover then false else degraded

/-! ## Runs of both layers -/

/-- What the two layers do to the flag. -/
inductive Event where
  /-- A check by the writer that finds `fill` records in the queue. -/
  | hotPathCheck (fill : UInt64)
  /-- A tick of the sampler with its two readings. -/
  | samplerTick (resident : Option UInt64) (load : Option UInt8)
  deriving DecidableEq, Repr

variable (cfg : Config)

/-- What a check or a sampler tick makes of the flag. -/
def step (degraded : Bool) : Event → Checked Bool
  | .hotPathCheck fill =>
    hotPathCheck (some cfg.queueCapacity) fill cfg.queueHighWatermark degraded
  | .samplerTick resident load => .ok (samplerTick cfg resident load degraded)

/-- The flag after a sequence of events, initially off. -/
def run (es : List Event) : Checked Bool := es.foldlM (step cfg) false

theorem run_concat (es : List Event) (e : Event) :
    run cfg (es ++ [e]) = run cfg es >>= fun d => step cfg d e := by
  rw [run, List.foldlM_append]
  simp only [List.foldlM_cons, List.foldlM_nil, bind_pure]
  rfl

/-! ## What an event says about each layer -/

/-- The check saw the queue at or above the watermark. -/
def hotTrips : Event → Bool
  | .hotPathCheck fill => fillPct fill cfg.queueCapacity ≥ cfg.queueHighWatermark.toUInt64
  | .samplerTick _ _ => false

/-- The check saw the queue below half the watermark. -/
def hotRecovers : Event → Bool
  | .hotPathCheck fill => fillPct fill cfg.queueCapacity < cfg.queueHighWatermark.toUInt64 / 2
  | .samplerTick _ _ => false

/-- The memory limit in bytes, as the sampler computes it. -/
def ramLimit : UInt64 := cfg.ramLimitMb * 1024 * 1024

/-- The tick saw the memory or the load above its limit. -/
def slowTrips : Event → Bool
  | .hotPathCheck _ => false
  | .samplerTick resident load =>
    resident.any (fun pages => pages * 4096 > ramLimit cfg) ||
      load.any (fun pct => pct > cfg.hostCpuLimitPct)

/-- No reading of the tick is above its limit or its recovery threshold. -/
def slowQuiet : Event → Bool
  | .hotPathCheck _ => false
  | .samplerTick resident load =>
    resident.all (fun pages =>
      ¬ pages * 4096 > ramLimit cfg ∧ ¬ pages * 4096 > ramLimit cfg * 8 / 10) &&
      load.all (fun pct => ¬ pct > cfg.hostCpuLimitPct ∧ ¬ pct > cfg.hostCpuLimitPct * 8 / 10)

/-- The tick saw both the memory and the load, each at or below its recovery
threshold. -/
def slowRecovers : Event → Bool
  | .hotPathCheck _ => false
  | .samplerTick resident load =>
    resident.isSome && load.isSome && slowQuiet cfg (.samplerTick resident load)

/-- The event switches the flag on. -/
def trips (e : Event) : Bool := hotTrips cfg e || slowTrips cfg e

/-- The event switches the flag off. -/
def clears (e : Event) : Bool := hotRecovers cfg e || slowQuiet cfg e

/-! ## The flag is one latch -/

theorem hotRecovers_not_trips {e : Event} (h : hotRecovers cfg e = true) :
    hotTrips cfg e = false := by
  cases e with
  | samplerTick resident load => rfl
  | hotPathCheck fill =>
    simp only [hotRecovers, hotTrips, decide_eq_true_eq, decide_eq_false_iff_not] at h ⊢
    rw [UInt64.lt_iff_toNat_lt, UInt64.toNat_div] at h
    rw [ge_iff_le, UInt64.le_iff_toNat_le]
    have hhalf := Nat.div_le_self cfg.queueHighWatermark.toUInt64.toNat (2 : UInt64).toNat
    omega

theorem slowQuiet_not_trips {e : Event} (h : slowQuiet cfg e = true) : slowTrips cfg e = false := by
  cases e with
  | hotPathCheck fill => rfl
  | samplerTick resident load =>
    cases resident <;> cases load <;> simp_all [slowQuiet, slowTrips]

/-- An event does not switch the flag both on and off. -/
theorem clears_not_trips (e : Event) (h : clears cfg e = true) : trips cfg e = false := by
  rw [clears, Bool.or_eq_true] at h
  rw [trips, Bool.or_eq_false_iff]
  cases e with
  | hotPathCheck fill =>
    have hhot := h.resolve_right (by simp [slowQuiet])
    exact ⟨hotRecovers_not_trips cfg hhot, rfl⟩
  | samplerTick resident load =>
    have hslow := h.resolve_left (by simp [hotRecovers])
    exact ⟨rfl, slowQuiet_not_trips cfg hslow⟩

/-- A tick is a step of the latch: it trips if a reading is above its limit, clears if
no reading is above its recovery threshold, and else holds. -/
theorem samplerTick_eq (resident : Option UInt64) (load : Option UInt8) (d : Bool) :
    samplerTick cfg resident load d =
      Latch.step (trips cfg) (clears cfg) d (.samplerTick resident load) := by
  have hlimit : cfg.ramLimitMb * 1024 * 1024 = ramLimit cfg := rfl
  unfold samplerTick Latch.step trips clears
  simp only [hotTrips, hotRecovers, slowTrips, slowQuiet, Bool.false_or, hlimit]
  -- where each reading lies: above its limit, in the band below it, or at rest
  cases resident with
  | none =>
    cases load with
    | none => simp
    | some pct =>
      by_cases hload : pct > cfg.hostCpuLimitPct <;>
        by_cases hband : pct > cfg.hostCpuLimitPct * 8 / 10 <;> simp [hload, hband]
  | some pages =>
    by_cases hrss : pages * 4096 > ramLimit cfg <;>
      by_cases hrest : pages * 4096 > ramLimit cfg * 8 / 10
    all_goals
      cases load with
      | none => simp [hrss, hrest]
      | some pct =>
        by_cases hload : pct > cfg.hostCpuLimitPct <;>
          by_cases hband : pct > cfg.hostCpuLimitPct * 8 / 10 <;> simp [hrss, hrest, hload, hband]

/-- **What an event does to the flag**, whichever layer it belongs to. -/
theorem step_eq {d d' : Bool} {e : Event} (h : step cfg d e = .ok d') :
    d' = Latch.step (trips cfg) (clears cfg) d e := by
  cases e with
  | samplerTick resident load =>
    rw [← samplerTick_eq]
    exact (Except.ok.inj h).symm
  | hotPathCheck fill =>
    by_cases hcapacity : cfg.queueCapacity = 0
    · rw [step, hotPathCheck, hcapacity, div_zero, error_bind] at h
      cases h
    · rw [step, hotPathCheck, div_of_ne hcapacity, ok_bind] at h
      unfold Latch.step trips clears
      simp only [hotTrips, hotRecovers, slowTrips, slowQuiet, Bool.or_false, fillPct]
      by_cases htrip : fill * 100 / cfg.queueCapacity ≥ cfg.queueHighWatermark.toUInt64
      · rw [if_pos htrip] at h
        simpa [htrip] using (Except.ok.inj h).symm
      · rw [if_neg htrip] at h
        by_cases hhalf : fill * 100 / cfg.queueCapacity < cfg.queueHighWatermark.toUInt64 / 2
        · rw [if_pos hhalf] at h
          simpa [htrip, hhalf] using (Except.ok.inj h).symm
        · rw [if_neg hhalf] at h
          simpa [htrip, hhalf] using (Except.ok.inj h).symm

/-- **Both layers drive a single latch.** -/
theorem run_eq_latch {es : List Event} {d : Bool} (h : run cfg es = .ok d) :
    d = Latch.state (trips cfg) (clears cfg) es := by
  induction es using List.reverseRec generalizing d with
  | nil => exact (Except.ok.inj h).symm
  | append_singleton es e ih =>
    rw [run_concat, bind_eq_ok] at h
    obtain ⟨d₀, hrun, hstep⟩ := h
    rw [Latch.state_concat, ← ih hrun]
    exact step_eq cfg hstep

/-- The prefixes of a run are runs. -/
theorem run_prefix {xs es : List Event} {d : Bool} (hpre : xs <+: es) (h : run cfg es = .ok d) :
    ∃ d₀, run cfg xs = .ok d₀ := by
  obtain ⟨ys, rfl⟩ := hpre
  rw [run, List.foldlM_append, bind_eq_ok] at h
  obtain ⟨d₀, hxs, -⟩ := h
  exact ⟨d₀, hxs⟩

/-! ## Two layers on one flag -/

/-- After an event that trips a layer, and until a later one that recovers it, the
flag is on. -/
def StaysDegraded (trips recovers : Event → Bool) (es : List Event) : Prop :=
  ∀ pre e mid, pre ++ e :: mid <+: es → trips e = true → (∀ x ∈ mid, recovers x = false) →
    ∀ d, run cfg (pre ++ e :: mid) = .ok d → d = true

/-- The layers do not cancel each other: each keeps the flag on from its own trip to
its own recovery. -/
def LayersIndependent (es : List Event) : Prop :=
  StaysDegraded cfg (slowTrips cfg) (slowRecovers cfg) es ∧
    StaysDegraded cfg (hotTrips cfg) (hotRecovers cfg) es

/-- A layer has tripped and not recovered since. -/
def Outstanding (trips recovers : Event → Bool) (xs : List Event) : Prop :=
  ∃ pre e mid, xs = pre ++ e :: mid ∧ trips e = true ∧ ∀ x ∈ mid, recovers x = false

/-- Whatever clears the flag while a trip of a layer is outstanding is a recovery of
that layer. -/
def NoCrossClear (es : List Event) : Prop :=
  ∀ xs x, xs ++ [x] <+: es → clears cfg x = true →
    (Outstanding (slowTrips cfg) (slowRecovers cfg) xs → slowRecovers cfg x = true) ∧
      (Outstanding (hotTrips cfg) (hotRecovers cfg) xs → hotRecovers cfg x = true)

/-- One layer keeps the flag on iff its latch is dominated by the flag's. -/
theorem staysDegraded_iff {on off : Event → Bool} (hon : ∀ e, on e = true → trips cfg e = true)
    {es : List Event} {d : Bool} (hrun : run cfg es = .ok d) :
    StaysDegraded cfg on off es ↔
      ∀ xs x, xs ++ [x] <+: es → Outstanding on off xs → clears cfg x = true → off x = true := by
  have hdom : StaysDegraded cfg on off es ↔
      ∀ xs, xs <+: es → Latch.state on off xs = true →
        Latch.state (trips cfg) (clears cfg) xs = true := by
    constructor
    · intro hstays xs hpre hon
      obtain ⟨pre, e, mid, rfl, he, hmid⟩ := (Latch.state_iff on off xs).mp hon
      obtain ⟨d₀, hd₀⟩ := run_prefix cfg hpre hrun
      rw [← run_eq_latch cfg hd₀]
      exact hstays pre e mid hpre he hmid d₀ hd₀
    · intro hall pre e mid hpre he hmid d₀ hd₀
      rw [run_eq_latch cfg hd₀]
      exact hall _ hpre ((Latch.state_iff on off _).mpr ⟨pre, e, mid, rfl, he, hmid⟩)
  rw [hdom, Latch.dominates_iff hon (clears_not_trips cfg) es]
  simp only [Latch.state_iff on off]
  rfl

/-- **Exactly when the two layers do not cancel each other**, in every run. -/
theorem layersIndependent_iff {es : List Event} {d : Bool} (hrun : run cfg es = .ok d) :
    LayersIndependent cfg es ↔ NoCrossClear cfg es := by
  have hslow : ∀ e, slowTrips cfg e = true → trips cfg e = true := by
    intro e he
    rw [trips, he, Bool.or_true]
  have hhot : ∀ e, hotTrips cfg e = true → trips cfg e = true := by
    intro e he
    rw [trips, he, Bool.true_or]
  rw [LayersIndependent, staysDegraded_iff cfg hslow hrun, staysDegraded_iff cfg hhot hrun]
  constructor
  · rintro ⟨hs, hh⟩ xs x hpre hx
    exact ⟨fun ho => hs xs x hpre ho hx, fun ho => hh xs x hpre ho hx⟩
  · intro h
    exact ⟨fun xs x hpre ho hx => (h xs x hpre hx).1 ho,
      fun xs x hpre ho hx => (h xs x hpre hx).2 ho⟩

/-- A memory trip that the sampler itself recovers from. -/
theorem layersIndependent_iff_memory :
    LayersIndependent defaultConfig
        [.samplerTick (some 20000) (some 10), .hotPathCheck 50000,
          .samplerTick (some 100) (some 10)] ↔
      NoCrossClear defaultConfig
        [.samplerTick (some 20000) (some 10), .hotPathCheck 50000,
          .samplerTick (some 100) (some 10)] := by
  have hrun : run defaultConfig
      [.samplerTick (some 20000) (some 10), .hotPathCheck 50000,
        .samplerTick (some 100) (some 10)] = .ok false := by
    decide
  exact layersIndependent_iff defaultConfig hrun

/-- **The layers do cancel each other**: the sampler sees 80 MB of memory against a
limit of 64, and the next check of an empty queue clears the flag. -/
theorem layers_cancel : ¬ ∀ cfg : Config, cfg.validate = .ok () →
    ∀ es d, run cfg es = .ok d → LayersIndependent cfg es := by
  intro h
  have hrun : run defaultConfig [.samplerTick (some 20000) (some 10), .hotPathCheck 0] =
      .ok false := by decide
  have hindependent := h defaultConfig defaultConfig_valid _ _ hrun
  have hstays := hindependent.1 [] (.samplerTick (some 20000) (some 10)) [.hotPathCheck 0]
    (List.prefix_refl _) (by decide) (by decide) false hrun
  cases hstays

end Breaker
end SovProbe
