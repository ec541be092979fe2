/-! # The probe's configuration

`config.rs`, with the parameters the modelled components read; `usize` is 64 bits.
The defaults are the source's.
-/

namespace SovProbe

/-- The parameters of the probe. -/
structure Config where
  interfaces : List String := []
  /-- Kernel-side port whitelist; empty means everything. -/
  capturePorts : List UInt16 := []
  sliceBytes : UInt64 := 4096
  segmentSize : UInt64 := 64 * 1024 * 1024
  rotateIntervalSecs : UInt64 := 5
  maxSegments : UInt64 := 8
  queueCapacity : UInt64 := 100000
  /-- The watermark in percent of the capacity. -/
  queueHighWatermark : UInt8 := 80
  ramLimitMb : UInt64 := 64
  hostCpuLimitPct : UInt8 := 85
  deriving DecidableEq, Repr

/-- Fails with the message of the first check that does not hold. -/
def ensure (condition : Prop) [Decidable condition] (message : String) : Except String Unit :=
  if condition then .ok () else .error message

/-- `Config::validate`. -/
def Config.validate (self : Config) : Except String Unit := do
  ensure (self.interfaces ≠ []) "至少需要一个接口 --interface"
  ensure (self.sliceBytes > 0 ∧ self.sliceBytes ≤ 65536) "slice_bytes 非法"
  ensure (self.segmentSize > 0) "segment_size 非法"
  ensure (self.maxSegments ≥ 1) "max_segments >= 1"
  ensure (self.queueHighWatermark ≤ 100) "queue_high_watermark 应在 0-100"

theorem ensure_eq_ok {condition : Prop} [Decidable condition] {message : String} :
    ensure condition message = .ok () ↔ condition := by
  unfold ensure
  by_cases h : condition <;> simp [h]

/-- **What an accepted configuration satisfies**, and nothing more: neither the queue
capacity nor any relation between sizes is checked. -/
theorem Config.validate_eq_ok {cfg : Config} :
    cfg.validate = .ok () ↔
      cfg.interfaces ≠ [] ∧ (cfg.sliceBytes > 0 ∧ cfg.sliceBytes ≤ 65536) ∧ cfg.segmentSize > 0 ∧
        cfg.maxSegments ≥ 1 ∧ cfg.queueHighWatermark ≤ 100 := by
  have hbind : ∀ {x : Except String Unit} {f : Unit → Except String Unit},
      x >>= f = .ok () ↔ x = .ok () ∧ f () = .ok () := by
    intro x f
    cases x with
    | error e => simp [bind, Except.bind]
    | ok u => simp [bind, Except.bind]
  unfold Config.validate
  simp only [hbind, ensure_eq_ok]

/-- The defaults on one interface. -/
def defaultConfig : Config := { interfaces := ["eth0"] }

theorem defaultConfig_valid : defaultConfig.validate = .ok () := by
  rw [Config.validate_eq_ok]
  decide

end SovProbe
