import SovProbe.BlindCache

/-! # References to what was sent before

A sender asks whether the receiver has the plaintext of a blind id, and after the answer
`true` sends references instead of the data.  The answer is true when it is given; by the
time a reference arrives other data frames may have pushed the plaintext out.  Arrivals
at the receiver are in one order: data frames, queries and references of any number of
senders, however they were interleaved on the way.
-/

namespace SovProbe
open FifoWindow Checked

/-- A chunk frame, or an EXISTS query for an id. -/
inductive Arrival where
  | frame (key payload : List UInt8)
  | query (id : BlindId)

namespace Arrival
variable (codec : Codec) (plain : BlindId → List UInt8)

/-- The id whose data the frame carries. -/
def dataId : Arrival → Option BlindId
  | frame key payload =>
    match codec.decodeChunkFrame payload with
    | some f => if f.refOnly then none else blindIdFromKey key
    | none => none
  | query _ => none

/-- The id the frame refers to. -/
def refId : Arrival → Option BlindId
  | frame key payload =>
    match codec.decodeChunkFrame payload with
    | some f => if f.refOnly then blindIdFromKey key else none
    | none => none
  | query _ => none

/-- A frame is of an id, and a data frame carries the one plaintext of it. -/
def FromSender : Arrival → Prop
  | frame key payload => ∃ f id, codec.decodeChunkFrame payload = some f ∧
      blindIdFromKey key = some id ∧
      (f.refOnly = false → codec.chunkFrameHeaderLen ≤ payload.length ∧
        decrypt codec (payload.drop codec.chunkFrameHeaderLen) = some (plain id))
  | query _ => True

end Arrival

namespace BlindCache
variable (codec : Codec) (plain : BlindId → List UInt8)

/-- What an arrival does to the cache. -/
def step (self : BlindCache) : Arrival → Checked BlindCache
  | .frame key payload => do
    let (self, _) ← self.materialise codec key payload
    return self
  | .query _ => return self

/-- The cache after these arrivals. -/
def run (as : List Arrival) : Checked BlindCache := as.foldlM (step codec) {}

/-- The ids in the order they were admitted to a FIFO cache of the budget, newest first. -/
def admissions (as : List Arrival) : List BlindId :=
  as.foldl (fun log a =>
    match a.dataId codec with
    | some id => enter (size plain) blindCacheBudget log id
    | none => log) []

/-- After `pre` a reference to `id` arrives. -/
def Refers (as pre : List Arrival) (key payload : List UInt8) (id : BlindId) : Prop :=
  pre ++ [.frame key payload] <+: as ∧ (Arrival.frame key payload).refId codec = some id

/-- A reference is sent only after the answer that the receiver has the id. -/
def Disciplined (as : List Arrival) : Prop :=
  ∀ pre key payload id, Refers codec as pre key payload id → ∃ pre' c,
    pre' ++ [.query id] <+: pre ∧ run codec pre' = .ok c ∧ c.hasBlind id = true

variable {codec plain} {as pre : List Arrival} {a : Arrival} {c : BlindCache}
  {log : List BlindId} {id : BlindId}

theorem run_concat : run codec (as ++ [a]) = run codec as >>= fun c => c.step codec a := by
  rw [run, List.foldlM_append]
  simp only [List.foldlM_cons, List.foldlM_nil, bind_pure]
  rfl

theorem admissions_concat : admissions codec plain (as ++ [a]) =
    match a.dataId codec with
    | some id => enter (size plain) blindCacheBudget (admissions codec plain as) id
    | none => admissions codec plain as := by
  rw [admissions, List.foldl_append]
  rfl

/-- What a window says does not depend on the counters. -/
theorem Windowed.congr {c' : BlindCache} (h : Windowed plain log c)
    (hcache : c'.blindCache = c.blindCache) (horder : c'.blindOrder = c.blindOrder)
    (hbytes : c'.blindCacheBytes = c.blindCacheBytes) : Windowed plain log c' where
  lookup := by rw [hcache, horder]; exact h.lookup
  bytes := by rw [hbytes, horder]; exact h.bytes
  nodup := by rw [horder]; exact h.nodup
  order := by rw [horder]; exact h.order

/-- **A data frame** is materialised, and its id entered. -/
theorem Windowed.materialise_data {key payload : List UInt8} (h : Windowed plain log c)
    (hsent : (Arrival.frame key payload).FromSender codec plain)
    (hid : (Arrival.frame key payload).dataId codec = some id) :
    ∃ c' f, c.materialise codec key payload = .ok (c', some (f, plain id)) ∧
      Windowed plain (enter (size plain) blindCacheBudget log id) c' ∧
      c'.cacheMiss = c.cacheMiss := by
  obtain ⟨f, id', hf, hkey, hdata⟩ := hsent
  cases href : f.refOnly with
  | true => simp [Arrival.dataId, hf, href] at hid
  | false =>
    simp only [Arrival.dataId, hf, href, hkey, Bool.false_eq_true, if_false,
      Option.some.injEq] at hid
    subst hid
    obtain ⟨hlen, hdecrypt⟩ := hdata href
    have hslice : slice payload codec.chunkFrameHeaderLen payload.length =
        .ok (payload.drop codec.chunkFrameHeaderLen) := by
      rw [slice_of_le hlen (Nat.le_refl _), List.take_of_length_le]
      rw [List.length_drop]
    unfold BlindCache.materialise
    simp only [hf, hkey, href, Bool.false_eq_true, if_false, hslice, ok_bind, hdecrypt]
    have hcounted : Windowed plain log { c with
        totalChunks := c.totalChunks + 1
        framesBySegment := c.framesBySegment.insert (f.devId, f.segmentSeq)
          ((c.framesBySegment.lookup (f.devId, f.segmentSeq)).getD 0 + 1) } := h.congr rfl rfl rfl
    obtain ⟨c', hc', hcounts, hwindowed⟩ := hcounted.cacheInsert id'
    rw [hc', ok_bind]
    exact ⟨c', f, rfl, hwindowed, hcounts.cacheMiss⟩

/-- **A reference** is materialised exactly if its id is in the window. -/
theorem Windowed.materialise_ref {key payload : List UInt8} (h : Windowed plain log c)
    (hid : (Arrival.frame key payload).refId codec = some id) :
    ∃ c' placed, c.materialise codec key payload = .ok (c', placed) ∧ Windowed plain log c' ∧
      ((id ∈ window (size plain) blindCacheBudget log ∧ c'.cacheMiss = c.cacheMiss ∧
          ∃ f, placed = some (f, plain id)) ∨
        (id ∉ window (size plain) blindCacheBudget log ∧ c'.cacheMiss = c.cacheMiss + 1 ∧
          placed = none)) := by
  unfold Arrival.refId at hid
  cases hf : codec.decodeChunkFrame payload with
  | none => simp [hf] at hid
  | some f =>
    cases href : f.refOnly with
    | false => simp [hf, href] at hid
    | true =>
      simp only [hf, href, if_true] at hid
      unfold BlindCache.materialise
      simp only [hf, hid, href, if_true, Option.bind_some]
      by_cases hmem : id ∈ c.blindOrder
      · have hlookup : c.blindCache.lookup id = some (plain id) := by rw [h.lookup, if_pos hmem]
        simp only [hlookup]
        exact ⟨_, _, rfl, h.congr rfl rfl rfl, Or.inl ⟨h.mem_order.mp hmem, rfl, f, rfl⟩⟩
      · have hlookup : c.blindCache.lookup id = none := by rw [h.lookup, if_neg hmem]
        simp only [hlookup]
        exact ⟨_, _, rfl, h.congr rfl rfl rfl, Or.inr ⟨mt h.mem_order.mpr hmem, rfl, rfl⟩⟩

/-- An arrival of the sender is a query, carries data, or refers to an id. -/
theorem arrival_cases (hsent : a.FromSender codec plain) :
    (∃ id, a = .query id) ∨ ∃ key payload, a = .frame key payload ∧
      ((∃ id, a.dataId codec = some id ∧ a.refId codec = none) ∨
        ∃ id, a.refId codec = some id ∧ a.dataId codec = none) := by
  cases a with
  | query id => exact Or.inl ⟨id, rfl⟩
  | frame key payload =>
    obtain ⟨f, id, hf, hkey, -⟩ := hsent
    refine Or.inr ⟨key, payload, rfl, ?_⟩
    cases href : f.refOnly with
    | true => exact Or.inr ⟨id, by simp [Arrival.refId, hf, href, hkey],
        by simp [Arrival.dataId, hf, href]⟩
    | false => exact Or.inl ⟨id, by simp [Arrival.dataId, hf, href, hkey],
        by simp [Arrival.refId, hf, href]⟩

/-- Every reference arrives while its id is in the window. -/
def Hits (codec : Codec) (plain : BlindId → List UInt8) (as : List Arrival) : Prop :=
  ∀ pre key payload id, Refers codec as pre key payload id →
    id ∈ window (size plain) blindCacheBudget (admissions codec plain pre)

theorem refers_concat {key payload : List UInt8} (h : Refers codec (as ++ [a]) pre key payload id) :
    (pre = as ∧ a = .frame key payload) ∨ Refers codec as pre key payload id := by
  obtain ⟨hpre, hid⟩ := h
  rcases List.prefix_concat_iff.mp hpre with heq | hpre
  · obtain ⟨rfl, hlast⟩ := List.append_inj' heq rfl
    exact Or.inl ⟨rfl, (List.singleton_inj.mp hlast).symm⟩
  · exact Or.inr ⟨hpre, hid⟩

theorem hits_concat : Hits codec plain (as ++ [a]) ↔ Hits codec plain as ∧
    ∀ id, a.refId codec = some id →
      id ∈ window (size plain) blindCacheBudget (admissions codec plain as) := by
  constructor
  · intro h
    refine ⟨fun pre key payload id hrefers => ?_, fun id hid => ?_⟩
    · exact h pre key payload id ⟨hrefers.1.trans (List.prefix_append _ _), hrefers.2⟩
    · cases a with
      | query id' => cases hid
      | frame key payload => exact h as key payload id ⟨List.prefix_refl _, hid⟩
  · rintro ⟨hold, hnew⟩ pre key payload id hrefers
    rcases refers_concat hrefers with ⟨rfl, rfl⟩ | hbefore
    · exact hnew id hrefers.2
    · exact hold pre key payload id hbefore

/-- **What a run knows**: the cache is the window of the admissions, and no reference
was missed exactly if all arrived in time. -/
theorem run_spec (hsent : ∀ a ∈ as, a.FromSender codec plain) :
    ∃ c, run codec as = .ok c ∧ Windowed plain (admissions codec plain as) c ∧
      (c.cacheMiss = 0 ↔ Hits codec plain as) := by
  induction as using List.reverseRecOn with
  | nil =>
    refine ⟨{}, rfl, Windowed.empty, fun _ pre key payload id hrefers => ?_, fun _ => rfl⟩
    exact absurd (List.prefix_nil.mp hrefers.1) (by simp)
  | append_singleton as a ih =>
    obtain ⟨c, hc, hwindowed, hmiss⟩ := ih fun b hb => hsent b (List.mem_append_left _ hb)
    have ha := hsent a (List.mem_append_right _ List.mem_cons_self)
    rw [run_concat, hc, ok_bind, admissions_concat, hits_concat, ← hmiss]
    rcases arrival_cases ha with
      ⟨id, rfl⟩ | ⟨key, payload, rfl, ⟨id, hdata, href⟩ | ⟨id, href, hdata⟩⟩
    · exact ⟨c, rfl, hwindowed, fun h => ⟨h, nofun⟩, And.left⟩
    · obtain ⟨c', f, hc', hwindowed', hsame⟩ := hwindowed.materialise_data ha hdata
      rw [hdata, step, hc', ok_bind, href]
      exact ⟨c', rfl, hwindowed', hsame.symm ▸ fun h => ⟨h, nofun⟩, fun h => hsame.trans h.1⟩
    · obtain ⟨c', placed, hc', hwindowed', hcases⟩ := hwindowed.materialise_ref href
      rw [hdata, step, hc', ok_bind, href]
      refine ⟨c', rfl, hwindowed', ?_⟩
      rcases hcases with ⟨hmem, hsame, -⟩ | ⟨hnot, hmore, -⟩
      · rw [hsame]
        refine ⟨fun h => ⟨h, ?_⟩, And.left⟩
        rintro id' ⟨⟩
        exact hmem
      · rw [hmore]
        refine ⟨fun h => absurd h (Nat.succ_ne_zero _), fun h => ?_⟩
        exact absurd (h.2 id rfl) hnot

/-- What was admitted once stays among the admissions. -/
theorem since_admissions {pre' : List Arrival} (hpre : pre' <+: pre)
    (h : (since (size plain) id (admissions codec plain pre')).isSome) :
    (since (size plain) id (admissions codec plain pre)).isSome := by
  obtain ⟨rest, rfl⟩ := hpre
  induction rest using List.reverseRecOn with
  | nil => rwa [List.append_nil]
  | append_singleton rest a ih =>
    rw [← List.append_assoc, admissions_concat]
    cases a.dataId codec with
    | none => exact ih
    | some id' => exact since_isSome_enter ih

/-- An id the receiver has was admitted. -/
theorem since_of_hasBlind (hsent : ∀ a ∈ pre, a.FromSender codec plain)
    (hrun : run codec pre = .ok c) (h : c.hasBlind id = true) :
    (since (size plain) id (admissions codec plain pre)).isSome := by
  obtain ⟨c', hc', hwindowed, -⟩ := run_spec hsent
  obtain rfl : c = c' := Except.ok.inj (hrun.symm.trans hc')
  unfold hasBlind at h
  rw [hwindowed.lookup] at h
  by_cases hmem : id ∈ c.blindOrder
  · obtain ⟨n, hn, -⟩ := mem_window_iff.mp (hwindowed.mem_order.mp hmem)
    rw [hn]
    rfl
  · rw [if_neg hmem] at h
    cases h

/-- For a sender that asks first, a reference is in time iff what was admitted since its
id fits the budget. -/
theorem hits_iff (hsent : ∀ a ∈ as, a.FromSender codec plain) (hdisc : Disciplined codec as) :
    Hits codec plain as ↔ ∀ pre key payload id, Refers codec as pre key payload id →
      ∀ n, since (size plain) id (admissions codec plain pre) = some n → n ≤ blindCacheBudget := by
  constructor
  · intro h pre key payload id hrefers n hn
    obtain ⟨m, hm, hle⟩ := mem_window_iff.mp (h pre key payload id hrefers)
    exact Option.some.inj (hm.symm.trans hn) ▸ hle
  · intro h pre key payload id hrefers
    obtain ⟨pre', c, hpre', hrun, hhas⟩ := hdisc pre key payload id hrefers
    have hwithin : pre' <+: pre := (List.prefix_append _ _).trans hpre'
    have hbefore : pre' <+: as := (hwithin.trans (List.prefix_append _ _)).trans hrefers.1
    have hasked := since_of_hasBlind (fun a ha => hsent a (hbefore.subset ha)) hrun hhas
    obtain ⟨n, hn⟩ := Option.isSome_iff_exists.mp (since_admissions hwithin hasked)
    exact mem_window_iff.mpr ⟨n, hn, h pre key payload id hrefers n hn⟩

/-- **When EXISTS answers are safe to rely on.**  However data frames, queries and
references interleave, if the sender refers only to ids it was told the receiver has, the
receiver handles all arrivals, and it materialises every reference with the plaintext of
its id, missing none, if and only if at each reference the plaintexts admitted to the
cache since its id was, with its own, fit the budget. -/
theorem dedup_safe_iff (hsent : ∀ a ∈ as, a.FromSender codec plain)
    (hdisc : Disciplined codec as) :
    ∃ c, run codec as = .ok c ∧
      ((c.cacheMiss = 0 ∧ ∀ pre key payload id, Refers codec as pre key payload id →
          ∃ c₀ c₁ f, run codec pre = .ok c₀ ∧
            c₀.materialise codec key payload = .ok (c₁, some (f, plain id))) ↔
        ∀ pre key payload id, Refers codec as pre key payload id →
          ∀ n, since (size plain) id (admissions codec plain pre) = some n →
            n ≤ blindCacheBudget) := by
  obtain ⟨c, hc, -, hmiss⟩ := run_spec hsent
  refine ⟨c, hc, ?_⟩
  rw [← hits_iff hsent hdisc, hmiss]
  refine ⟨And.left, fun hhits => ⟨hhits, fun pre key payload id hrefers => ?_⟩⟩
  have hbefore : pre <+: as := (List.prefix_append _ _).trans hrefers.1
  obtain ⟨c₀, hc₀, hwindowed, -⟩ := run_spec fun a ha => hsent a (hbefore.subset ha)
  obtain ⟨c₁, placed, hc₁, -, ⟨-, -, f, rfl⟩ | ⟨hnot, -⟩⟩ := hwindowed.materialise_ref hrefers.2
  · exact ⟨c₀, c₁, f, hc₀, hc₁⟩
  · exact absurd (hhits pre key payload id hrefers) hnot

/-! ## A plaintext that is pushed out -/

/-- Frames of one byte of header, and a cipher that leaves the plaintext as it is. -/
def sampleCodec : Codec where
  decodeChunkFrame
    | 0 :: _ => some ⟨1, 0, 0, 1, false⟩
    | 1 :: _ => some ⟨1, 0, 0, 1, true⟩
    | _ => none
  chunkFrameHeaderLen := 1
  decodeChunkBatch _ := none
  decryptInPlace _ ciphertext := some ciphertext

/-- The id of the key in which each digit is `0`. -/
def zeros : BlindId := ⟨List.replicate 16 0, rfl⟩

/-- One byte for one id, and a whole budget for the others. -/
def samplePlain (id : BlindId) : List UInt8 :=
  if id = zeros then [7] else List.replicate blindCacheBudget 0

/-- The key of the id whose hex digits are all the same. -/
def keyOf (digit : UInt8) : List UInt8 := List.replicate 32 digit

/-- A frame with a plaintext, under a key of one repeated digit. -/
def dataFrame (digit : UInt8) (plaintext : List UInt8) : Arrival :=
  .frame (keyOf digit) (0 :: (List.replicate 12 0 ++ plaintext))

/-- A frame that refers to the plaintext of such a key. -/
def refFrame (digit : UInt8) : Arrival := .frame (keyOf digit) [1]

theorem dataFrame_fromSender {digit : UInt8} {id : BlindId}
    (h : blindIdFromKey (keyOf digit) = some id) :
    (dataFrame digit (samplePlain id)).FromSender sampleCodec samplePlain := by
  refine ⟨_, id, rfl, h, fun _ => ⟨Nat.succ_le_succ (Nat.zero_le _), ?_⟩⟩
  show decrypt sampleCodec (List.replicate 12 0 ++ samplePlain id) = _
  have hlen : ¬ (List.replicate 12 (0 : UInt8) ++ samplePlain id).length < 12 := by
    rw [List.length_append, List.length_replicate]
    omega
  rw [decrypt, if_neg hlen]
  exact congrArg some (List.drop_left' rfl)

theorem refFrame_fromSender {digit : UInt8} {id : BlindId}
    (h : blindIdFromKey (keyOf digit) = some id) :
    (refFrame digit).FromSender sampleCodec samplePlain :=
  ⟨_, id, rfl, h, nofun⟩

theorem keyOf_zeros : blindIdFromKey (keyOf 48) = some zeros := by decide

/-- A frame with the data of the id, and the query that follows it. -/
def asked : List Arrival := [dataFrame 48 (samplePlain zeros), .query zeros]

theorem run_asked : ∃ c, run sampleCodec [dataFrame 48 (samplePlain zeros)] = .ok c ∧
    c.hasBlind zeros = true := by
  have hsent : ∀ a ∈ [dataFrame 48 (samplePlain zeros)], a.FromSender sampleCodec samplePlain := by
    intro a ha
    rw [List.mem_singleton.mp ha]
    exact dataFrame_fromSender keyOf_zeros
  obtain ⟨c, hc, hwindowed, -⟩ := run_spec hsent
  refine ⟨c, hc, ?_⟩
  have hmem : zeros ∈ window (size samplePlain) blindCacheBudget
      (admissions sampleCodec samplePlain [dataFrame 48 (samplePlain zeros)]) :=
    mem_window_iff.mpr ⟨1, by decide, by decide⟩
  rw [hasBlind, hwindowed.lookup, if_pos (hwindowed.mem_order.mpr hmem)]
  rfl

theorem refers_asked {key payload : List UInt8} :
    ¬ Refers sampleCodec asked pre key payload id := by
  intro hrefers
  have hquery : Refers sampleCodec ([dataFrame 48 (samplePlain zeros)] ++ [.query zeros]) pre key
      payload id := hrefers
  rcases refers_concat hquery with ⟨-, hne⟩ | hdata
  · cases hne
  · have hfirst :
        Refers sampleCodec ([] ++ [dataFrame 48 (samplePlain zeros)]) pre key payload id :=
      hdata
    rcases refers_concat hfirst with ⟨-, heq⟩ | hnone
    · have hid := hdata.2
      rw [← heq] at hid
      cases hid
    · exact absurd (List.prefix_nil.mp hnone.1) (by simp)

/-- The one reference comes after the answer. -/
theorem disciplined_of_asked {between : List Arrival}
    (hbetween : ∀ pre key payload id, ¬ Refers sampleCodec (asked ++ between) pre key payload id) :
    Disciplined sampleCodec (asked ++ between ++ [refFrame 48]) := by
  intro pre key payload id hrefers
  rcases refers_concat hrefers with ⟨rfl, heq⟩ | hbefore
  · have hid := hrefers.2
    rw [← heq] at hid
    obtain rfl := Option.some.inj (hid.symm.trans keyOf_zeros)
    obtain ⟨c, hc, hhas⟩ := run_asked
    exact ⟨_, c, List.prefix_append _ _, hc, hhas⟩
  · exact absurd hbefore (hbetween pre key payload id)

theorem dedup_safe_iff_asked : ∃ c, run sampleCodec (asked ++ [] ++ [refFrame 48]) = .ok c ∧
    ((c.cacheMiss = 0 ∧ ∀ pre key payload id,
        Refers sampleCodec (asked ++ [] ++ [refFrame 48]) pre key payload id →
          ∃ c₀ c₁ f, run sampleCodec pre = .ok c₀ ∧
            c₀.materialise sampleCodec key payload = .ok (c₁, some (f, samplePlain id))) ↔
      ∀ pre key payload id, Refers sampleCodec (asked ++ [] ++ [refFrame 48]) pre key payload id →
        ∀ n, since (size samplePlain) id (admissions sampleCodec samplePlain pre) = some n →
          n ≤ blindCacheBudget) := by
  have hsent : ∀ a ∈ asked ++ [] ++ [refFrame 48], a.FromSender sampleCodec samplePlain := by
    intro a ha
    simp only [asked, List.append_nil, List.cons_append, List.nil_append, List.mem_cons,
      List.not_mem_nil, or_false] at ha
    rcases ha with rfl | rfl | rfl
    · exact dataFrame_fromSender keyOf_zeros
    · trivial
    · exact refFrame_fromSender keyOf_zeros
  have hbetween : ∀ pre key payload id,
      ¬ Refers sampleCodec (asked ++ []) pre key payload id := fun _ _ _ _ => by
    rw [List.append_nil]
    exact refers_asked
  exact dedup_safe_iff hsent (disciplined_of_asked hbetween)

/-- The id whose plaintext fills the budget. -/
def ones : BlindId := ⟨List.replicate 16 17, rfl⟩

theorem keyOf_ones : blindIdFromKey (keyOf 49) = some ones := by decide

theorem samplePlain_ones : samplePlain ones = List.replicate blindCacheBudget 0 :=
  if_neg (by decide)

/-- **A true answer does not keep a plaintext there**: one more data frame, between the
answer and the reference, pushes it out, and the reference is lost. -/
theorem reference_missed :
    ¬ ∀ (codec : Codec) (plain : BlindId → List UInt8) (as : List Arrival),
        (∀ a ∈ as, a.FromSender codec plain) → Disciplined codec as →
        ∃ c, run codec as = .ok c ∧ c.cacheMiss = 0 := by
  intro h
  have hsent : ∀ a ∈ asked ++ [dataFrame 49 (samplePlain ones)] ++ [refFrame 48],
      a.FromSender sampleCodec samplePlain := by
    intro a ha
    simp only [asked, List.cons_append, List.nil_append, List.mem_cons, List.not_mem_nil,
      or_false] at ha
    rcases ha with rfl | rfl | rfl | rfl
    · exact dataFrame_fromSender keyOf_zeros
    · trivial
    · exact dataFrame_fromSender keyOf_ones
    · exact refFrame_fromSender keyOf_zeros
  have hbetween : ∀ pre key payload id, ¬ Refers sampleCodec
      (asked ++ [dataFrame 49 (samplePlain ones)]) pre key payload id := by
    intro pre key payload id hrefers
    rcases refers_concat hrefers with ⟨-, heq⟩ | hbefore
    · have hid := hrefers.2
      rw [← heq] at hid
      cases hid
    · exact refers_asked hbefore
  obtain ⟨c, hc, hmiss⟩ := h _ _ _ hsent (disciplined_of_asked hbetween)
  obtain ⟨c', hc', -, hiff⟩ := run_spec hsent
  obtain rfl : c = c' := Except.ok.inj (hc.symm.trans hc')
  have hwithin := (hits_concat.mp (hiff.mp hmiss)).2 zeros keyOf_zeros
  have hfirst : admissions sampleCodec samplePlain asked = [zeros] := by decide
  have hdata : (dataFrame 49 (samplePlain ones)).dataId sampleCodec = some ones := keyOf_ones
  have hnone : since (size samplePlain) ones [zeros] = none := by decide
  have hnew : ones ∉ window (size samplePlain) blindCacheBudget [zeros] := by
    intro hmem
    obtain ⟨n, hn, -⟩ := mem_window_iff.mp hmem
    rw [hnone] at hn
    cases hn
  rw [admissions_concat, hdata, hfirst] at hwithin
  simp only [enter, if_neg hnew] at hwithin
  obtain ⟨n, hn, hle⟩ := mem_window_iff.mp hwithin
  have hsize : size samplePlain ones = blindCacheBudget := by
    rw [size, samplePlain_ones, List.length_replicate]
  have hne : ones ≠ zeros := by decide
  have hlast : since (size samplePlain) zeros [zeros] = some 1 := by decide
  rw [since, if_neg hne, hlast, Option.map_some, hsize] at hn
  rw [← Option.some.inj hn] at hle
  exact absurd hle (Nat.not_succ_le_self _)

end BlindCache
end SovProbe
