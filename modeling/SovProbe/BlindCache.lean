import SovProbe.Reassembler
import SovProbe.FifoWindow

/-! # The cache behind the EXISTS answers

The part of `Reassembler` in `sub_save_test.rs` that keeps plaintexts by their blind id,
`cache_insert`, `blind_id_from_key` and `has_blind`, and what puts frames into effect,
`on_chunk_frame` and `on_batch_frame`.  The frame formats and the cipher are libraries
outside the source, so they are parameters.
-/

namespace SovProbe
open Checked Process FifoWindow

/-- `[u8; 16]` -/
abbrev BlindId := { bytes : List UInt8 // bytes.length = 16 }

/-- The header of a chunk frame, decoded. -/
structure ChunkFrame where
  devId : UInt32
  segmentSeq : UInt32
  startOffset : Nat
  chunkLen : UInt32
  refOnly : Bool

/-- A chunk of a batch, still encrypted. -/
structure BatchEntry where
  startOffset : Nat
  chunkLen : UInt32
  payload : List UInt8

/-- A batch frame, decoded. -/
structure ChunkBatch where
  devId : UInt32
  segmentSeq : UInt32
  entries : List BatchEntry

/-- The libraries: the frame formats, and the cipher under the key in use, from nonce and
ciphertext. -/
structure Codec where
  decodeChunkFrame : List UInt8 → Option ChunkFrame
  chunkFrameHeaderLen : Nat
  decodeChunkBatch : List UInt8 → Option ChunkBatch
  decryptInPlace : List UInt8 → List UInt8 → Option (List UInt8)

/-- The nonce is in front of the ciphertext. -/
def decrypt (codec : Codec) (data : List UInt8) : Option (List UInt8) :=
  if data.length < 12 then none else codec.decryptInPlace (data.take 12) (data.drop 12)

/-! ## Keys -/

/-- The value of an ASCII hex digit. -/
def hexDigit (b : UInt8) : Option UInt8 :=
  if 48 ≤ b ∧ b ≤ 57 then some (b - 48)
  else if 97 ≤ b ∧ b ≤ 102 then some (b - 87)
  else if 65 ≤ b ∧ b ≤ 70 then some (b - 55)
  else none

/-- `hex::decode` -/
def hexDecode : List UInt8 → Option (List UInt8)
  | [] => some []
  | [_] => none
  | a :: b :: rest => do return (16 * (← hexDigit a) + (← hexDigit b)) :: (← hexDecode rest)

/-- `blind_id_from_key`: the last segment of the key, 32 hex digits. -/
def blindIdFromKey (key : List UInt8) : Option BlindId := do
  let hexStr := (key.reverse.takeWhile (· ≠ 47)).reverse
  if hexStr.length = 32 ∧ hexStr.all fun b => (hexDigit b).isSome then
    let bytes ← hexDecode hexStr
    if h : bytes.length = 16 then some ⟨bytes, h⟩ else none
  else none

/-! ## The cache -/

/-- `BLIND_CACHE_BUDGET` -/
def blindCacheBudget : Nat := 64 * 1024 * 1024

/-- The part of the receiver that knows plaintexts by their blind id, with the counters beside
it. -/
structure BlindCache where
  blindCache : AList fun _ : BlindId => List UInt8 := ∅
  /-- The order of insertion, oldest first. -/
  blindOrder : List BlindId := []
  blindCacheBytes : Nat := 0
  blindCacheEvicted : Nat := 0
  totalChunks : Nat := 0
  totalRefs : Nat := 0
  unframedDropped : Nat := 0
  cacheMiss : Nat := 0
  framesBySegment : AList fun _ : SegmentKey => Nat := ∅

namespace BlindCache

/-- The loop of `cache_insert`, over what is left of `blind_order`. -/
def evictLoop : List BlindId → BlindCache → Checked BlindCache
  | [], self => return self
  | oldest :: order, self =>
    if self.blindCacheBytes > blindCacheBudget then do
      match self.blindCache.lookup oldest with
      | some v =>
        let bytes ← sub self.blindCacheBytes v.length
        evictLoop order
          { self with
            blindOrder := order
            blindCache := self.blindCache.erase oldest
            blindCacheBytes := bytes
            blindCacheEvicted := self.blindCacheEvicted + 1 }
      | none => evictLoop order { self with blindOrder := order }
    else return self

/-- `cache_insert`: what is over the budget leaves in the order in which it came. -/
def cacheInsert (self : BlindCache) (blindId : BlindId) (bytes : List UInt8) :
    Checked BlindCache := do
  let len := bytes.length
  let self ←
    match self.blindCache.lookup blindId with
    | some old => do
      let rest ← sub self.blindCacheBytes old.length
      pure
        { self with
          blindCache := self.blindCache.insert blindId bytes
          blindCacheBytes := rest }
    | none =>
      pure
        { self with
          blindCache := self.blindCache.insert blindId bytes
          blindOrder := self.blindOrder ++ [blindId] }
  let self := { self with blindCacheBytes := self.blindCacheBytes + len }
  evictLoop self.blindOrder self

/-- `on_chunk_frame` up to the placing: the frame and the plaintext to place, if any. -/
def materialise (codec : Codec) (self : BlindCache) (key payload : List UInt8) :
    Checked (BlindCache × Option (ChunkFrame × List UInt8)) := do
  match codec.decodeChunkFrame payload with
  | none => return ({ self with unframedDropped := self.unframedDropped + 1 }, none)
  | some frame =>
    let blindId := blindIdFromKey key
    let segment := (frame.devId, frame.segmentSeq)
    let count := (self.framesBySegment.lookup segment).getD 0
    let self :=
      { self with
        totalChunks := self.totalChunks + 1
        framesBySegment := self.framesBySegment.insert segment (count + 1) }
    if frame.refOnly then
      let self := { self with totalRefs := self.totalRefs + 1 }
      match blindId.bind fun id => self.blindCache.lookup id with
      | some b => return (self, some (frame, b))
      | none => return ({ self with cacheMiss := self.cacheMiss + 1 }, none)
    else
      let cipher ← slice payload codec.chunkFrameHeaderLen payload.length
      match decrypt codec cipher with
      | some p =>
        match blindId with
        | some id => return (← self.cacheInsert id p, some (frame, p))
        | none => return (self, some (frame, p))
      | none => return (self, none)

/-- `has_blind`, the answer to an EXISTS query. -/
def hasBlind (self : BlindCache) (blindId : BlindId) : Bool :=
  (self.blindCache.lookup blindId).isSome

end BlindCache

/-- The receiver with its cache. -/
structure Receiver where
  blind : BlindCache
  reassembler : Reassembler

/-- `on_chunk_frame` -/
def onChunkFrame (codec : Codec) (env : Environment) (key payload : List UInt8) :
    Process FileSystem Receiver Unit := do
  match (← get).blind.materialise codec key payload with
  | .error _ => fail
  | .ok (blind, placed) =>
    modify fun self => { self with blind }
    match placed with
    | some (frame, plaintext) =>
      -- a length other than `chunk_len` is only logged
      zoom (fun self => self.reassembler) (fun r self => { self with reassembler := r })
        (Reassembler.placeRaw env frame.devId frame.segmentSeq frame.startOffset plaintext)
    | none => return ()

/-- The loop body of `on_batch_frame`. -/
def onBatchEntry (codec : Codec) (env : Environment) (devId segmentSeq : UInt32)
    (entry : BatchEntry) : Process FileSystem Receiver Unit := do
  modify fun self =>
    let count := (self.blind.framesBySegment.lookup (devId, segmentSeq)).getD 0
    { self with
      blind := { self.blind with
        totalChunks := self.blind.totalChunks + 1
        framesBySegment := self.blind.framesBySegment.insert (devId, segmentSeq) (count + 1) } }
  match decrypt codec entry.payload with
  | some plaintext =>
    -- and here, too
    zoom (fun self => self.reassembler) (fun r self => { self with reassembler := r })
      (Reassembler.placeRaw env devId segmentSeq entry.startOffset plaintext)
  | none => return ()

/-- `on_batch_frame`; each entry has its own environment. -/
def onBatchFrame (codec : Codec) (env : Nat → Environment) (payload : List UInt8) :
    Process FileSystem Receiver Unit := do
  match codec.decodeChunkBatch payload with
  | some batch =>
    batch.entries.zipIdx.forM fun e => onBatchEntry codec (env e.2) batch.devId batch.segmentSeq e.1
  | none =>
    modify fun self =>
      { self with blind := { self.blind with unframedDropped := self.blind.unframedDropped + 1 } }

/-- What a frame does to the cache does not depend on its placing. -/
theorem onChunkFrame_blind {codec : Codec} {env : Environment} {key payload : List UInt8}
    {fs t : FileSystem} {self self' : Receiver}
    (h : (onChunkFrame codec env key payload fs self).outcome = .done () t self') :
    ∃ placed, self.blind.materialise codec key payload = .ok (self'.blind, placed) := by
  have hrun : (onChunkFrame codec env key payload).Holds (fun _ => True)
      ⟨fun _ _ self' => ∃ placed, self.blind.materialise codec key payload =
        .ok (self'.blind, placed), fun _ _ => True, True⟩ fs self := by
    unfold onChunkFrame
    rw [holds_get_bind]
    cases hmaterialised : self.blind.materialise codec key payload with
    | error e => exact holds_fail.mpr trivial
    | ok result =>
      obtain ⟨blind, placed⟩ := result
      dsimp only
      rw [holds_modify_bind]
      cases placed with
      | none => exact (holds_pure _).mpr ⟨_, rfl⟩
      | some placed =>
        refine holds_zoom.mpr ⟨fun _ _ => trivial, ?_⟩
        unfold Post.Met
        split
        · exact ⟨_, rfl⟩
        · trivial
        · trivial
  exact hrun.done h

/-! ## The cache is a window -/

namespace BlindCache
variable {plain : BlindId → List UInt8} {c : BlindCache} {log : List BlindId} {id : BlindId}

/-- The size of an id's plaintext. -/
def size (plain : BlindId → List UInt8) (id : BlindId) : Nat := (plain id).length

/-- The cache holds the plaintexts of the ids in the queue, and its size. -/
structure Holding (plain : BlindId → List UInt8) (c : BlindCache) : Prop where
  lookup : ∀ id, c.blindCache.lookup id = if id ∈ c.blindOrder then some (plain id) else none
  bytes : c.blindCacheBytes = weight (size plain) c.blindOrder
  nodup : c.blindOrder.Nodup

/-- The cache is the window of the admission log. -/
structure Windowed (plain : BlindId → List UInt8) (log : List BlindId) (c : BlindCache) : Prop
    extends Holding plain c where
  order : c.blindOrder.reverse = window (size plain) blindCacheBudget log

/-- What an insertion leaves alone. -/
structure SameCounts (c c' : BlindCache) : Prop where
  totalChunks : c'.totalChunks = c.totalChunks
  totalRefs : c'.totalRefs = c.totalRefs
  unframedDropped : c'.unframedDropped = c.unframedDropped
  cacheMiss : c'.cacheMiss = c.cacheMiss
  framesBySegment : c'.framesBySegment = c.framesBySegment

/-! ## What one insertion changes -/

namespace Holding

/-- The oldest plaintext goes. -/
theorem removeOldest {oldest : BlindId} {order : List BlindId} (h : Holding plain c)
    (horder : c.blindOrder = oldest :: order) : Holding plain { c with
      blindOrder := order
      blindCache := c.blindCache.erase oldest
      blindCacheBytes := weight (size plain) order
      blindCacheEvicted := c.blindCacheEvicted + 1 } := by
  have hnodup := h.nodup
  rw [horder, List.nodup_cons] at hnodup
  refine ⟨fun id => ?_, rfl, hnodup.2⟩
  show (c.blindCache.erase oldest).lookup id = _
  by_cases heq : id = oldest
  · rw [heq, AList.lookup_erase, if_neg hnodup.1]
  · rw [AList.lookup_erase_ne heq, h.lookup, horder]
    simp only [List.mem_cons, heq, false_or]

theorem size_update (plain : BlindId → List UInt8) (id : BlindId) (bytes : List UInt8) :
    size (Function.update plain id bytes) = Function.update (size plain) id bytes.length := by
  funext id'
  by_cases heq : id' = id
  · rw [size, heq, Function.update_self, Function.update_self]
  · rw [size, Function.update_of_ne heq, Function.update_of_ne heq, size]

/-- The plaintext that was there is replaced. -/
theorem replace (h : Holding plain c) (hmem : id ∈ c.blindOrder) (bytes : List UInt8) :
    Holding (Function.update plain id bytes) { c with
      blindCache := c.blindCache.insert id bytes
      blindCacheBytes := c.blindCacheBytes - size plain id + bytes.length } := by
  refine ⟨fun id' => ?_, ?_, h.nodup⟩
  · show (c.blindCache.insert id bytes).lookup id' = _
    by_cases heq : id' = id
    · rw [heq, AList.lookup_insert, if_pos hmem, Function.update_self]
    · rw [AList.lookup_insert_ne heq, h.lookup, Function.update_of_ne heq]
  · show c.blindCacheBytes - size plain id + bytes.length =
      weight (size (Function.update plain id bytes)) c.blindOrder
    have hreplaced := weight_update (w := size plain) h.nodup hmem bytes.length
    have hle := le_weight (w := size plain) hmem
    rw [size_update, h.bytes]
    omega

/-- A new plaintext is the youngest. -/
theorem pushBack (h : Holding plain c) (hmem : id ∉ c.blindOrder) (bytes : List UInt8) :
    Holding (Function.update plain id bytes) { c with
      blindCache := c.blindCache.insert id bytes
      blindOrder := c.blindOrder ++ [id]
      blindCacheBytes := c.blindCacheBytes + bytes.length } := by
  refine ⟨fun id' => ?_, ?_, ?_⟩
  · show (c.blindCache.insert id bytes).lookup id' = if id' ∈ c.blindOrder ++ [id] then _ else _
    by_cases heq : id' = id
    · rw [heq, AList.lookup_insert, if_pos (List.mem_append_right _ List.mem_cons_self),
        Function.update_self]
    · rw [AList.lookup_insert_ne heq, h.lookup, Function.update_of_ne heq]
      simp only [List.mem_append, List.mem_singleton, heq, or_false]
  · show c.blindCacheBytes + bytes.length =
      weight (size (Function.update plain id bytes)) (c.blindOrder ++ [id])
    rw [size_update, weight_append, weight_update_of_notMem hmem, weight_cons, h.bytes,
      Function.update_self]
    rfl
  · refine List.nodup_append.mpr ⟨h.nodup, List.nodup_singleton id, ?_⟩
    rintro a ha b hb rfl
    exact hmem (List.mem_singleton.mp hb ▸ ha)

end Holding

/-- **The eviction loop** leaves the window. -/
theorem evictLoop_eq (order : List BlindId) : ∀ c, Holding plain c → c.blindOrder = order →
    ∃ c', evictLoop order c = .ok c' ∧ Holding plain c' ∧ SameCounts c c' ∧
      c'.blindOrder.reverse = window (size plain) blindCacheBudget order.reverse := by
  induction order with
  | nil =>
    intro c h horder
    refine ⟨c, rfl, h, ⟨rfl, rfl, rfl, rfl, rfl⟩, ?_⟩
    rw [horder]
    rfl
  | cons oldest order ih =>
    intro c h horder
    have hweight : c.blindCacheBytes = size plain oldest + weight (size plain) order := by
      rw [h.bytes, horder, weight_cons]
    unfold evictLoop
    by_cases hover : c.blindCacheBytes > blindCacheBudget
    · have hlookup : c.blindCache.lookup oldest = some (plain oldest) := by
        rw [h.lookup, horder, if_pos List.mem_cons_self]
      have hsub : sub c.blindCacheBytes (plain oldest).length =
          .ok (weight (size plain) order) := by
        rw [sub_of_le (by rw [hweight]; exact Nat.le_add_right _ _), hweight]
        exact congrArg _ (Nat.add_sub_cancel_left _ _)
      rw [if_pos hover]
      simp only [hlookup, hsub, ok_bind]
      obtain ⟨c', hc', hholding, hcounts, hwindow⟩ := ih _ (h.removeOldest horder) rfl
      refine ⟨c', hc', hholding, { hcounts with }, ?_⟩
      rw [hwindow, List.reverse_cons, window_concat]
      rw [← List.reverse_cons, weight_reverse, weight_cons, ← hweight]
      exact hover
    · rw [if_neg hover]
      refine ⟨c, rfl, h, ⟨rfl, rfl, rfl, rfl, rfl⟩, ?_⟩
      rw [horder, window_of_fits]
      rw [weight_reverse, weight_cons, ← hweight]
      exact Nat.not_lt.mp hover

/-- A cache that has not got anything. -/
theorem Windowed.empty : Windowed plain [] {} where
  lookup _ := rfl
  bytes := rfl
  nodup := List.nodup_nil
  order := rfl

theorem Windowed.mem_order (h : Windowed plain log c) :
    id ∈ c.blindOrder ↔ id ∈ window (size plain) blindCacheBudget log := by
  rw [← h.order, List.mem_reverse]

/-- The queue with an id that is inserted: an id that is there keeps its place. -/
def admitted (c : BlindCache) (id : BlindId) : List BlindId :=
  if id ∈ c.blindOrder then c.blindOrder else c.blindOrder ++ [id]

/-- **`cache_insert`**, of any bytes for any id: the id's plaintext is these bytes from now
on, and what is kept is the window. -/
theorem Holding.cacheInsert (h : Holding plain c) (id : BlindId) (bytes : List UInt8) :
    ∃ c', c.cacheInsert id bytes = .ok c' ∧ SameCounts c c' ∧
      Holding (Function.update plain id bytes) c' ∧ c'.blindOrder.reverse =
        window (size (Function.update plain id bytes)) blindCacheBudget
          (c.admitted id).reverse := by
  unfold BlindCache.cacheInsert admitted
  by_cases hmem : id ∈ c.blindOrder
  · have hlookup : c.blindCache.lookup id = some (plain id) := by rw [h.lookup, if_pos hmem]
    have hle : size plain id ≤ c.blindCacheBytes := by
      rw [h.bytes]
      exact le_weight hmem
    have hsub : sub c.blindCacheBytes (plain id).length = .ok (c.blindCacheBytes - size plain id) :=
      sub_of_le hle
    obtain ⟨c', hc', hholding, hcounts, hwindow⟩ := evictLoop_eq _ _ (h.replace hmem bytes) rfl
    refine ⟨c', ?_, { hcounts with }, hholding, ?_⟩
    · simp only [hlookup, hsub, ok_bind, pure_eq]
      exact hc'
    · rw [if_pos hmem]
      exact hwindow
  · have hlookup : c.blindCache.lookup id = none := by rw [h.lookup, if_neg hmem]
    obtain ⟨c', hc', hholding, hcounts, hwindow⟩ := evictLoop_eq _ _ (h.pushBack hmem bytes) rfl
    refine ⟨c', ?_, { hcounts with }, hholding, ?_⟩
    · simp only [hlookup, ok_bind, pure_eq]
      exact hc'
    · rw [if_neg hmem]
      exact hwindow

/-- **Inserting an id's plaintext** enters it in the log. -/
theorem Windowed.cacheInsert (h : Windowed plain log c) (id : BlindId) :
    ∃ c', c.cacheInsert id (plain id) = .ok c' ∧ SameCounts c c' ∧
      Windowed plain (enter (size plain) blindCacheBudget log id) c' := by
  obtain ⟨c', hc', hcounts, hholding, hwindow⟩ := h.toHolding.cacheInsert id (plain id)
  rw [Function.update_eq_self] at hholding hwindow
  refine ⟨c', hc', hcounts, hholding, hwindow.trans ?_⟩
  unfold admitted
  by_cases hmem : id ∈ c.blindOrder
  · have henter : enter (size plain) blindCacheBudget log id = log := if_pos (h.mem_order.mp hmem)
    rw [if_pos hmem, henter, h.order, window_window (Nat.le_refl _)]
  · have henter : enter (size plain) blindCacheBudget log id = id :: log :=
      if_neg (mt h.mem_order.mpr hmem)
    rw [if_neg hmem, henter, List.reverse_append, h.order]
    exact window_cons_window id

end BlindCache
end SovProbe
