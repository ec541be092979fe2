import SovProbe.PipelineLog
import Mathlib.Data.List.Forall2

/-! # The order of the frames

Frames are taken one after the other, and each becomes at most one record; so the records
put into the queue are those of some of the frames taken, in their order.  The queue and
the writer keep the order.
-/

namespace List
variable {α β γ : Type} {R : α → β → Prop} {as bs : List α} {cs ds : List β}

theorem SublistForall₂.of_sublist_left (h : SublistForall₂ R as cs) (hsub : bs <+ as) :
    SublistForall₂ R bs cs := by
  induction h generalizing bs with
  | nil =>
    rw [sublist_nil.mp hsub]
    exact .nil
  | cons hR _ ih =>
    cases hsub with
    | cons _ hsub => exact .cons_right (ih hsub)
    | cons_cons _ hsub => exact .cons hR (ih hsub)
  | cons_right _ ih => exact .cons_right (ih hsub)

theorem SublistForall₂.of_sublist_right (h : SublistForall₂ R as cs) (hsub : cs <+ ds) :
    SublistForall₂ R as ds := by
  obtain ⟨l, hl, hle⟩ := sublistForall₂_iff.mp h
  exact sublistForall₂_iff.mpr ⟨l, hl, hle.trans hsub⟩

theorem SublistForall₂.append (h : SublistForall₂ R as cs) (h' : SublistForall₂ R bs ds) :
    SublistForall₂ R (as ++ bs) (cs ++ ds) := by
  obtain ⟨l, hl, hle⟩ := sublistForall₂_iff.mp h
  obtain ⟨l', hl', hle'⟩ := sublistForall₂_iff.mp h'
  exact sublistForall₂_iff.mpr ⟨l ++ l', rel_append hl hl', hle.append hle'⟩

theorem SublistForall₂.exists_of_mem (h : SublistForall₂ R as cs) {a : α} (ha : a ∈ as) :
    ∃ c ∈ cs, R a c := by
  induction h with
  | nil => cases ha
  | cons hR _ ih =>
    rcases mem_cons.mp ha with rfl | hmem
    · exact ⟨_, mem_cons_self, hR⟩
    · obtain ⟨c, hc, hac⟩ := ih hmem
      exact ⟨c, mem_cons_of_mem _ hc, hac⟩
  | cons_right _ ih =>
    obtain ⟨c, hc, hac⟩ := ih ha
    exact ⟨c, mem_cons_of_mem _ hc, hac⟩

end List

namespace SovProbe
namespace Pipeline
variable {Frame Record : Type} {cfg : Config} {slice : Frame → Option (UInt64 → Bool → Record)}
  {s t : Traced Frame Record} {as : List (Action Frame)}

/-- The slicer makes this record of the frame, at some time and under some flag. -/
def MadeFrom (slice : Frame → Option (UInt64 → Bool → Record)) (record : Record) (frame : Frame) :
    Prop :=
  ∃ make tsNs degraded, slice frame = some make ∧ record = make tsNs degraded

/-- The frame whose fate is still open. -/
def undecided : CapturePc Frame Record → List Frame
  | .taken frame => [frame]
  | .checked frame => [frame]
  | _ => []

/-- The record in `tx.send`. -/
def offered : CapturePc Frame Record → List Record
  | .sending record => [record]
  | _ => []

/-- The records put into the queue, and the one in `tx.send`, are those of frames taken
before, in their order. -/
def InOrder (slice : Frame → Option (UInt64 → Bool → Record)) (s : Traced Frame Record) : Prop :=
  ∃ decided, Event.taken s.log = decided ++ undecided s.state.capture ∧
    List.SublistForall₂ (MadeFrom slice) (Event.enqueued s.log ++ offered s.state.capture) decided

/-- A step that takes no frame, enqueues no record and leaves the capture thread where it is. -/
theorem InOrder.of_same {es : List (Event Frame Record)} (h : InOrder slice s)
    (hlog : t.log = s.log ++ es) (hcapture : t.state.capture = s.state.capture)
    (htaken : Event.taken es = []) (henqueued : Event.enqueued es = []) : InOrder slice t := by
  unfold InOrder
  rw [hlog, Event.taken_append, Event.enqueued_append, htaken, henqueued, hcapture,
    List.append_nil, List.append_nil]
  exact h

/-- The writer neither takes frames nor enqueues records. -/
theorem writerEvents_silent (s : State Frame Record) (a : WriterAction) :
    Event.taken (writerEvents s a) = [] ∧ Event.enqueued (writerEvents s a) = [] := by
  cases a with
  | recv => cases hq : s.queue <;> simp [writerEvents, hq, Event.taken, Event.enqueued]
  | handleRecord =>
    cases hw : s.writer <;> cases hd : s.degraded <;>
      simp [writerEvents, hw, hd, Event.taken, Event.enqueued]
  | writeAll ok =>
    cases hw : s.writer <;> cases ok <;> simp [writerEvents, hw, Event.taken, Event.enqueued]
  | openSegment ok => exact ⟨rfl, rfl⟩
  | hotPathCheck => exact ⟨rfl, rfl⟩
  | timeout => exact ⟨rfl, rfl⟩
  | disconnected => exact ⟨rfl, rfl⟩
  | maybeRotate ok => exact ⟨rfl, rfl⟩

theorem InOrder.captureStep {a : CaptureAction Frame} (h : InOrder slice s)
    (hstep : captureStep cfg slice s.state a = some t.state)
    (hlog : t.log = s.log ++ captureEvents slice s.state s.takenDegraded a) : InOrder slice t := by
  obtain ⟨decided, htaken, horder⟩ := h
  unfold InOrder
  rw [hlog, Event.taken_append, Event.enqueued_append, htaken]
  cases a with
  | next frame =>
    cases hc : s.state.capture <;> simp only [Pipeline.captureStep, hc, reduceCtorEq] at hstep
    rw [hc] at horder
    rw [← Option.some.inj hstep]
    refine ⟨decided, ?_, ?_⟩
    · simp [undecided, captureEvents, Event.taken]
    · simpa [captureEvents, Event.enqueued, offered] using horder
  | pollFails =>
    cases hc : s.state.capture <;> simp only [Pipeline.captureStep, hc, reduceCtorEq] at hstep
    rw [hc] at horder
    rw [← Option.some.inj hstep]
    refine ⟨decided, List.append_nil _, ?_⟩
    simpa [captureEvents, Event.enqueued, offered] using horder
  | isDegraded =>
    cases hc : s.state.capture <;> simp only [Pipeline.captureStep, hc, reduceCtorEq] at hstep
    rename_i frame
    rw [hc] at horder
    simp only [captureEvents, hc]
    cases hd : s.state.degraded with
    | true =>
      rw [hd, if_pos rfl] at hstep
      rw [← Option.some.inj hstep]
      refine ⟨decided ++ [frame], ?_, ?_⟩
      · simp [undecided, Event.taken]
      · have hwider := horder.of_sublist_right (List.sublist_append_left decided [frame])
        simpa [Event.enqueued, offered] using hwider
    | false =>
      rw [hd, if_neg Bool.false_ne_true] at hstep
      rw [← Option.some.inj hstep]
      refine ⟨decided, ?_, ?_⟩
      · simp [undecided, Event.taken]
      · simpa [Event.enqueued, offered] using horder
  | process tsNs =>
    cases hc : s.state.capture <;> simp only [Pipeline.captureStep, hc, reduceCtorEq] at hstep
    rename_i frame
    rw [hc] at horder
    simp only [captureEvents, hc]
    cases hs : slice frame with
    | none =>
      rw [hs] at hstep
      rw [← Option.some.inj hstep]
      refine ⟨decided ++ [frame], ?_, ?_⟩
      · simp [undecided, Event.taken]
      · have hwider := horder.of_sublist_right (List.sublist_append_left decided [frame])
        simpa [Event.enqueued, offered] using hwider
    | some make =>
      rw [hs] at hstep
      rw [← Option.some.inj hstep]
      -- the frame becomes a record, the latest one
      have hmade : MadeFrom slice (make tsNs s.state.degraded) frame :=
        ⟨make, tsNs, s.state.degraded, hs, rfl⟩
      refine ⟨decided ++ [frame], ?_, ?_⟩
      · simp [undecided, Event.taken]
      · have hlonger := horder.append (List.SublistForall₂.cons hmade (.nil (l := [])))
        simpa [Event.enqueued, offered] using hlonger
  | send =>
    cases hc : s.state.capture <;> simp only [Pipeline.captureStep, hc, reduceCtorEq] at hstep
    rename_i record
    rw [hc] at horder
    simp only [captureEvents, hc]
    by_cases hreceivers : s.state.receivers = 0
    · rw [if_pos hreceivers] at hstep
      rw [if_pos hreceivers, ← Option.some.inj hstep]
      refine ⟨decided, by simp [undecided, Event.taken], ?_⟩
      have hfewer := horder.of_sublist_left (List.sublist_append_left (Event.enqueued s.log) _)
      simpa [Event.enqueued, offered] using hfewer
    · rw [if_neg hreceivers] at hstep
      by_cases hroom : s.state.queue.length < cfg.queueCapacity.toNat
      · rw [if_pos hroom] at hstep
        rw [if_neg hreceivers, ← Option.some.inj hstep]
        refine ⟨decided, by simp [undecided, Event.taken], ?_⟩
        simpa [Event.enqueued, offered] using horder
      · rw [if_neg hroom] at hstep
        cases hstep

theorem InOrder.tracedStep {a : Action Frame} (h : InOrder slice s)
    (hstep : tracedStep cfg slice s a = some t) : InOrder slice t := by
  obtain ⟨hstate, -, hlog⟩ := tracedStep_eq_some.mp hstep
  cases a with
  | capture a => exact h.captureStep hstate hlog
  | writer a =>
    obtain ⟨htaken, henqueued⟩ := writerEvents_silent s.state a
    refine h.of_same hlog ?_ htaken henqueued
    obtain ⟨-, hexits | ⟨-, -, hcapture, -⟩⟩ := writerStep_cases hstate
    · rw [hexits, writerExits_capture]
    · exact hcapture
  | sampler resident load =>
    refine h.of_same hlog ?_ rfl rfl
    rw [← Option.some.inj hstate]

/-- **The queue keeps the order.** -/
theorem inOrder_of_run (h : tracedRun cfg slice as = some t) : InOrder slice t := by
  have hinit : InOrder slice ({} : Traced Frame Record) := ⟨[], rfl, .nil⟩
  exact Transition.run_invariant (fun _ _ _ hs ha => hs.tracedStep ha) hinit h

theorem Event.written_sublist_handled (es : List (Event Frame Record)) :
    (Event.written es).Sublist (Event.handled es) := by
  induction es with
  | nil => exact List.Sublist.refl _
  | cons e es ih => cases e <;> simp [Event.written, Event.handled] at ih ⊢ <;> simp [ih]

/-- **What has been written, and behind it what is on its way**, was made from frames taken, in
their order. -/
theorem InOrder.written (h : InOrder slice t) (hlogged : Logged t) :
    List.SublistForall₂ (MadeFrom slice)
      (Event.written t.log ++
        (inHand t.state.writer ++ t.state.queue ++ offered t.state.capture))
      (Event.taken t.log) := by
  obtain ⟨decided, htaken, horder⟩ := h
  have hqueue : Event.enqueued t.log = Event.received t.log ++ t.state.queue :=
    hlogged.effect.queue
  have hwriter : Event.received t.log = Event.handled t.log ++ inHand t.state.writer :=
    hlogged.effect.writer
  rw [hqueue, hwriter] at horder
  rw [htaken]
  refine (horder.of_sublist_left ?_).of_sublist_right (List.sublist_append_left _ _)
  simp only [List.append_assoc]
  exact (Event.written_sublist_handled t.log).append_right _

/-! ## What is made of the frames -/

/-- Every record put into the queue, and the one in `tx.send`, is of this kind. -/
def MadeAll (P : Record → Prop) (s : Traced Frame Record) : Prop :=
  ∀ r ∈ Event.enqueued s.log ++ offered s.state.capture, P r

/-- The capture thread makes a record only with `process`. -/
theorem MadeAll.captureStep {P : Record → Prop} {a : CaptureAction Frame} (h : MadeAll P s)
    (hmade : ∀ tsNs, a = .process tsNs → ∀ frame make degraded,
      slice frame = some make → P (make tsNs degraded))
    (hstep : captureStep cfg slice s.state a = some t.state)
    (hlog : t.log = s.log ++ captureEvents slice s.state s.takenDegraded a) : MadeAll P t := by
  unfold MadeAll at h ⊢
  rw [hlog, Event.enqueued_append]
  cases a with
  | next frame =>
    cases hc : s.state.capture <;> simp only [Pipeline.captureStep, hc, reduceCtorEq] at hstep
    rw [hc] at h
    rw [← Option.some.inj hstep]
    simpa [captureEvents, Event.enqueued, offered] using h
  | pollFails =>
    cases hc : s.state.capture <;> simp only [Pipeline.captureStep, hc, reduceCtorEq] at hstep
    rw [hc] at h
    rw [← Option.some.inj hstep]
    simpa [captureEvents, Event.enqueued, offered] using h
  | isDegraded =>
    cases hc : s.state.capture <;> simp only [Pipeline.captureStep, hc, reduceCtorEq] at hstep
    rw [hc] at h
    cases hd : s.state.degraded with
    | true =>
      rw [hd, if_pos rfl] at hstep
      rw [← Option.some.inj hstep]
      simpa [captureEvents, hc, hd, Event.enqueued, offered] using h
    | false =>
      rw [hd, if_neg Bool.false_ne_true] at hstep
      rw [← Option.some.inj hstep]
      simpa [captureEvents, hc, hd, Event.enqueued, offered] using h
  | process tsNs =>
    cases hc : s.state.capture <;> simp only [Pipeline.captureStep, hc, reduceCtorEq] at hstep
    rename_i frame
    rw [hc] at h
    cases hs : slice frame with
    | none =>
      rw [hs] at hstep
      rw [← Option.some.inj hstep]
      simpa [captureEvents, hc, hs, Event.enqueued, offered] using h
    | some make =>
      rw [hs] at hstep
      rw [← Option.some.inj hstep]
      -- the record that is offered now is the new one
      have hnew := hmade tsNs rfl frame make s.state.degraded hs
      simpa [captureEvents, hc, hs, Event.enqueued, offered, or_imp, forall_and, hnew] using h
  | send =>
    cases hc : s.state.capture <;> simp only [Pipeline.captureStep, hc, reduceCtorEq] at hstep
    rename_i record
    rw [hc] at h
    by_cases hreceivers : s.state.receivers = 0
    · rw [if_pos hreceivers] at hstep
      rw [← Option.some.inj hstep]
      intro r hr
      refine h r (List.mem_append_left _ ?_)
      simpa [captureEvents, hc, hreceivers, Event.enqueued, offered] using hr
    · rw [if_neg hreceivers] at hstep
      by_cases hroom : s.state.queue.length < cfg.queueCapacity.toNat
      · rw [if_pos hroom] at hstep
        rw [← Option.some.inj hstep]
        simpa [captureEvents, hc, hreceivers, Event.enqueued, offered] using h
      · rw [if_neg hroom] at hstep
        cases hstep

/-- **A step** of any of the threads. -/
theorem MadeAll.tracedStep {P : Record → Prop} {a : Action Frame} (h : MadeAll P s)
    (hmade : ∀ tsNs, a = .capture (.process tsNs) → ∀ frame make degraded,
      slice frame = some make → P (make tsNs degraded))
    (hstep : tracedStep cfg slice s a = some t) : MadeAll P t := by
  obtain ⟨hstate, -, hlog⟩ := tracedStep_eq_some.mp hstep
  have hsame : ∀ {es : List (Event Frame Record)}, t.log = s.log ++ es →
      Event.enqueued es = [] → t.state.capture = s.state.capture → MadeAll P t := by
    intro es hes henqueued hcapture
    rw [MadeAll, hes, Event.enqueued_append, henqueued, List.append_nil, hcapture]
    exact h
  cases a with
  | capture a =>
    exact h.captureStep (fun tsNs heq => hmade tsNs (congrArg _ heq)) hstate hlog
  | writer a =>
    refine hsame hlog (writerEvents_silent s.state a).2 ?_
    obtain ⟨-, hexits | ⟨-, -, hcapture, -⟩⟩ := writerStep_cases hstate
    · rw [hexits, writerExits_capture]
    · exact hcapture
  | sampler resident load => exact hsame hlog rfl (by rw [← Option.some.inj hstate])

/-- **What has been written** is of a kind that every record made in the run is of. -/
theorem written_of_run {P : Record → Prop}
    (hmade : ∀ tsNs, .capture (.process tsNs) ∈ as → ∀ frame make degraded,
      slice frame = some make → P (make tsNs degraded))
    (h : tracedRun cfg slice as = some t) : ∀ r ∈ Event.written t.log, P r := by
  have hinit : MadeAll P ({} : Traced Frame Record) := fun r hr => absurd hr List.not_mem_nil
  have hguarded : Transition.Guarded (tracedStep cfg slice)
      (fun _ a => a ∈ as) ({} : Traced Frame Record) as :=
    fun xs a hpre _ _ => hpre.subset (List.mem_append_right _ List.mem_cons_self)
  have hall : MadeAll P t := Transition.run_invariant_of_guarded
    (fun _ a _ hs ha hstep => hs.tracedStep (fun tsNs heq => hmade tsNs (heq ▸ ha)) hstep) hinit
      hguarded h
  have hlogged := logged_of_run h
  have hqueue : Event.enqueued t.log = Event.received t.log ++ t.state.queue :=
    hlogged.effect.queue
  have hwriter : Event.received t.log = Event.handled t.log ++ inHand t.state.writer :=
    hlogged.effect.writer
  intro r hr
  refine hall r (List.mem_append_left _ ?_)
  rw [hqueue, hwriter]
  exact List.mem_append_left _
    (List.mem_append_left _ ((Event.written_sublist_handled t.log).subset hr))

/-- The writer has finished with no more records than frames were taken. -/
theorem handled_le_taken (h : Logged t) :
    (Event.handled t.log).length ≤ (Event.taken t.log).length := by
  have hcapture : 0 + (Event.taken t.log).length = _ := h.effect.capture
  have hqueue := congrArg List.length h.effect.queue
  have hwriter := congrArg List.length h.effect.writer
  change ([] ++ Event.enqueued t.log).length = _ at hqueue
  change ([] ++ Event.received t.log).length = _ at hwriter
  rw [List.nil_append, List.length_append] at hqueue hwriter
  omega

end Pipeline
end SovProbe
