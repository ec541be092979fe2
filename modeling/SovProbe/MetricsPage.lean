import SovProbe.Exposition
import SovProbe.Metrics
import SovProbe.Rotate
import Mathlib.Data.Nat.Digits.Lemmas

/-! # The page of the metrics

The text of `Metrics::render`, and what `Metrics::serve` answers.  The counters are loaded one
after the other while the threads go on, so that the numbers on a page are from different
moments.  Whoever reads the answer finds the counters as they were loaded
(`Metrics.reads_of_answer`); so the page says how many records had been written and how many
the writer had dropped, and nothing of what is counted nowhere (`Pipeline.scrape_says`).
-/

namespace SovProbe
open Exposition

namespace Metrics

/-- The help text in UTF-8, four characters of three bytes each. -/
def helpText : List UInt8 :=
  [0xE6, 0x8D, 0x95, 0xE8, 0x8E, 0xB7, 0xE5, 0xB8, 0xA7, 0xE6, 0x95, 0xB0]

/-- `Metrics::render`, line by line. -/
def renderText (m : Metrics) (degradedNow : Bool) : List UInt8 :=
  [ascii "# HELP sovprobe_captured_total " ++ helpText,
    ascii "# TYPE sovprobe_captured_total counter",
    ascii "sovprobe_captured_total " ++ Decimal.pad 1 m.captured,
    ascii "# TYPE sovprobe_written_total counter",
    ascii "sovprobe_written_total " ++ Decimal.pad 1 m.written,
    ascii "# TYPE sovprobe_dropped_total counter",
    ascii "sovprobe_dropped_total " ++ Decimal.pad 1 m.dropped,
    ascii "# TYPE sovprobe_degraded_total counter",
    ascii "sovprobe_degraded_total " ++ Decimal.pad 1 m.degraded,
    ascii "# TYPE sovprobe_degraded_now gauge",
    ascii "sovprobe_degraded_now " ++ Decimal.pad 1 degradedNow.toNat,
    ascii "# TYPE sovprobe_slicer_dropped_total counter",
    ascii "sovprobe_slicer_dropped_total " ++ Decimal.pad 1 m.slicerDropped].flatMap
      fun line => line ++ ascii "\n"

/-- What `Metrics::serve` writes to a connection from which it has read a request; if there
was an error it closes it. -/
def answer (m : Metrics) (degradedNow : Bool) (request : Option (List UInt8)) :
    Option (List UInt8) :=
  match request with
  | some _ =>
    let body := m.renderText degradedNow
    some (ascii "HTTP/1.1 200 OK\r\nContent-Type: text/plain\r\nContent-Length: " ++
      Decimal.pad 1 body.length ++ ascii "\r\nConnection: close\r\n\r\n" ++ body)
  | none => none

/-- The counters fit into their `AtomicU64`. -/
structure Fits (m : Metrics) : Prop where
  captured : m.captured < 2 ^ 64
  written : m.written < 2 ^ 64
  dropped : m.dropped < 2 ^ 64
  degraded : m.degraded < 2 ^ 64
  slicerDropped : m.slicerDropped < 2 ^ 64

/-! ## The page -/

/-- The metrics of the page. -/
def page (m : Metrics) (degradedNow : Bool) : List Metric :=
  [⟨[ascii "# HELP sovprobe_captured_total " ++ helpText,
      ascii "# TYPE sovprobe_captured_total counter"],
      ascii "sovprobe_captured_total", .ofNat m.captured⟩,
    ⟨[ascii "# TYPE sovprobe_written_total counter"],
      ascii "sovprobe_written_total", .ofNat m.written⟩,
    ⟨[ascii "# TYPE sovprobe_dropped_total counter"],
      ascii "sovprobe_dropped_total", .ofNat m.dropped⟩,
    ⟨[ascii "# TYPE sovprobe_degraded_total counter"],
      ascii "sovprobe_degraded_total", .ofNat m.degraded⟩,
    ⟨[ascii "# TYPE sovprobe_degraded_now gauge"],
      ascii "sovprobe_degraded_now", .ofNat degradedNow.toNat⟩,
    ⟨[ascii "# TYPE sovprobe_slicer_dropped_total counter"],
      ascii "sovprobe_slicer_dropped_total", .ofNat m.slicerDropped⟩]

variable {m : Metrics}

/-- A line with a number is a sample. -/
theorem sample_eq (name : List UInt8) {front : List UInt8} {n : Nat}
    (hfront : front = name ++ [Text.blank]) (hn : n < 2 ^ 64) :
    front ++ Decimal.pad 1 n = name ++ Text.blank :: Decimal.pad 1 (UInt64.ofNat n).toNat := by
  rw [hfront, UInt64.toNat_ofNat', Nat.mod_eq_of_lt hn, List.append_assoc]
  rfl

theorem renderText_eq (h : m.Fits) (degradedNow : Bool) :
    m.renderText degradedNow = Exposition.text (m.page degradedNow) := by
  have hflag : degradedNow.toNat < 2 ^ 64 := by cases degradedNow <;> decide
  unfold renderText
  rw [sample_eq (ascii "sovprobe_captured_total") (by decide +kernel) h.captured,
    sample_eq (ascii "sovprobe_written_total") (by decide +kernel) h.written,
    sample_eq (ascii "sovprobe_dropped_total") (by decide +kernel) h.dropped,
    sample_eq (ascii "sovprobe_degraded_total") (by decide +kernel) h.degraded,
    sample_eq (ascii "sovprobe_degraded_now") (by decide +kernel) hflag,
    sample_eq (ascii "sovprobe_slicer_dropped_total") (by decide +kernel) h.slicerDropped]
  rfl

/-- The comments and names are the same on every page. -/
theorem page_headings (degradedNow : Bool) :
    (m.page degradedNow).map (fun metric => (metric.comments, metric.name)) =
      ((Metrics.page {} false).map fun metric => (metric.comments, metric.name)) := rfl

theorem page_wellFormed (degradedNow : Bool) :
    ∀ metric ∈ m.page degradedNow, WellFormed metric.comments metric.name := by
  have hall : ∀ heading ∈ (Metrics.page {} false).map (fun metric =>
      (metric.comments, metric.name)), WellFormed heading.1 heading.2 := by decide +kernel
  intro metric hmetric
  refine hall (metric.comments, metric.name) ?_
  rw [← page_headings (m := m) degradedNow]
  exact List.mem_map_of_mem hmetric

theorem page_nodup (degradedNow : Bool) :
    ((m.page degradedNow).map Metric.name).Nodup := by
  have hnames : ((m.page degradedNow).map Metric.name).Nodup ↔
      ((Metrics.page {} false).map Metric.name).Nodup := Iff.rfl
  exact hnames.mpr (by decide +kernel)

/-! ## The answer -/

theorem length_pad_le {n : Nat} (hn : n < 2 ^ 64) : (Decimal.pad 1 n).length ≤ 21 := by
  have hdigits : (Nat.digits 10 n).length ≤ 20 :=
    (Nat.digits_length_le_iff (by decide) n).mpr (hn.trans (by decide))
  rw [Decimal.pad, List.length_append, List.length_replicate, List.length_map,
    List.length_reverse]
  omega

/-- The length of the page has its place in the head. -/
theorem length_renderText_lt (h : m.Fits) (degradedNow : Bool) :
    (m.renderText degradedNow).length < 2 ^ 64 := by
  have hflag : degradedNow.toNat < 2 ^ 64 := by cases degradedNow <;> decide
  have h₁ := length_pad_le h.captured
  have h₂ := length_pad_le h.written
  have h₃ := length_pad_le h.dropped
  have h₄ := length_pad_le h.degraded
  have h₅ := length_pad_le hflag
  have h₆ := length_pad_le h.slicerDropped
  -- two pages differ by their numbers
  have hzeros : (renderText {} false).length ≤ 1000 := by decide +kernel
  simp only [renderText, List.flatMap_cons, List.flatMap_nil, List.length_append] at hzeros ⊢
  omega

/-- The answer as a message. -/
def message (m : Metrics) (degradedNow : Bool) : HttpMessage where
  head := [ascii "HTTP/1.1 200 OK", ascii "Content-Type: text/plain",
    HttpMessage.lengthField ++ Decimal.pad 1 (m.renderText degradedNow).length,
    ascii "Connection: close"]
  body := m.renderText degradedNow

theorem answer_eq (degradedNow : Bool) (request : List UInt8) :
    m.answer degradedNow (some request) = some (m.message degradedNow).text := by
  have hfront : ascii "HTTP/1.1 200 OK\r\nContent-Type: text/plain\r\nContent-Length: " =
      ascii "HTTP/1.1 200 OK" ++ [Text.carriageReturn, Text.newline] ++
        (ascii "Content-Type: text/plain" ++ [Text.carriageReturn, Text.newline]) ++
        HttpMessage.lengthField := by decide +kernel
  have hend : ascii "\r\nConnection: close\r\n\r\n" = [Text.carriageReturn, Text.newline] ++
      (ascii "Connection: close" ++ [Text.carriageReturn, Text.newline]) ++
        [Text.carriageReturn, Text.newline] := by decide +kernel
  simp only [answer, hfront, hend, message, HttpMessage.text, List.cons_append, List.nil_append,
    List.flatMap_cons, List.flatMap_nil, List.append_assoc]

theorem message_wellFormed (h : m.Fits) (degradedNow : Bool) :
    (m.message degradedNow).WellFormed where
  isLine := by
    have hlength : Text.newline ∉ HttpMessage.lengthField ++
        Decimal.pad 1 (m.renderText degradedNow).length := by
      intro hmem
      rcases List.mem_append.mp hmem with hname | hdigit
      · exact absurd hname (by decide)
      · exact absurd (Decimal.isDigit_of_mem_pad hdigit) (by decide)
    intro l hl
    simp only [message, List.mem_cons, List.not_mem_nil, or_false] at hl
    rcases hl with rfl | rfl | rfl | rfl
    · decide +kernel
    · decide +kernel
    · exact ⟨hlength, List.append_ne_nil_of_left_ne_nil (by decide) _⟩
    · decide +kernel
  length := by
    have hfirst : ¬ HttpMessage.lengthField.isPrefixOf (ascii "HTTP/1.1 200 OK") = true := by
      decide +kernel
    have hsecond : ¬ HttpMessage.lengthField.isPrefixOf (ascii "Content-Type: text/plain") =
      true := by decide +kernel
    have hthird : HttpMessage.lengthField.isPrefixOf (HttpMessage.lengthField ++
        Decimal.pad 1 (m.renderText degradedNow).length) = true :=
      List.isPrefixOf_iff_prefix.mpr (List.prefix_append _ _)
    rw [message, List.find?_cons_of_neg hfirst, List.find?_cons_of_neg hsecond,
      List.find?_cons_of_pos hthird]
  bounded := length_renderText_lt h degradedNow

/-- The samples are the numbers of the page. -/
theorem mem_page_of_mem_render {degradedNow : Bool} {sample : String × Nat}
    (hsample : sample ∈ m.render degradedNow) : ∃ metric ∈ m.page degradedNow,
      metric.name = ascii sample.1 ∧ metric.number = UInt64.ofNat sample.2 := by
  have hsame : (m.page degradedNow).map (fun metric => (metric.name, metric.number)) =
      (m.render degradedNow).map fun sample => (ascii sample.1, UInt64.ofNat sample.2) := rfl
  have hmem := List.mem_map_of_mem (f := fun sample : String × Nat =>
    (ascii sample.1, UInt64.ofNat sample.2)) hsample
  rw [← hsame] at hmem
  obtain ⟨metric, hmetric, heq⟩ := List.mem_map.mp hmem
  obtain ⟨hname, hnumber⟩ := Prod.mk.inj heq
  exact ⟨metric, hmetric, hname, hnumber⟩

/-- **An answer can be read.**  The body ends where its length says, whatever comes behind it,
and each sample of `Metrics::render` can be found on it by its name. -/
theorem reads_of_answer (h : m.Fits) (degradedNow : Bool) (request more : List UInt8) :
    ∃ bytes body, m.answer degradedNow (some request) = some bytes ∧
      HttpMessage.read (bytes ++ more) = some body ∧
      ∀ sample ∈ m.render degradedNow,
        Exposition.read body (ascii sample.1) = some (UInt64.ofNat sample.2) := by
  refine ⟨_, m.renderText degradedNow, answer_eq degradedNow request,
    HttpMessage.read_text (message_wellFormed h degradedNow) more, fun sample hsample => ?_⟩
  obtain ⟨metric, hmetric, hname, hnumber⟩ := mem_page_of_mem_render hsample
  rw [renderText_eq h, ← hname, ← hnumber]
  exact read_text (page_wellFormed degradedNow) (page_nodup degradedNow) hmetric

end Metrics

/-! ## The threads -/

namespace Pipeline
variable {Frame Record : Type} {cfg : Config} {slice : Frame → Option (UInt64 → Bool → Record)}
  {t₀ t₁ t₂ : Traced Frame Record} {as bs cs : List (Action Frame)}

/-- The metrics as a request finds them that loads `written` at one moment and `dropped` at
another; the others have the same value at every moment. -/
def loaded (written dropped : State Frame Record) : Metrics :=
  { exported written with dropped := (exported dropped).dropped }

/-- Logs only grow. -/
theorem log_prefix_of_run (h : Transition.run (tracedStep cfg slice) t₀ as = some t₁) :
    t₀.log <+: t₁.log := by
  have hstep : ∀ (s : Traced Frame Record) (a : Action Frame) (t : Traced Frame Record),
      t₀.log <+: s.log → tracedStep cfg slice s a = some t → t₀.log <+: t.log := by
    intro s a t hs ha
    obtain ⟨-, -, hlog⟩ := tracedStep_eq_some.mp ha
    exact hlog ▸ hs.trans (List.prefix_append _ _)
  exact Transition.run_invariant hstep List.prefix_rfl h

/-- **What a page says.**  A request comes at any moment of any run: the flag is loaded, then the
number of written records, and then that of the dropped ones, with any steps of the threads in
between.  In the answer, whatever follows it, the body can be told from the head, and on it are
found, each by its name, the flag, how many records the writer had written and how many it had
dropped, and three times nothing; and what is written and dropped is no more than what was taken
from the ring buffer. -/
theorem scrape_says (h₀ : tracedRun cfg slice as = some t₀)
    (h₁ : Transition.run (tracedStep cfg slice) t₀ bs = some t₁)
    (h₂ : Transition.run (tracedStep cfg slice) t₁ cs = some t₂)
    (hbound : (Event.taken t₂.log).length < 2 ^ 64) (request more : List UInt8) :
    ∃ bytes body, (loaded t₁.state t₂.state).answer t₀.state.degraded (some request) = some bytes ∧
      HttpMessage.read (bytes ++ more) = some body ∧
      Exposition.read body (ascii "sovprobe_written_total") =
        some (UInt64.ofNat (Event.written t₁.log).length) ∧
      Exposition.read body (ascii "sovprobe_dropped_total") =
        some (UInt64.ofNat (Event.discarded t₂.log).length) ∧
      Exposition.read body (ascii "sovprobe_degraded_now") =
        some (UInt64.ofNat t₀.state.degraded.toNat) ∧
      (∀ name ∈ ["sovprobe_captured_total", "sovprobe_degraded_total",
          "sovprobe_slicer_dropped_total"], Exposition.read body (ascii name) = some 0) ∧
      (Event.written t₁.log).length + (Event.discarded t₂.log).length ≤
        (Event.taken t₂.log).length := by
  have hrun₁ : tracedRun cfg slice (as ++ bs) = some t₁ := by
    rw [tracedRun, Transition.run_append]
    exact Option.bind_eq_some_iff.mpr ⟨t₀, h₀, h₁⟩
  have hrun₂ : tracedRun cfg slice (as ++ bs ++ cs) = some t₂ := by
    rw [tracedRun, Transition.run_append]
    exact Option.bind_eq_some_iff.mpr ⟨t₁, hrun₁, h₂⟩
  have hwritten : t₁.state.writtenRecords = 0 + (Event.written t₁.log).length :=
    (logged_of_run hrun₁).effect.writtenRecords
  have hwritten₂ : t₂.state.writtenRecords = 0 + (Event.written t₂.log).length :=
    (logged_of_run hrun₂).effect.writtenRecords
  have hdropped : t₂.state.droppedRecords = 0 + (Event.discarded t₂.log).length :=
    (logged_of_run hrun₂).effect.droppedRecords
  have hgrows : (Event.written t₁.log).length ≤ (Event.written t₂.log).length :=
    ((log_prefix_of_run h₂).filterMap _).length_le
  have hall := taken_length hrun₂
  rw [Nat.zero_add] at hwritten hwritten₂ hdropped
  have hsum : (Event.written t₁.log).length + (Event.discarded t₂.log).length ≤
      (Event.taken t₂.log).length := by omega
  have hfits : (loaded t₁.state t₂.state).Fits := by
    refine ⟨Nat.two_pow_pos 64, ?_, ?_, Nat.two_pow_pos 64, Nat.two_pow_pos 64⟩
    · show t₁.state.writtenRecords < 2 ^ 64
      omega
    · show t₂.state.droppedRecords < 2 ^ 64
      omega
  obtain ⟨bytes, body, hanswer, hbody, hreads⟩ :=
    Metrics.reads_of_answer hfits t₀.state.degraded request more
  simp only [Metrics.render, loaded, exported, List.forall_mem_cons, hwritten, hdropped] at hreads
  obtain ⟨hcaptured, hwrote, hdrops, hdegraded, hnow, hslicer, -⟩ := hreads
  refine ⟨bytes, body, hanswer, hbody, hwrote, hdrops, hnow, ?_, hsum⟩
  simp only [List.forall_mem_cons]
  exact ⟨hcaptured, hdegraded, hslicer, nofun⟩

/-- A frame comes, is written after the request has come, and another one comes before
`dropped` is loaded. -/
theorem scrape_says_one : ∃ (t₀ t₁ t₂ : Traced Unit Unit) (bytes body : List UInt8),
    tracedRun defaultConfig (fun _ => some fun _ _ => ()) [.writer (.openSegment true),
      .capture (.next ()), .capture .isDegraded, .capture (.process 0), .capture .send] =
        some t₀ ∧
    Transition.run (tracedStep defaultConfig fun _ => some fun _ _ => ()) t₀
      [.writer .hotPathCheck, .writer .recv, .writer .handleRecord, .writer (.writeAll true)] =
        some t₁ ∧
    (loaded t₁.state t₂.state).answer t₀.state.degraded (some []) = some bytes ∧
    HttpMessage.read (bytes ++ []) = some body ∧
    Exposition.read body (ascii "sovprobe_written_total") = some 1 := by
  obtain ⟨t₀, t₁, t₂, h₀, h₁, h₂, hbound, hone⟩ : ∃ t₀ t₁ t₂ : Traced Unit Unit,
      tracedRun defaultConfig (fun _ => some fun _ _ => ()) [.writer (.openSegment true),
        .capture (.next ()), .capture .isDegraded, .capture (.process 0), .capture .send] =
          some t₀ ∧
      Transition.run (tracedStep defaultConfig fun _ => some fun _ _ => ()) t₀
        [.writer .hotPathCheck, .writer .recv, .writer .handleRecord, .writer (.writeAll true)] =
          some t₁ ∧
      Transition.run (tracedStep defaultConfig fun _ => some fun _ _ => ()) t₁
        [.capture (.next ())] = some t₂ ∧
      (Event.taken t₂.log).length < 2 ^ 64 ∧ (Event.written t₁.log).length = 1 :=
    ⟨_, _, _, rfl, rfl, rfl, by decide, rfl⟩
  obtain ⟨bytes, body, hanswer, hbody, hwritten, -⟩ := scrape_says h₀ h₁ h₂ hbound [] []
  rw [hone] at hwritten
  exact ⟨t₀, t₁, t₂, bytes, body, h₀, h₁, hanswer, hbody, hwritten⟩

end Pipeline
end SovProbe
