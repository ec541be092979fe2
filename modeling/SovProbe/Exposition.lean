import SovProbe.Decimal
import Mathlib.Data.List.Basic

/-! # Pages of numbers

Text of lines in which each number stands behind its name, and messages that have such a
text for their body.  A page is written metric by metric, comments first.  A reader looks
for the first line that starts with a name and a blank, and takes what stands behind its
last blank.  Where each name is one word and no two are the same it finds the number that
was written (`Exposition.read_text`).  The head of a message is lines, too; it says how long
the body is, so that a reader knows where the body ends, whatever follows
(`HttpMessage.read_text`).
-/

/-! ## Lines -/

namespace Text
variable {line front rest : List UInt8}

/-- `\n` -/
def newline : UInt8 := 10
/-- `\r` -/
def carriageReturn : UInt8 := 13
/-- The blank between a name and its number. -/
def blank : UInt8 := 32

/-- A line without the carriage return at its end. -/
def stripReturn (line : List UInt8) : List UInt8 :=
  if line.getLast? = some carriageReturn then line.dropLast else line

/-- `str::lines`: what stands before each newline, and what is left behind the last one. -/
def lines (text : List UInt8) : List (List UInt8) :=
  let parts := text.splitOnP (· == newline)
  parts.dropLast.map stripReturn ++ parts.getLast?.toList.filter (· ≠ [])

/-- What stands behind the last blank. -/
def lastField (line : List UInt8) : List UInt8 := (line.reverse.takeWhile (· ≠ blank)).reverse

/-- The characters with the property `White_Space`. -/
def whiteSpace : List (List UInt8) :=
  [[9], [10], [11], [12], [13], [32], [0xC2, 0x85], [0xC2, 0xA0], [0xE1, 0x9A, 0x80],
    [0xE2, 0x80, 0x80], [0xE2, 0x80, 0x81], [0xE2, 0x80, 0x82], [0xE2, 0x80, 0x83],
    [0xE2, 0x80, 0x84], [0xE2, 0x80, 0x85], [0xE2, 0x80, 0x86], [0xE2, 0x80, 0x87],
    [0xE2, 0x80, 0x88], [0xE2, 0x80, 0x89], [0xE2, 0x80, 0x8A], [0xE2, 0x80, 0xA8],
    [0xE2, 0x80, 0xA9], [0xE2, 0x80, 0xAF], [0xE2, 0x81, 0x9F], [0xE3, 0x80, 0x80]]

/-- Takes such characters away at the front; each time at least one byte. -/
def trimStart : Nat → List UInt8 → List UInt8
  | 0, text => text
  | fuel + 1, text =>
    match whiteSpace.find? (·.isPrefixOf text) with
    | some c => trimStart fuel (text.drop c.length)
    | none => text

/-- Without the white space at the end. -/
def trimEnd : Nat → List UInt8 → List UInt8
  | 0, text => text
  | fuel + 1, text =>
    match whiteSpace.find? (·.isSuffixOf text) with
    | some c => trimEnd fuel (text.take (text.length - c.length))
    | none => text

/-- `str::trim` -/
def trim (text : List UInt8) : List UInt8 := trimEnd text.length (trimStart text.length text)

/-- A line that can be told from the next one. -/
structure IsLine (line : List UInt8) : Prop where
  noNewline : newline ∉ line
  noReturn : line.getLast? ≠ some carriageReturn

instance : DecidablePred IsLine := fun line =>
  decidable_of_iff (newline ∉ line ∧ line.getLast? ≠ some carriageReturn)
    ⟨fun h => ⟨h.1, h.2⟩, fun h => ⟨h.noNewline, h.noReturn⟩⟩

theorem IsLine.stripReturn_eq (h : IsLine line) : stripReturn line = line := if_neg h.noReturn

/-- Letters at the end make a line. -/
theorem IsLine.append {ending : List UInt8} (h : newline ∉ front) (hending : IsLine ending)
    (hne : ending ≠ []) : IsLine (front ++ ending) where
  noNewline := by
    intro hmem
    rcases List.mem_append.mp hmem with hfront | hend
    · exact h hfront
    · exact hending.noNewline hend
  noReturn := by
    rw [List.getLast?_append_of_ne_nil _ hne]
    exact hending.noReturn

theorem splitOnP_newline {ls : List (List UInt8)} (h : ∀ l ∈ ls, newline ∉ l) :
    (ls.flatMap fun l => l ++ [newline]).splitOnP (· == newline) = ls ++ [[]] := by
  induction ls with
  | nil => rfl
  | cons l ls ih =>
    have hrest := ih fun m hm => h m (List.mem_cons_of_mem l hm)
    have hl : l.splitOnP (· == newline) = [l] := by
      refine List.splitOnP_eq_singleton fun b hb => beq_eq_false_iff_ne.mpr ?_
      rintro rfl
      exact h l List.mem_cons_self hb
    have hsplit : (l ++ newline :: ls.flatMap fun l => l ++ [newline]).splitOnP (· == newline) =
        l.splitOnP (· == newline) ++
          (ls.flatMap fun l => l ++ [newline]).splitOnP (· == newline) :=
      List.splitOnP_append_cons l _ (beq_self_eq_true newline)
    rw [List.flatMap_cons, List.append_assoc, List.singleton_append, hsplit, hl, hrest]
    rfl

/-- **Lines that are written can be read.** -/
theorem lines_flatMap {ls : List (List UInt8)} (h : ∀ l ∈ ls, IsLine l) :
    lines (ls.flatMap fun l => l ++ [newline]) = ls := by
  have hparts := splitOnP_newline fun l hl => (h l hl).noNewline
  have hstrip : ls.map stripReturn = ls :=
    (List.map_congr_left fun l hl => (h l hl).stripReturn_eq).trans (List.map_id' ls)
  unfold lines
  simp only [hparts, List.dropLast_concat, List.getLast?_concat, hstrip]
  exact List.append_nil ls

theorem lastField_append (h : blank ∉ rest) : lastField (front ++ blank :: rest) = rest := by
  have htake : (front ++ blank :: rest).reverse.takeWhile (· ≠ blank) = rest.reverse := by
    rw [List.reverse_append, List.reverse_cons, List.append_assoc, List.singleton_append,
      List.takeWhile_append_of_pos, List.takeWhile_cons_of_neg, List.append_nil]
    · simp
    · intro b hb
      refine decide_eq_true ?_
      rintro rfl
      exact h (List.mem_reverse.mp hb)
  rw [lastField, htake, List.reverse_reverse]

/-- A number has no white space at its ends. -/
theorem trim_of_digits (h : ∀ b ∈ line, Decimal.isDigit b = true) : trim line = line := by
  have hspace : ∀ c ∈ whiteSpace, ¬ ∀ b ∈ c, Decimal.isDigit b = true := by decide +kernel
  have hstart : ∀ fuel, trimStart fuel line = line := by
    rintro (_ | fuel)
    · rfl
    have hnone : whiteSpace.find? (·.isPrefixOf line) = none := by
      refine List.find?_eq_none.mpr fun c hc hprefix => hspace c hc fun b hb => ?_
      exact h b ((List.isPrefixOf_iff_prefix.mp hprefix).subset hb)
    rw [trimStart, hnone]
  have hend : ∀ fuel, trimEnd fuel line = line := by
    rintro (_ | fuel)
    · rfl
    have hnone : whiteSpace.find? (·.isSuffixOf line) = none := by
      refine List.find?_eq_none.mpr fun c hc hsuffix => hspace c hc fun b hb => ?_
      exact h b ((List.isSuffixOf_iff_suffix.mp hsuffix).subset hb)
    rw [trimEnd, hnone]
  rw [trim, hstart, hend]

end Text

/-! ## Pages -/

namespace Exposition
open Text

/-- A metric, with the comments before it. -/
structure Metric where
  comments : List (List UInt8)
  name : List UInt8
  number : UInt64

/-- The line with the number. -/
def Metric.sample (m : Metric) : List UInt8 := m.name ++ blank :: Decimal.pad 1 m.number.toNat

/-- The comments, and behind them the line with the number. -/
def Metric.lines (m : Metric) : List (List UInt8) := m.comments ++ [m.sample]

/-- The page with these metrics. -/
def text (page : List Metric) : List UInt8 :=
  (page.flatMap Metric.lines).flatMap fun l => l ++ [newline]

/-- The number of a name, as a reader finds it. -/
def read (body name : List UInt8) : Option UInt64 := do
  let line ← (lines body).find? fun l => (name ++ [blank]).isPrefixOf l
  Decimal.parseU64 (trim (lastField line))

/-- What comments start with. -/
def hash : UInt8 := 35

/-- The comments are lines, and the name is a word. -/
structure WellFormed (comments : List (List UInt8)) (name : List UInt8) : Prop where
  comment : ∀ c ∈ comments, IsLine c ∧ c.head? = some hash
  noNewline : newline ∉ name
  noBlank : blank ∉ name
  notComment : name.head? ≠ some hash
  nonempty : name ≠ []

instance (comments : List (List UInt8)) (name : List UInt8) :
    Decidable (WellFormed comments name) :=
  decidable_of_iff ((∀ c ∈ comments, IsLine c ∧ c.head? = some hash) ∧ newline ∉ name ∧
      blank ∉ name ∧ name.head? ≠ some hash ∧ name ≠ [])
    ⟨fun ⟨h₁, h₂, h₃, h₄, h₅⟩ => ⟨h₁, h₂, h₃, h₄, h₅⟩,
      fun ⟨h₁, h₂, h₃, h₄, h₅⟩ => ⟨h₁, h₂, h₃, h₄, h₅⟩⟩

variable {m : Metric} {page : List Metric} {name : List UInt8}

theorem sample_isLine (h : newline ∉ m.name) : IsLine m.sample := by
  have hdigits : ∀ b ∈ Decimal.pad 1 m.number.toNat, Decimal.isDigit b = true :=
    fun b hb => Decimal.isDigit_of_mem_pad hb
  have hne : Decimal.pad 1 m.number.toNat ≠ [] := Decimal.pad_ne_nil Nat.one_pos _
  have hnumber : IsLine (Decimal.pad 1 m.number.toNat) := by
    refine ⟨fun hmem => absurd (hdigits _ hmem) (by decide), fun hlast => ?_⟩
    exact absurd (hdigits _ (List.mem_of_getLast? hlast)) (by decide)
  have hblank : IsLine ([blank] ++ Decimal.pad 1 m.number.toNat) :=
    hnumber.append (by decide) hne
  exact hblank.append h (List.cons_ne_nil _ _)

namespace WellFormed

theorem lines_isLine (h : WellFormed m.comments m.name) : ∀ l ∈ m.lines, IsLine l := by
  intro l hl
  rcases List.mem_append.mp hl with hcomment | hsample
  · exact (h.comment l hcomment).1
  · exact List.mem_singleton.mp hsample ▸ sample_isLine h.noNewline

/-- A comment does not start with a name. -/
theorem find?_comments (h : WellFormed m.comments m.name) (hne : name ≠ [])
    (hname : name.head? ≠ some hash) :
    m.comments.find? (fun l => (name ++ [blank]).isPrefixOf l) = none := by
  refine List.find?_eq_none.mpr fun c hc hprefix => ?_
  obtain ⟨rest, rfl⟩ := List.isPrefixOf_iff_prefix.mp hprefix
  have hhead := (h.comment _ hc).2
  rw [List.append_assoc, List.head?_append_of_ne_nil _ hne] at hhead
  exact hname hhead

/-- A name with its blank is in front of its own line, and of no other one. -/
theorem isPrefixOf_sample_iff (h : WellFormed m.comments m.name) (hname : blank ∉ name) :
    (name ++ [blank]).isPrefixOf m.sample = true ↔ name = m.name := by
  rw [List.isPrefixOf_iff_prefix]
  constructor
  · rintro ⟨rest, heq⟩
    have hfirst : ∀ (word rest : List UInt8), blank ∉ word →
        (word ++ blank :: rest).takeWhile (· ≠ blank) = word := by
      intro word rest hword
      rw [List.takeWhile_append_of_pos, List.takeWhile_cons_of_neg, List.append_nil]
      · simp
      · intro b hb
        refine decide_eq_true ?_
        rintro rfl
        exact hword hb
    rw [List.append_assoc, List.singleton_append, Metric.sample] at heq
    rw [← hfirst name rest hname, heq, hfirst _ _ h.noBlank]
  · rintro rfl
    exact ⟨_, by rw [List.append_assoc]; rfl⟩

end WellFormed

/-- **What is on a page can be read off it.** -/
theorem read_text (hpage : ∀ m ∈ page, WellFormed m.comments m.name)
    (hnames : (page.map Metric.name).Nodup) (hm : m ∈ page) :
    read (text page) m.name = some m.number := by
  have hword := hpage m hm
  have hlines : lines (text page) = page.flatMap Metric.lines := by
    refine lines_flatMap fun l hl => ?_
    obtain ⟨f, hf, hlf⟩ := List.mem_flatMap.mp hl
    exact (hpage f hf).lines_isLine l hlf
  have hfind : (page.flatMap Metric.lines).find? (fun l => (m.name ++ [blank]).isPrefixOf l) =
      some m.sample := by
    clear hlines
    induction page with
    | nil => cases hm
    | cons f page ih =>
      have hf := hpage f List.mem_cons_self
      obtain ⟨hfresh, hrest⟩ := List.nodup_cons.mp hnames
      rw [List.flatMap_cons, Metric.lines, List.append_assoc, List.find?_append,
        hf.find?_comments hword.nonempty hword.notComment, Option.none_or, List.singleton_append]
      rcases List.mem_cons.mp hm with rfl | hlater
      · rw [List.find?_cons_of_pos ((hf.isPrefixOf_sample_iff hword.noBlank).mpr rfl)]
      · have hother : ¬ (m.name ++ [blank]).isPrefixOf f.sample = true := by
          rw [hf.isPrefixOf_sample_iff hword.noBlank]
          exact fun heq => hfresh (heq ▸ List.mem_map_of_mem hlater)
        rw [List.find?_cons_of_neg hother]
        exact ih (fun g hg => hpage g (List.mem_cons_of_mem f hg)) hrest hlater
  have hdigits : ∀ b ∈ Decimal.pad 1 m.number.toNat, Decimal.isDigit b = true :=
    fun b hb => Decimal.isDigit_of_mem_pad hb
  have hfield : lastField m.sample = Decimal.pad 1 m.number.toNat :=
    lastField_append fun hmem => absurd (hdigits _ hmem) (by decide)
  unfold read
  rw [hlines, hfind, Option.bind_eq_bind, Option.bind_some, hfield, trim_of_digits hdigits]
  exact Decimal.parseU64_pad Nat.one_pos m.number

end Exposition

/-! ## Messages -/

/-- A head of lines, and a body. -/
structure HttpMessage where
  head : List (List UInt8)
  body : List UInt8

namespace HttpMessage
open Text

/-- The name of the field with the length of the body. -/
def lengthField : List UInt8 :=
  "Content-Length: ".toList.map fun c => UInt8.ofNat c.toNat

/-- Each line of the head ends with a carriage return and a newline; an empty one ends it. -/
def text (m : HttpMessage) : List UInt8 :=
  (m.head ++ [[]]).flatMap (fun l => l ++ [carriageReturn, newline]) ++ m.body

/-- The lines up to the first empty one, and what stands behind it. -/
def readHead : Nat → List UInt8 → Option (List (List UInt8) × List UInt8)
  | 0, _ => none
  | fuel + 1, bytes =>
    match bytes.dropWhile (· ≠ newline) with
    | [] => none
    | _ :: rest =>
      let line := stripReturn (bytes.takeWhile (· ≠ newline))
      if line = [] then some ([], rest)
      else (readHead fuel rest).map fun (lines, rest) => (line :: lines, rest)

/-- The body of the message at the front of the bytes. -/
def read (bytes : List UInt8) : Option (List UInt8) := do
  let (head, rest) ← readHead bytes.length bytes
  let field ← head.find? lengthField.isPrefixOf
  let length ← Decimal.parseU64 (field.drop lengthField.length)
  if length.toNat ≤ rest.length then some (rest.take length.toNat) else none

/-- The head has lines, none of them empty, and the first one with a length gives that of the
body. -/
structure WellFormed (m : HttpMessage) : Prop where
  isLine : ∀ l ∈ m.head, newline ∉ l ∧ l ≠ []
  length : m.head.find? lengthField.isPrefixOf =
    some (lengthField ++ Decimal.pad 1 m.body.length)
  bounded : m.body.length < 2 ^ 64

theorem stripReturn_concat (l : List UInt8) : stripReturn (l ++ [carriageReturn]) = l := by
  rw [stripReturn, if_pos List.getLast?_concat, List.dropLast_concat]

/-- One line of a head. -/
theorem readHead_line {l : List UInt8} (hl : newline ∉ l) (bytes : List UInt8) (fuel : Nat) :
    readHead (fuel + 1) (l ++ [carriageReturn, newline] ++ bytes) =
      if l = [] then some ([], bytes)
      else (readHead fuel bytes).map fun (lines, rest) => (l :: lines, rest) := by
  have hline : ∀ b ∈ l ++ [carriageReturn], decide (b ≠ newline) = true := by
    intro b hb
    refine decide_eq_true ?_
    rintro rfl
    rcases List.mem_append.mp hb with hmem | hreturn
    · exact hl hmem
    · exact absurd hreturn (by decide)
  have hsplit : l ++ [carriageReturn, newline] ++ bytes =
      (l ++ [carriageReturn]) ++ newline :: bytes := by simp only [List.append_assoc]; rfl
  have hdrop : (newline :: bytes).dropWhile (· ≠ newline) = newline :: bytes :=
    List.dropWhile_cons_of_neg (by decide)
  have htake : (newline :: bytes).takeWhile (· ≠ newline) = [] :=
    List.takeWhile_cons_of_neg (by decide)
  rw [hsplit, readHead, List.dropWhile_append_of_pos hline, hdrop,
    List.takeWhile_append_of_pos hline, htake, List.append_nil]
  simp only [stripReturn_concat]

/-- **A head that is written** can be read. -/
theorem readHead_flatMap {head : List (List UInt8)} (h : ∀ l ∈ head, newline ∉ l ∧ l ≠ [])
    (bytes : List UInt8) {fuel : Nat} (hfuel : head.length < fuel) :
    readHead fuel ((head ++ [[]]).flatMap (fun l => l ++ [carriageReturn, newline]) ++ bytes) =
      some (head, bytes) := by
  induction head generalizing fuel with
  | nil =>
    obtain ⟨fuel, rfl⟩ := Nat.exists_eq_succ_of_ne_zero (Nat.ne_of_gt hfuel)
    exact readHead_line List.not_mem_nil bytes fuel
  | cons l head ih =>
    obtain ⟨fuel, rfl⟩ := Nat.exists_eq_succ_of_ne_zero (Nat.ne_of_gt (Nat.zero_lt_of_lt hfuel))
    obtain ⟨hl, hne⟩ := h l List.mem_cons_self
    have hrest := ih (fun m hm => h m (List.mem_cons_of_mem l hm)) (Nat.lt_of_succ_lt_succ hfuel)
    rw [List.cons_append, List.flatMap_cons, List.append_assoc, readHead_line hl, if_neg hne,
      hrest, Option.map_some]

theorem length_head_lt (m : HttpMessage) (more : List UInt8) :
    m.head.length < (m.text ++ more).length := by
  have hlines : ∀ ls : List (List UInt8),
      ls.length ≤ (ls.flatMap fun l => l ++ [carriageReturn, newline]).length := by
    intro ls
    induction ls with
    | nil => exact Nat.le_refl 0
    | cons l ls ih =>
      rw [List.flatMap_cons, List.length_append, List.length_append, List.length_cons]
      have hreturn : [carriageReturn, newline].length = 2 := rfl
      omega
  have hhead := hlines (m.head ++ [[]])
  rw [List.length_append, List.length_singleton] at hhead
  rw [text, List.length_append, List.length_append]
  omega

/-- **The body is found**, whatever follows it. -/
theorem read_text {m : HttpMessage} (h : m.WellFormed) (more : List UInt8) :
    read (m.text ++ more) = some m.body := by
  have hhead : readHead (m.text ++ more).length (m.text ++ more) =
      some (m.head, m.body ++ more) := by
    have hread := readHead_flatMap h.isLine (m.body ++ more) (m.length_head_lt more)
    rwa [← List.append_assoc] at hread
  have hlength : Decimal.parseU64 ((lengthField ++ Decimal.pad 1 m.body.length).drop
      lengthField.length) = some (UInt64.ofNat m.body.length) := by
    have hdrop : (lengthField ++ Decimal.pad 1 m.body.length).drop lengthField.length =
        Decimal.pad 1 m.body.length := List.drop_left' rfl
    have hparse := Decimal.parseU64_pad Nat.one_pos (UInt64.ofNat m.body.length)
    rwa [UInt64.toNat_ofNat', Nat.mod_eq_of_lt h.bounded, ← hdrop] at hparse
  have hexact : (UInt64.ofNat m.body.length).toNat = m.body.length := by
    rw [UInt64.toNat_ofNat', Nat.mod_eq_of_lt h.bounded]
  unfold read
  simp only [hhead, h.length, hlength, hexact, Option.bind_eq_bind, Option.bind_some]
  rw [if_pos (by rw [List.length_append]; exact Nat.le_add_right _ _), List.take_left]

end HttpMessage
