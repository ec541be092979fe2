import Mathlib.Data.List.Basic

/-! # Paths as bytes

A path is a string of bytes, and its components are what stands between the slashes.
The functions are those of `std::path` on Unix: the last component, its parts before and
behind the last dot, joining, and the text a path is printed as, in which every ill-formed
sequence of bytes is replaced by U+FFFD.
-/

namespace PathName

/-- The bytes of a path. -/
abbrev Path := List UInt8

/-- `/` -/
def slash : UInt8 := 47
/-- `.` -/
def dot : UInt8 := 46

/-- The components, without empty ones and single dots. -/
def components (path : Path) : List Path :=
  (path.splitOnP (· == slash)).filter fun c => c ≠ [] && c ≠ [dot]

/-- `Path::file_name` -/
def fileName (path : Path) : Option Path :=
  match (components path).getLast? with
  | some c => if c = [dot, dot] then none else some c
  | none => none

/-- `rsplit_file_at_dot`: the parts before and behind the last dot. -/
def rsplitFileAtDot (file : Path) : Option Path × Option Path :=
  if file = [dot, dot] then (some file, none)
  else
    let after := (file.reverse.takeWhile (· ≠ dot)).reverse
    let before := file.take (file.length - after.length - 1)
    if dot ∉ file then (none, some file)
    else if before = [] then (some file, none)
    else (some before, some after)

/-- `Path::file_stem` -/
def fileStem (path : Path) : Option Path := do
  let (before, after) := rsplitFileAtDot (← fileName path)
  before.or after

/-- `Path::extension` -/
def extension (path : Path) : Option Path := do
  let (before, after) := rsplitFileAtDot (← fileName path)
  let _ ← before
  after

/-- `Path::join` with a relative path. -/
def join (dir path : Path) : Path :=
  if dir.getLast?.all (· == slash) then dir ++ path else dir ++ slash :: path

/-! ## The text of a path -/

/-- The second byte may follow the first one of a character of three or four bytes. -/
def mayFollow (b c : UInt8) : Bool :=
  if b = 0xE0 then 0xA0 ≤ c && c ≤ 0xBF
  else if b = 0xED then 0x80 ≤ c && c ≤ 0x9F
  else if b = 0xF0 then 0x90 ≤ c && c ≤ 0xBF
  else if b = 0xF4 then 0x80 ≤ c && c ≤ 0x8F
  else 0x80 ≤ c && c ≤ 0xBF

/-- A byte of a character behind its first one. -/
def isContinuation (b : UInt8) : Bool := 0x80 ≤ b && b ≤ 0xBF

/-- How many bytes the character at the front has; or, if there is none, how many are
replaced. -/
def chunk : List UInt8 → Bool × Nat
  | [] => (true, 0)
  | b :: rest =>
    let at' (i : Nat) := rest.getD i 0
    if b < 0x80 then (true, 1)
    else if 0xC2 ≤ b && b ≤ 0xDF then
      if isContinuation (at' 0) then (true, 2) else (false, 1)
    else if 0xE0 ≤ b && b ≤ 0xEF then
      if mayFollow b (at' 0) then
        if isContinuation (at' 1) then (true, 3) else (false, 2)
      else (false, 1)
    else if 0xF0 ≤ b && b ≤ 0xF4 then
      if mayFollow b (at' 0) then
        if isContinuation (at' 1) then
          if isContinuation (at' 2) then (true, 4) else (false, 3)
        else (false, 2)
      else (false, 1)
    else (false, 1)

/-- The replacement character. -/
def replacement : List UInt8 := [0xEF, 0xBF, 0xBD]

/-- The loop of `String::from_utf8_lossy`; each iteration takes at least one byte. -/
def lossyLoop : Nat → List UInt8 → List UInt8
  | 0, _ => []
  | _ + 1, [] => []
  | fuel + 1, b :: rest =>
    let (wellFormed, n) := chunk (b :: rest)
    (if wellFormed then (b :: rest).take n else replacement) ++
      lossyLoop fuel ((b :: rest).drop n)

/-- `to_string_lossy`, and what `display` prints. -/
def lossy (path : Path) : Path := lossyLoop path.length path

-- two names with the same text
example : lossy [0xFF, 0x61] = lossy [0xFE, 0x61] := rfl

/-! ## What is known of them -/

variable {dir path name : Path} {ext : Path}

/-- ASCII is printed as it is. -/
theorem lossy_of_ascii (h : ∀ b ∈ path, b < 0x80) : lossy path = path := by
  have hloop : ∀ (fuel : Nat) (path : Path), path.length ≤ fuel → (∀ b ∈ path, b < 0x80) →
      lossyLoop fuel path = path := by
    intro fuel
    induction fuel with
    | zero =>
      intro path hfuel _
      rw [List.eq_nil_of_length_eq_zero (Nat.le_zero.mp hfuel)]
      rfl
    | succ fuel ih =>
      intro path hfuel hascii
      cases path with
      | nil => rfl
      | cons b rest =>
        have hchunk : chunk (b :: rest) = (true, 1) := by
          unfold chunk
          simp only [if_pos (hascii b List.mem_cons_self)]
        rw [lossyLoop, hchunk]
        show [b] ++ lossyLoop fuel rest = _
        rw [ih rest (Nat.le_of_succ_le_succ hfuel) fun c hc =>
          hascii c (List.mem_cons_of_mem b hc)]
        rfl
  exact hloop _ path (Nat.le_refl _) h

/-- What `read_dir` can list. -/
structure IsEntry (name : Path) : Prop where
  nonempty : name ≠ []
  noSlash : slash ∉ name
  notDot : name ≠ [dot]
  notDots : name ≠ [dot, dot]

theorem components_of_entry (h : IsEntry name) : components name = [name] := by
  have hsplit : name.splitOnP (· == slash) = [name] := by
    refine List.splitOnP_eq_singleton fun b hb => beq_eq_false_iff_ne.mpr ?_
    rintro rfl
    exact h.noSlash hb
  rw [components, hsplit, List.filter_singleton]
  simp [h.nonempty, h.notDot]

theorem components_append (dir path : Path) :
    components (dir ++ slash :: path) = components dir ++ components path := by
  have hsplit : (dir ++ slash :: path).splitOnP (· == slash) =
      dir.splitOnP (· == slash) ++ path.splitOnP (· == slash) :=
    List.splitOnP_append_cons dir path (beq_self_eq_true slash)
  rw [components, hsplit, List.filter_append]
  rfl

/-- What stands before a joined path does not depend on it. -/
theorem join_eq_append (dir : Path) : ∃ front, ∀ path, join dir path = front ++ path := by
  by_cases hdir : dir.getLast?.all (· == slash) = true
  · exact ⟨dir, fun _ => if_pos hdir⟩
  · refine ⟨dir ++ [slash], fun path => ?_⟩
    rw [join, if_neg hdir, List.append_assoc]
    rfl

theorem join_injective (dir : Path) : Function.Injective (join dir) := by
  intro a b hab
  obtain ⟨front, hfront⟩ := join_eq_append dir
  rw [hfront, hfront] at hab
  exact List.append_cancel_left hab

/-- The name of an entry of a directory. -/
theorem fileName_join (h : IsEntry name) : fileName (join dir name) = some name := by
  have hlast : (components (join dir name)).getLast? = some name := by
    by_cases hdir : dir.getLast?.all (· == slash) = true
    · rw [join, if_pos hdir]
      rcases List.eq_nil_or_concat dir with rfl | ⟨front, b, rfl⟩
      · rw [List.nil_append, components_of_entry h]
        rfl
      · have hslash : b = slash := by simpa using hdir
        rw [hslash, List.concat_eq_append, List.append_assoc, List.singleton_append,
          components_append, components_of_entry h, List.getLast?_concat]
    · rw [join, if_neg hdir, components_append, components_of_entry h, List.getLast?_concat]
  rw [fileName, hlast]
  exact if_neg h.notDots

theorem rsplitFileAtDot_eq_some {file before after : Path}
    (h : rsplitFileAtDot file = (some before, some after)) : file = before ++ dot :: after := by
  unfold rsplitFileAtDot at h
  by_cases hdots : file = [dot, dot]
  · rw [if_pos hdots] at h
    cases h
  rw [if_neg hdots] at h
  by_cases hmem : dot ∈ file
  · -- the last dot is the first one from behind
    obtain ⟨behind, front, hfile, hnone⟩ :=
      List.eq_append_cons_of_mem (List.mem_reverse.mpr hmem)
    have htake : file.reverse.takeWhile (· ≠ dot) = behind := by
      rw [hfile, List.takeWhile_append_of_pos, List.takeWhile_cons_of_neg, List.append_nil]
      · simp
      · intro b hb
        refine decide_eq_true ?_
        rintro rfl
        exact hnone hb
    have hparts : file = front.reverse ++ dot :: behind.reverse := by
      rw [← List.reverse_reverse file, hfile, List.reverse_append, List.reverse_cons,
        List.append_assoc]
      rfl
    have hbefore : file.take (file.length - behind.reverse.length - 1) = front.reverse := by
      rw [hparts]
      refine List.take_left' ?_
      rw [List.length_append, List.length_cons]
      omega
    rw [htake] at h
    simp only [hmem, not_true_eq_false, if_false, hbefore] at h
    by_cases hempty : front.reverse = []
    · rw [if_pos hempty] at h
      cases h
    · rw [if_neg hempty] at h
      obtain ⟨hfirst, hsecond⟩ := Prod.mk.inj h
      rw [hparts, Option.some.inj hfirst, Option.some.inj hsecond]
  · simp only [hmem, not_false_eq_true, if_true] at h
    cases h

/-- The last dot, where what follows has none. -/
theorem rsplitFileAtDot_append {before after : Path} (hbefore : before ≠ []) (hafter : after ≠ [])
    (hdot : dot ∉ after) :
    rsplitFileAtDot (before ++ dot :: after) = (some before, some after) := by
  have hlong : 3 ≤ (before ++ dot :: after).length := by
    have h₁ := List.length_pos_iff.mpr hbefore
    have h₂ := List.length_pos_iff.mpr hafter
    rw [List.length_append, List.length_cons]
    omega
  have hdots : before ++ dot :: after ≠ [dot, dot] := by
    intro heq
    rw [heq] at hlong
    exact absurd hlong (by decide)
  have hmem : dot ∈ before ++ dot :: after := List.mem_append_right _ List.mem_cons_self
  have htake : ((before ++ dot :: after).reverse.takeWhile (· ≠ dot)).reverse = after := by
    rw [List.reverse_append, List.reverse_cons, List.append_assoc, List.singleton_append,
      List.takeWhile_append_of_pos, List.takeWhile_cons_of_neg, List.append_nil,
      List.reverse_reverse]
    · simp
    · intro b hb
      refine decide_eq_true ?_
      rintro rfl
      exact hdot (List.mem_reverse.mp hb)
  have hfront : (before ++ dot :: after).take
      ((before ++ dot :: after).length - after.length - 1) = before := by
    refine List.take_left' ?_
    rw [List.length_append, List.length_cons]
    omega
  unfold rsplitFileAtDot
  simp only [if_neg hdots, htake, hmem, not_true_eq_false, if_false, hfront, if_neg hbefore]

/-- A name with an extension is its stem, a dot, and the extension. -/
theorem fileName_of_extension (h : extension path = some ext) :
    ∃ stem, fileStem path = some stem ∧ fileName path = some (stem ++ dot :: ext) := by
  obtain ⟨file, hfile, hsplit⟩ := Option.bind_eq_some_iff.mp h
  obtain ⟨before, hbefore, hafter⟩ := Option.bind_eq_some_iff.mp hsplit
  have hparts : rsplitFileAtDot file = (some before, some ext) := Prod.ext hbefore hafter
  refine ⟨before, ?_, ?_⟩
  · rw [fileStem, hfile]
    show (rsplitFileAtDot file).1.or _ = _
    rw [hparts]
    rfl
  · rw [hfile, rsplitFileAtDot_eq_some hparts]

/-! ## Names with an extension -/

/-- What can stand before an extension, and is printed as it is. -/
structure IsStem (stem : Path) : Prop where
  nonempty : stem ≠ []
  ascii : ∀ b ∈ stem, b < 0x80
  noSlash : slash ∉ stem

namespace IsStem
variable {stem : Path}

theorem lossy_eq (h : IsStem stem) : lossy stem = stem := lossy_of_ascii h.ascii

theorem isEntry (h : IsStem stem) (hext : ext ≠ []) (hslash : slash ∉ ext) :
    IsEntry (stem ++ dot :: ext) := by
  have hlong : 3 ≤ (stem ++ dot :: ext).length := by
    have h₁ := List.length_pos_iff.mpr h.nonempty
    have h₂ := List.length_pos_iff.mpr hext
    rw [List.length_append, List.length_cons]
    omega
  refine ⟨?_, ?_, ?_, ?_⟩
  · exact List.ne_nil_of_length_pos (Nat.lt_of_lt_of_le (by decide) hlong)
  · intro hmem
    rcases List.mem_append.mp hmem with hstem | hdot
    · exact h.noSlash hstem
    · rcases List.mem_cons.mp hdot with heq | hrest
      · exact absurd heq (by decide)
      · exact hslash hrest
  · intro heq
    rw [heq] at hlong
    exact absurd hlong (by decide)
  · intro heq
    rw [heq] at hlong
    exact absurd hlong (by decide)

theorem extension_join (h : IsStem stem) (hext : ext ≠ []) (hslash : slash ∉ ext)
    (hdot : dot ∉ ext) : extension (join dir (stem ++ dot :: ext)) = some ext := by
  rw [extension, fileName_join (h.isEntry hext hslash)]
  show (rsplitFileAtDot (stem ++ dot :: ext)).1.bind
    (fun _ => (rsplitFileAtDot (stem ++ dot :: ext)).2) = _
  rw [rsplitFileAtDot_append h.nonempty hext hdot]
  rfl

theorem fileStem_join (h : IsStem stem) (hext : ext ≠ []) (hslash : slash ∉ ext)
    (hdot : dot ∉ ext) : fileStem (join dir (stem ++ dot :: ext)) = some stem := by
  rw [fileStem, fileName_join (h.isEntry hext hslash)]
  show (rsplitFileAtDot (stem ++ dot :: ext)).1.or _ = _
  rw [rsplitFileAtDot_append h.nonempty hext hdot]
  rfl

end IsStem

end PathName
