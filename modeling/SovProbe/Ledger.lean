import SovProbe.History
import SovProbe.NextSegment

/-! # The ledger

One line of two numbers.  `persist_ledger` truncates the file and writes the line
again; where it is not given a read cursor it keeps the one it finds, and takes the
write cursor where it cannot find one.  What it writes it can read
(`cursorOf_ledgerLine`), and of the states a write passes through only the last has a
complete line.
-/

namespace SovProbe
open Process

/-! ## Reading a line -/

/-- The read cursor a ledger states. -/
def cursorOf (content : List UInt8) : Option UInt64 := do
  let chars ← (ByteArray.mk content.toArray).utf8Decode?
  match (chars.toList.splitOnP isWhitespace).filter (· ≠ []) with
  | _ :: second :: _ => Decimal.parseU64 (String.ofList second).toUTF8.toList
  | _ => none

theorem readCursor_eq (content : List UInt8) (writeCursor : UInt64) :
    readCursor content writeCursor = (cursorOf content).getD writeCursor := by
  unfold readCursor cursorOf
  cases (ByteArray.mk content.toArray).utf8Decode? with
  | none => rfl
  | some chars =>
    simp only [Option.bind_eq_bind, Option.bind_some]
    generalize (chars.toList.splitOnP isWhitespace).filter (· ≠ []) = fields
    rcases fields with - | ⟨first, - | ⟨second, rest⟩⟩
    · rfl
    · rfl
    · rfl

/-- The characters of ASCII bytes. -/
def asciiChars (bytes : List UInt8) : List Char := bytes.map fun b => Char.ofNat b.toNat

theorem asciiChars_append (bytes more : List UInt8) :
    asciiChars (bytes ++ more) = asciiChars bytes ++ asciiChars more := List.map_append

theorem utf8EncodeChar_ascii {b : UInt8} (h : b.toNat < 128) :
    String.utf8EncodeChar (Char.ofNat b.toNat) = [b] := by
  have key : ∀ n : Fin 128, String.utf8EncodeChar (Char.ofNat n) = [UInt8.ofNat n] := by decide
  rw [key ⟨b.toNat, h⟩, UInt8.ofNat_toNat]

theorem utf8Encode_asciiChars {bytes : List UInt8} (h : ∀ b ∈ bytes, b.toNat < 128) :
    (asciiChars bytes).utf8Encode = bytes.toByteArray := by
  have hbytes : (asciiChars bytes).flatMap String.utf8EncodeChar = bytes := by
    induction bytes with
    | nil => rfl
    | cons b bytes ih =>
      have hb := utf8EncodeChar_ascii (h b List.mem_cons_self)
      have hrest := ih fun x hx => h x (List.mem_cons_of_mem _ hx)
      rw [asciiChars, List.map_cons, List.flatMap_cons, hb]
      exact congrArg (b :: ·) hrest
  rw [List.utf8Encode, hbytes]

theorem byteArray_toList (bs : ByteArray) : bs.toList = bs.data.toList := by
  have key : ∀ (n i : Nat) (acc : List UInt8), bs.size - i = n →
      ByteArray.toList.loop bs i acc = acc.reverse ++ bs.data.toList.drop i := by
    intro n
    induction n with
    | zero =>
      intro i acc hn
      have hend : ¬ i < bs.size := by omega
      have hnone : bs.data.toList.drop i = [] := by
        refine List.drop_eq_nil_of_le ?_
        rw [Array.length_toList]
        exact Nat.not_lt.mp hend
      rw [ByteArray.toList.loop, if_neg hend, hnone, List.append_nil]
    | succ n ih =>
      intro i acc hn
      have hi : i < bs.size := by omega
      have hi' : i < bs.data.toList.length := by
        rw [Array.length_toList]
        exact hi
      have hget : bs.get! i = bs.data.toList[i] := by
        rw [Array.getElem_toList]
        exact getElem!_pos bs.data i hi
      rw [ByteArray.toList.loop, if_pos hi, ih (i + 1) _ (by omega), List.drop_eq_getElem_cons hi',
        hget, List.reverse_cons, List.append_assoc]
      rfl
  rw [ByteArray.toList, key bs.size 0 [] (Nat.sub_zero _)]
  rfl

theorem toUTF8_asciiChars {bytes : List UInt8} (h : ∀ b ∈ bytes, b.toNat < 128) :
    (String.ofList (asciiChars bytes)).toUTF8.toList = bytes := by
  rw [String.toUTF8_eq_toByteArray, String.toByteArray_ofList, utf8Encode_asciiChars h,
    byteArray_toList, List.toList_data_toByteArray]

theorem utf8Decode_ascii {bytes : List UInt8} (h : ∀ b ∈ bytes, b.toNat < 128) :
    (ByteArray.mk bytes.toArray).utf8Decode? = some (asciiChars bytes).toArray := by
  have hbytes : ByteArray.mk bytes.toArray = (asciiChars bytes).utf8Encode := by
    rw [utf8Encode_asciiChars h]
    exact ByteArray.ext List.data_toByteArray.symm
  rw [hbytes, List.utf8Decode?_utf8Encode]

/-- A formatted number is digits. -/
theorem toNat_of_mem_pad {w n : Nat} {b : UInt8} (h : b ∈ Decimal.pad w n) :
    48 ≤ b.toNat ∧ b.toNat ≤ 57 := by
  have hdigit := Decimal.isDigit_of_mem_pad h
  rw [Decimal.isDigit, Bool.and_eq_true, decide_eq_true_eq, decide_eq_true_eq,
    UInt8.le_iff_toNat_le, UInt8.le_iff_toNat_le] at hdigit
  exact hdigit

theorem isWhitespace_asciiChars {w n : Nat} :
    ∀ c ∈ asciiChars (Decimal.pad w n), isWhitespace c = false := by
  have key : ∀ k : Fin 10, isWhitespace (Char.ofNat (48 + k)) = false := by decide
  intro c hc
  obtain ⟨b, hb, rfl⟩ := List.mem_map.mp hc
  obtain ⟨hle, hge⟩ := toNat_of_mem_pad hb
  have hdigit := key ⟨b.toNat - 48, by omega⟩
  rwa [Nat.add_sub_cancel' hle] at hdigit

theorem mem_ledgerLine {writeCursor read : UInt64} {b : UInt8}
    (h : b ∈ ledgerLine writeCursor read) : b.toNat < 128 := by
  rw [ledgerLine, List.mem_append, List.mem_append, List.mem_append] at h
  rcases h with ((hfirst | hblank) | hsecond) | hend
  · have := toNat_of_mem_pad hfirst
    omega
  · rw [List.mem_singleton.mp hblank]
    decide
  · have := toNat_of_mem_pad hsecond
    omega
  · rw [List.mem_singleton.mp hend]
    decide

/-- **What is written can be read.** -/
theorem cursorOf_ledgerLine (writeCursor read : UInt64) :
    cursorOf (ledgerLine writeCursor read) = some read := by
  have hne : ∀ n, asciiChars (Decimal.pad 1 n) ≠ [] := by
    intro n hnil
    exact Decimal.pad_ne_nil (Nat.zero_lt_one) n (List.map_eq_nil_iff.mp hnil)
  have hchars : asciiChars (ledgerLine writeCursor read) =
      asciiChars (Decimal.pad 1 writeCursor.toNat) ++
        ' ' :: (asciiChars (Decimal.pad 1 read.toNat) ++ '\n' :: []) := by
    rw [ledgerLine, asciiChars_append, asciiChars_append, asciiChars_append, List.append_assoc,
      List.append_assoc]
    rfl
  have hascii : ∀ b ∈ Decimal.pad 1 read.toNat, b.toNat < 128 := by
    intro b hb
    have := toNat_of_mem_pad hb
    omega
  unfold cursorOf
  rw [utf8Decode_ascii fun b hb => mem_ledgerLine hb]
  simp only [Option.bind_eq_bind, Option.bind_some, hchars]
  rw [List.splitOnP_append_cons_of_forall_mem isWhitespace_asciiChars ' ' rfl,
    List.splitOnP_append_cons_of_forall_mem isWhitespace_asciiChars '\n' rfl, List.splitOnP_nil]
  simp only [ne_eq, hne, not_false_eq_true, decide_true, List.filter_cons_of_pos]
  rw [toUTF8_asciiChars hascii, Decimal.parseU64_pad Nat.zero_lt_one]

/-! ## Writing it -/

/-- The read cursor `persist_ledger` finds. -/
def ledgerCursor (fs : FileSystem) : Option UInt64 := (fs.file? ledgerPath).bind cursorOf

/-- The read cursor of a ledger with a complete line, which ends with a newline. -/
def published (fs : FileSystem) : Option UInt64 := do
  let content ← fs.file? ledgerPath
  if content.getLast? = some 10 then cursorOf content else none

/-- The inode of the ledger, once it is open. -/
def ledgerInode (fs : FileSystem) : Nat := (fs.dir.lookup ledgerPath).getD fs.inodes.length

/-- The directory with a ledger, whatever it contains. -/
def opened (fs : FileSystem) : FileSystem :=
  match fs.dir.lookup ledgerPath with
  | some _ => fs
  | none => fs.link ledgerPath

/-- The directory with an empty ledger. -/
def truncated (fs : FileSystem) : FileSystem := (opened fs).setContent (ledgerInode fs) []

/-- The directory with a new line in the ledger. -/
def withLedger (fs : FileSystem) (line : List UInt8) : FileSystem :=
  (truncated fs).append (ledgerInode fs) line

variable {fs : FileSystem} {r : Rotator} {line : List UInt8} {writeCursor read : UInt64}

theorem ledgerCursor_of_published {a : UInt64} (h : published fs = some a) :
    ledgerCursor fs = some a := by
  unfold published at h
  unfold ledgerCursor
  cases hfile : fs.file? ledgerPath with
  | none =>
    rw [hfile] at h
    cases h
  | some content =>
    rw [hfile, Option.bind_eq_bind, Option.bind_some] at h
    split at h
    · exact h
    · cases h

theorem published_of_file? {content : List UInt8} (h : fs.file? ledgerPath = some content) :
    published fs = if content.getLast? = some 10 then cursorOf content else none := by
  rw [published, h]
  rfl

theorem lookup_truncated : (truncated fs).dir.lookup ledgerPath = some (ledgerInode fs) := by
  unfold truncated opened ledgerInode
  cases hlookup : fs.dir.lookup ledgerPath with
  | some i => exact hlookup
  | none => exact AList.lookup_insert _

theorem content_truncated : (truncated fs).content (ledgerInode fs) = [] := by
  have hi := (truncated fs).inode_lt lookup_truncated
  unfold truncated at hi ⊢
  rw [FileSystem.length_setContent] at hi
  exact FileSystem.content_setContent hi

theorem file?_append_truncated : ((truncated fs).append (ledgerInode fs) line).file? ledgerPath =
    some line := by
  rw [FileSystem.file?_append lookup_truncated, content_truncated, List.nil_append]

theorem file?_withLedger : (withLedger fs line).file? ledgerPath = some line :=
  file?_append_truncated

theorem segments_withLedger : segments (withLedger fs line) = segments fs := by
  unfold withLedger truncated FileSystem.append opened
  rw [segments_setContent, segments_setContent]
  cases fs.dir.lookup ledgerPath with
  | some i => rfl
  | none => exact segments_linkLedger fs

theorem published_truncated : published (truncated fs) = none := by
  have hfile : (truncated fs).file? ledgerPath = some [] := by
    rw [FileSystem.file?_of_lookup lookup_truncated, content_truncated]
  rw [published_of_file? hfile]
  rfl

theorem published_withLedger :
    published (withLedger fs (ledgerLine writeCursor read)) = some read := by
  have hnewline : (ledgerLine writeCursor read).getLast? = some 10 := List.getLast?_concat
  rw [published_of_file? file?_withLedger, if_pos hnewline, cursorOf_ledgerLine]

theorem ledgerCursor_withLedger :
    ledgerCursor (withLedger fs (ledgerLine writeCursor read)) = some read :=
  ledgerCursor_of_published published_withLedger

/-- A line that is not complete is not published. -/
theorem published_torn {k : Nat} (hk : k < (ledgerLine writeCursor read).length) :
    published ((truncated fs).append (ledgerInode fs) ((ledgerLine writeCursor read).take k)) =
      none := by
  have hbody : ∃ body, ledgerLine writeCursor read = body ++ ascii "\n" ∧ (10 : UInt8) ∉ body := by
    refine ⟨_, rfl, fun hmem => ?_⟩
    rw [List.mem_append, List.mem_append] at hmem
    rcases hmem with (hfirst | hblank) | hsecond
    · exact absurd (toNat_of_mem_pad hfirst).1 (by decide)
    · exact absurd (List.mem_singleton.mp hblank) (by decide)
    · exact absurd (toNat_of_mem_pad hsecond).1 (by decide)
  obtain ⟨body, hline, hnewline⟩ := hbody
  have hone : (ascii "\n").length = 1 := rfl
  rw [hline, List.length_append, hone] at hk
  rw [published_of_file? file?_append_truncated, hline,
    List.take_append_of_le_length (Nat.le_of_lt_succ hk), if_neg]
  intro hlast
  exact hnewline (List.take_subset _ _ (List.mem_of_getLast? hlast))

section
variable {R : UInt64 → UInt64 → Prop} {last : Option UInt64}

theorem shows_openLedger {rest : Rest FileSystem Rotator Nat UInt64} :
    (openAppend ledgerPath).Shows R published rest last fs r ↔
      rest (some (ledgerInode fs)) (opened fs) r last := by
  unfold openAppend opened ledgerInode
  simp only [shows_bind, shows_read]
  cases hlookup : fs.dir.lookup ledgerPath with
  | some i => simp only [shows_pure, Option.getD_some]
  | none =>
    have hlink : published ((fun t : FileSystem => t.link ledgerPath) fs) = none := by
      rw [published_of_file? FileSystem.file?_link]
      rfl
    simp only [shows_bind, shows_read, Option.getD_none]
    rw [shows_write_none hlink]
    simp only [shows_pure]

/-- Appending bytes of which only the whole shows a value. -/
theorem shows_writeAll {rest : Rest FileSystem Rotator Unit UInt64} {i : Nat}
    (hnone : ∀ k, k < line.length → published (fs.append i (line.take k)) = none)
    (h : published (fs.append i line) = some read) :
    (writeAll i line).Shows R published rest last fs r ↔
      (∀ a ∈ last, R a read) ∧ rest (some ()) (fs.append i line) r (some read) := by
  have hwhole : published (fs.append i (line.take line.length)) = some read := by
    rw [List.take_length]
    exact h
  unfold writeAll
  rw [shows_writeSteps (f := fun k t => FileSystem.append t i (line.take k)) hnone hwhole,
    List.take_length]

/-- **A write of the ledger** shows its cursor and nothing else. -/
theorem shows_writeLedger {rest : Rest FileSystem Rotator Unit UInt64} :
    Shows R published
      (do
        let f ← openTruncate ledgerPath
        writeAll f (ledgerLine writeCursor read) : Process FileSystem Rotator Unit)
      rest last fs r ↔
      (∀ a ∈ last, R a read) ∧
        rest (some ()) (withLedger fs (ledgerLine writeCursor read)) r (some read) := by
  have htruncate :
      published ((fun t : FileSystem => t.setContent (ledgerInode fs) []) (opened fs)) = none :=
    published_truncated
  have hline : (writeAll (ledgerInode fs) (ledgerLine writeCursor read)).Shows R published rest last
      (truncated fs) r ↔ (∀ a ∈ last, R a read) ∧
        rest (some ()) (withLedger fs (ledgerLine writeCursor read)) r (some read) :=
    shows_writeAll (fun k hk => published_torn hk) published_withLedger
  unfold openTruncate
  simp only [shows_bind, shows_openLedger]
  rw [shows_write_none htruncate]
  simp only [shows_pure]
  exact hline

/-- **What `persist_ledger` writes.** -/
theorem shows_persistLedger (cursor : Option UInt64) {rest : Rest FileSystem Rotator Unit UInt64}
    (hread : read = cursor.getD ((ledgerCursor fs).getD writeCursor)) :
    (Rotator.persistLedger writeCursor cursor).Shows R published rest last fs r ↔
      (∀ a ∈ last, R a read) ∧
        rest (some ()) (withLedger fs (ledgerLine writeCursor read)) r (some read) := by
  unfold Rotator.persistLedger
  cases cursor with
  | some cursor =>
    rw [Option.getD_some] at hread
    rw [hread, shows_bind, shows_pure]
    exact shows_writeLedger
  | none =>
    rw [Option.getD_none, ledgerCursor] at hread
    rw [shows_bind, shows_read]
    cases hfile : fs.file? ledgerPath with
    | none =>
      rw [hfile] at hread
      rw [hread]
      exact shows_writeLedger
    | some content =>
      rw [hfile, Option.bind_some, ← readCursor_eq] at hread
      rw [hread]
      exact shows_writeLedger

/-! ## The eviction loop -/

/-- The cursor in the ledger before an iteration. -/
def cursorBefore (cursor : Option UInt64) (minNo : UInt64) : Nat → Option UInt64
  | 0 => cursor
  | j + 1 => some (minNo + UInt64.ofNat (j + 1))

variable (R) in
/-- Each cursor the loop writes is related to the one before it. -/
def Advances (fuel : Nat) (S : Finset FileName) (room : Nat) (minNo : UInt64)
    (cursor : Option UInt64) : Prop :=
  ∀ j, j < fuel → room < (sweep S minNo.toNat j).card →
    ∀ a ∈ cursorBefore cursor minNo j, R a (minNo + UInt64.ofNat (j + 1))

theorem Advances.of_le {fuel room : Nat} {S : Finset FileName} {minNo : UInt64}
    {cursor : Option UInt64} (h : S.card ≤ room) : Advances R fuel S room minNo cursor := by
  intro j _ hover
  have hle := Finset.card_le_card (Finset.sdiff_subset :
    sweep S minNo.toNat j ⊆ S)
  exact absurd hover (Nat.not_lt.mpr (Nat.le_trans hle h))

/-- The first iteration and the others. -/
theorem advances_succ {fuel room : Nat} {S S₁ : Finset FileName} {minNo : UInt64}
    {cursor : Option UInt64} (hover : room < S.card)
    (hsweep : ∀ j, sweep S₁ (minNo + 1).toNat j = sweep S minNo.toNat (j + 1)) :
    Advances R (fuel + 1) S room minNo cursor ↔
      (∀ a ∈ cursor, R a (minNo + 1)) ∧ Advances R fuel S₁ room (minNo + 1) (some (minNo + 1)) := by
  have hnext : ∀ j, minNo + 1 + UInt64.ofNat j = minNo + UInt64.ofNat (j + 1) := by
    intro j
    rw [UInt64.ofNat_add, UInt64.add_assoc, UInt64.add_comm 1]
    rfl
  have hbefore : ∀ j, cursorBefore (some (minNo + 1)) (minNo + 1) j =
      cursorBefore cursor minNo (j + 1) := by
    intro j
    cases j with
    | zero => rfl
    | succ j => exact congrArg some (hnext (j + 1))
  constructor
  · intro h
    refine ⟨fun a ha => ?_, fun j hj hroom a ha => ?_⟩
    · exact h 0 (Nat.succ_pos fuel) (by rwa [sweep_zero]) a ha
    · rw [hsweep] at hroom
      rw [hbefore] at ha
      rw [hnext]
      exact h (j + 1) (Nat.succ_lt_succ hj) hroom a ha
  · rintro ⟨hfirst, hlater⟩ j hj hroom a ha
    cases j with
    | zero => exact hfirst a ha
    | succ j =>
      rw [← hsweep] at hroom
      rw [← hbefore] at ha
      have hrel := hlater j (Nat.lt_of_succ_lt_succ hj) hroom a ha
      rwa [hnext] at hrel

/-- What the loop leaves in the ledger. -/
def LedgerAfter (fs : FileSystem) (r : Rotator) (t : FileSystem) (r' : Rotator) : Prop :=
  ((segments fs).card ≤ r.maxSegments → t = fs ∧ r' = r) ∧
    (r.maxSegments < (segments fs).card → t.file? ledgerPath = some (ledgerLine r.segNo r'.minNo))

theorem published_congr {t : FileSystem} (h : t.file? ledgerPath = fs.file? ledgerPath) :
    published t = published fs := by
  rw [published, published, h]

theorem file?_remove_ne {name name' : FileName} (hne : name' ≠ name) :
    (fs.remove name).file? name' = fs.file? name' := by
  rw [FileSystem.file?, FileSystem.file?, FileSystem.dir_remove, AList.lookup_erase_ne hne]
  rfl

/-- The rest of an iteration and of the loop, once the oldest name is gone. -/
theorem shows_evictionRest {fuel : Nat} {fs₀ : FileSystem}
    {rest : Rest FileSystem Rotator Unit UInt64}
    (hover : r.maxSegments < (segments fs).card)
    (hsegments : segments fs₀ = (segments fs).erase (segPath r.minNo.toNat))
    (hrest : ∀ t r', LedgerAfter fs r t r' → rest (some ()) t r' (published t))
    (hloop : ∀ fs r, (∀ t r', LedgerAfter fs r t r' → rest (some ()) t r' (published t)) →
      ((Rotator.enforceBudget fuel).Shows R published rest (published fs) fs r ↔
        Advances R fuel (segments fs) r.maxSegments r.minNo (published fs))) :
    Shows R published
      (do
        modify fun self : Rotator => { self with minNo := self.minNo + 1 }
        let self ← get
        Rotator.persistLedger self.segNo (some self.minNo)
        Rotator.enforceBudget fuel : Process FileSystem Rotator Unit)
      rest (published fs) fs₀ r ↔
      Advances R (fuel + 1) (segments fs) r.maxSegments r.minNo (published fs) := by
  have hsegments₁ : segments (withLedger fs₀ (ledgerLine r.segNo (r.minNo + 1))) =
      (segments fs).erase (segPath r.minNo.toNat) := segments_withLedger.trans hsegments
  have hpublished : published (withLedger fs₀ (ledgerLine r.segNo (r.minNo + 1))) =
      some (r.minNo + 1) := published_withLedger
  have hafter : ∀ t r', LedgerAfter (withLedger fs₀ (ledgerLine r.segNo (r.minNo + 1)))
      { r with minNo := r.minNo + 1 } t r' → LedgerAfter fs r t r' := by
    rintro t r' ⟨hstop, hmore⟩
    refine ⟨fun hle => absurd hover (Nat.not_lt.mpr hle), fun _ => ?_⟩
    rcases Nat.lt_or_ge r.maxSegments
      (segments (withLedger fs₀ (ledgerLine r.segNo (r.minNo + 1)))).card with hlt | hle
    · exact hmore hlt
    · obtain ⟨rfl, rfl⟩ := hstop hle
      exact file?_withLedger
  simp only [shows_bind, shows_modify, shows_get]
  rw [shows_persistLedger (some (r.minNo + 1)) rfl,
    advances_succ hover fun j => Swept.sweep_next hsegments₁ j]
  refine and_congr_right fun _ => ?_
  have hrun := hloop (withLedger fs₀ (ledgerLine r.segNo (r.minNo + 1)))
    { r with minNo := r.minNo + 1 } fun t r' h => hrest t r' (hafter t r' h)
  rwa [hpublished] at hrun

/-- **The cursors the loop writes**, from any directory and any state of the rotator. -/
theorem shows_enforceBudget (hR : ∀ a, R a a) {rest : Rest FileSystem Rotator Unit UInt64}
    (fuel : Nat) (fs : FileSystem) (r : Rotator)
    (hrest : ∀ t r', LedgerAfter fs r t r' → rest (some ()) t r' (published t)) :
    (Rotator.enforceBudget fuel).Shows R published rest (published fs) fs r ↔
      Advances R fuel (segments fs) r.maxSegments r.minNo (published fs) := by
  induction fuel generalizing fs r with
  | zero =>
    refine ⟨fun _ j hj => absurd hj (Nat.not_lt_zero j), fun _ => shows_stuck.mpr trivial⟩
  | succ fuel ih =>
    unfold Rotator.enforceBudget
    simp only [shows_bind, shows_read, shows_get, existingCount_eq]
    by_cases hcount : (segments fs).card ≤ r.maxSegments
    · rw [if_pos hcount, shows_pure]
      refine ⟨fun _ => Advances.of_le hcount, fun _ => hrest fs r ⟨fun _ => ⟨rfl, rfl⟩, ?_⟩⟩
      exact fun hover => absurd hover (Nat.not_lt.mpr hcount)
    rw [if_neg hcount]
    rw [Nat.not_le] at hcount
    by_cases hexists : segPath r.minNo.toNat ∈ fs
    · have hcontains : fs.contains (segPath r.minNo.toNat) = true := decide_eq_true hexists
      have hsame : published ((fun t : FileSystem => t.remove (segPath r.minNo.toNat)) fs) =
          published fs := published_congr (file?_remove_ne (Ne.symm (segPath_ne_ledgerPath _)))
      have htail := shows_evictionRest hcount (segments_remove fs _) hrest ih
      simp only [shows_bind, shows_read, hcontains, if_true, removeFile]
      rw [shows_write_same hR hsame]
      simpa only [shows_bind] using htail
    · have hcontains : fs.contains (segPath r.minNo.toNat) = false := decide_eq_false hexists
      have herase : segments fs = (segments fs).erase (segPath r.minNo.toNat) := by
        rw [Finset.erase_eq_of_notMem fun hmem => hexists (mem_segments.mp hmem).1]
      have htail := shows_evictionRest hcount herase hrest ih
      simp only [shows_bind, shows_read, hcontains, Bool.false_eq_true, if_false]
      simpa only [shows_bind] using htail

end

end SovProbe
