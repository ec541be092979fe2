import SovProbe.WriterLog

/-! # The operations of the writer

What each operation of the writer does to the disk and to its memory.  Through the
buffer, bytes reach the file in order and without gaps: whatever `write_all` and
`flush` do, some number of the bytes that wait have gone to the file and the rest
still wait.  Opening a segment is `next_segment` and a new empty buffer.
-/

namespace SovProbe
open Process

namespace WalWriter
variable {fs : FileSystem} {w : WalWriter} {f : BufWriter} {bytes : List UInt8}
  {crash : FileSystem → Prop} {post : Post FileSystem WalWriter Unit}

theorem file_self (hfile : w.file = some f) : { w with file := some f } = w := by
  rw [← hfile]

theorem holds_flush (hfile : w.file = some f) :
    flush.Holds crash post fs w ↔
      (∀ n, n ≤ f.buffer.length → crash (fs.append f.inode (f.buffer.take n))) ∧
        post.done () (fs.append f.inode f.buffer) { w with file := some ⟨f.inode, []⟩ } := by
  simp [flush, hfile]

/-- A flush without effect. -/
theorem holds_flush_idle (hidle : ∀ f, w.file = some f → f.buffer = []) (hcrash : crash fs)
    (hdone : post.done () fs w) : flush.Holds crash post fs w := by
  cases hfile : w.file with
  | none => simpa [flush, hfile] using hdone
  | some f =>
    obtain ⟨inode, buffer⟩ := f
    obtain rfl : buffer = [] := hidle _ hfile
    rw [holds_flush hfile, file_self hfile]
    refine ⟨fun n _ => ?_, ?_⟩
    · rwa [List.take_nil, FileSystem.append_nil]
    · rwa [FileSystem.append_nil]

/-- **`write_all`** through the buffer. -/
theorem holds_bufWriteAll (hfile : w.file = some f) (hinode : f.inode < fs.inodes.length)
    (hcrash : ∀ n, n ≤ (f.buffer ++ bytes).length →
      crash (fs.append f.inode ((f.buffer ++ bytes).take n)))
    (hdone : ∀ n, n ≤ (f.buffer ++ bytes).length →
      post.done () (fs.append f.inode ((f.buffer ++ bytes).take n))
        { w with file := some ⟨f.inode, (f.buffer ++ bytes).drop n⟩ }) :
    (bufWriteAll bytes).Holds crash post fs w := by
  have hlength : (f.buffer ++ bytes).length = f.buffer.length + bytes.length := List.length_append
  -- the first bytes to go are those of the buffer
  have htake : ∀ n, n ≤ f.buffer.length → (f.buffer ++ bytes).take n = f.buffer.take n :=
    fun n hn => List.take_append_of_le_length hn
  have hnone := hdone 0 (Nat.zero_le _)
  rw [List.take_zero, FileSystem.append_nil, List.drop_zero] at hnone
  have hbuffer := hdone f.buffer.length (by omega)
  rw [htake _ (Nat.le_refl _), List.take_length, List.drop_left] at hbuffer
  have hall := hdone (f.buffer ++ bytes).length (Nat.le_refl _)
  rw [List.take_length, List.drop_length] at hall
  -- and then those of `bytes`
  have hmore : ∀ n, n ≤ bytes.length →
      crash ((fs.append f.inode f.buffer).append f.inode (bytes.take n)) := by
    intro n hn
    have hlater := hcrash (f.buffer.length + n) (by omega)
    rwa [List.take_length_add_append, ← FileSystem.append_append hinode] at hlater
  rw [← FileSystem.append_append hinode] at hall
  unfold bufWriteAll
  simp only [holds_bind, holds_get, hfile]
  by_cases hroom : bytes.length < bufCapacity - f.buffer.length
  · rw [if_pos hroom, holds_modify]
    exact hnone
  rw [if_neg hroom]
  by_cases hover : bytes.length > bufCapacity - f.buffer.length
  · rw [if_pos hover]
    simp only [holds_bind]
    rw [holds_flush hfile]
    refine ⟨fun n hn => htake n hn ▸ hcrash n (by omega), ?_⟩
    by_cases hlarge : bytes.length ≥ bufCapacity
    · rw [if_pos hlarge]
      exact (holds_writeAll _ _).mpr ⟨hmore, hall⟩
    · rw [if_neg hlarge]
      exact (holds_modify _).mpr hbuffer
  · rw [if_neg hover]
    by_cases hlarge : bytes.length ≥ bufCapacity
    · -- the bytes would just fill an empty buffer
      obtain ⟨inode, buffer⟩ := f
      obtain rfl : buffer = [] := by
        refine List.eq_nil_of_length_eq_zero ?_
        have : 0 < bufCapacity := by decide
        simp only at hroom hover
        omega
      rw [FileSystem.append_nil] at hmore hall
      rw [file_self hfile] at hall
      rw [if_pos hlarge, holds_writeAll]
      exact ⟨hmore, hall⟩
    · rw [if_neg hlarge, holds_modify, hfile]
      exact hnone

/-- **Opening a segment** when nothing waits in the buffer, in a directory whose
numbering is in order. -/
theorem holds_openSegment {maxSegments limit fuel : Nat} {start : FileSystem} {allocated : List Nat}
    (now : Nat) (hmax : 1 ≤ maxSegments) (hroom : limit + 1 < 2 ^ 64) (hfuel : 2 ^ 64 < fuel)
    (hidle : ∀ f, w.file = some f → f.buffer = [])
    (hkept : Retained maxSegments start limit fs w.rotator allocated)
    (hcrash : ∀ k t, Swept (w.rotator.made fs) w.rotator.advanced k t → crash t)
    (hdone : ∀ k t r', Swept (w.rotator.made fs) w.rotator.advanced k t →
      Retained maxSegments start (limit + 1) t r' (allocated ++ [w.rotator.segNo.toNat]) →
      post.done () t { w with
        rotator := r'
        file := some ⟨fs.inodes.length, []⟩
        written := 0
        nextRotate := now + w.rotateInterval }) :
    (openSegment fuel now).Holds crash post fs w := by
  unfold openSegment
  rw [holds_bind, holds_zoom]
  refine (hkept.holds_nextSegment hmax hroom hfuel).mono (fun t ⟨k, ht⟩ => hcrash k t ht) ?_
    (fun _ _ h => h.elim) (fun h => h.elim)
  rintro name t r' ⟨rfl, ⟨k, ht⟩, hkept'⟩
  have hmem : w.rotator.wanted ∈ t :=
    (mem_segments.mp (mem_numbers.mp
      (hkept.intact.wanted_mem_swept (hkept.max_eq ▸ hmax) ht)).1).1
  simp only [holds_bind, holds_openAppend, ht.lookup_wanted hmem]
  refine holds_flush_idle hidle (hcrash k t ht) ?_
  exact (holds_modify _).mpr (hdone k t r' ht hkept')

end WalWriter
end SovProbe
