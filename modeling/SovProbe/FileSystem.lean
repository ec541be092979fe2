import SovProbe.Process
import Mathlib.Data.List.AList

/-! # A directory of files

One directory: names, the inodes they stand for, and the contents of the inodes.
An inode keeps its content when its name is removed, since a process may still hold
it open.  `created` is the history of the files made by `createNew`; no operation
reads it.

The operations come twice, as functions on the directory and as steps of a
process.  Bytes are appended one by one, so that a crash can leave any prefix of
them.
-/

/-- The bytes of a name. -/
abbrev FileName := List UInt8

/-- A directory of names, and the contents of the inodes they stand for. -/
structure FileSystem where
  dir : AList (fun _ : FileName => Nat)
  inodes : List (List UInt8)
  /-- The names and inodes made by `createNew`, oldest first. -/
  created : List (FileName × Nat)
  /-- Every name stands for an inode that exists. -/
  inode_lt : ∀ {name i}, dir.lookup name = some i → i < inodes.length
  /-- No inode has two names. -/
  inode_inj : ∀ {name name' i}, dir.lookup name = some i → dir.lookup name' = some i → name = name'

namespace FileSystem

/-- The names in the directory, as `read_dir` lists them. -/
def names (fs : FileSystem) : List FileName := fs.dir.keys

instance : Membership FileName FileSystem := ⟨fun fs name => name ∈ fs.dir⟩

instance (name : FileName) (fs : FileSystem) : Decidable (name ∈ fs) :=
  inferInstanceAs (Decidable (name ∈ fs.dir))

/-- `Path::exists`. -/
def contains (fs : FileSystem) (name : FileName) : Bool := decide (name ∈ fs)

/-- The content of an inode. -/
def content (fs : FileSystem) (i : Nat) : List UInt8 := fs.inodes.getD i []

/-- The content of the file of that name. -/
def file? (fs : FileSystem) (name : FileName) : Option (List UInt8) :=
  (fs.dir.lookup name).map fs.content

/-- A directory without files. -/
def empty : FileSystem where
  dir := ∅
  inodes := []
  created := []
  inode_lt h := by cases h
  inode_inj h := by cases h

/-- A new empty file under a name. -/
def link (fs : FileSystem) (name : FileName) : FileSystem where
  dir := fs.dir.insert name fs.inodes.length
  inodes := fs.inodes ++ [[]]
  created := fs.created
  inode_lt := by
    intro name' i h
    rw [List.length_append, List.length_singleton]
    by_cases hname : name' = name
    · rw [hname, AList.lookup_insert] at h
      have := Option.some.inj h
      omega
    · rw [AList.lookup_insert_ne hname] at h
      exact Nat.lt_succ_of_lt (fs.inode_lt h)
  inode_inj := by
    intro name₁ name₂ i h₁ h₂
    by_cases hname₁ : name₁ = name <;> by_cases hname₂ : name₂ = name
    · rw [hname₁, hname₂]
    · rw [hname₁, AList.lookup_insert] at h₁
      rw [AList.lookup_insert_ne hname₂] at h₂
      have := fs.inode_lt h₂
      have := Option.some.inj h₁
      omega
    · rw [hname₂, AList.lookup_insert] at h₂
      rw [AList.lookup_insert_ne hname₁] at h₁
      have := fs.inode_lt h₁
      have := Option.some.inj h₂
      omega
    · rw [AList.lookup_insert_ne hname₁] at h₁
      rw [AList.lookup_insert_ne hname₂] at h₂
      exact fs.inode_inj h₁ h₂

/-- Puts the name of a file just made on record. -/
def record (fs : FileSystem) (name : FileName) (i : Nat) : FileSystem :=
  { fs with created := fs.created ++ [(name, i)] }

/-- Removes a name. -/
def remove (fs : FileSystem) (name : FileName) : FileSystem where
  dir := fs.dir.erase name
  inodes := fs.inodes
  created := fs.created
  inode_lt := by
    intro name' i h
    by_cases hname : name' = name
    · rw [hname, AList.lookup_erase] at h
      cases h
    · rw [AList.lookup_erase_ne hname] at h
      exact fs.inode_lt h
  inode_inj := by
    intro name₁ name₂ i h₁ h₂
    by_cases hname₁ : name₁ = name
    · rw [hname₁, AList.lookup_erase] at h₁
      cases h₁
    by_cases hname₂ : name₂ = name
    · rw [hname₂, AList.lookup_erase] at h₂
      cases h₂
    rw [AList.lookup_erase_ne hname₁] at h₁
    rw [AList.lookup_erase_ne hname₂] at h₂
    exact fs.inode_inj h₁ h₂

/-- Replaces the content of an inode. -/
def setContent (fs : FileSystem) (i : Nat) (bytes : List UInt8) : FileSystem where
  dir := fs.dir
  inodes := fs.inodes.set i bytes
  created := fs.created
  inode_lt := by
    intro name j h
    rw [List.length_set]
    exact fs.inode_lt h
  inode_inj := fs.inode_inj

/-- Writes at the end of an inode. -/
def append (fs : FileSystem) (i : Nat) (bytes : List UInt8) : FileSystem :=
  fs.setContent i (fs.content i ++ bytes)

/-! ## What the operations change -/

variable {fs : FileSystem} {name name' : FileName} {i j : Nat} {bytes : List UInt8}

theorem mem_names : name ∈ fs.names ↔ name ∈ fs := Iff.rfl

theorem names_nodup (fs : FileSystem) : fs.names.Nodup := fs.dir.keys_nodup

@[simp] theorem mem_link : name' ∈ fs.link name ↔ name' = name ∨ name' ∈ fs := AList.mem_insert _

@[simp] theorem mem_remove : name' ∈ fs.remove name ↔ name' ≠ name ∧ name' ∈ fs := AList.mem_erase

@[simp] theorem mem_setContent : name' ∈ fs.setContent i bytes ↔ name' ∈ fs := Iff.rfl

@[simp] theorem mem_append : name' ∈ fs.append i bytes ↔ name' ∈ fs := Iff.rfl

@[simp] theorem mem_record : name' ∈ fs.record name i ↔ name' ∈ fs := Iff.rfl

@[simp] theorem created_link : (fs.link name).created = fs.created := rfl

@[simp] theorem created_remove : (fs.remove name).created = fs.created := rfl

@[simp] theorem created_setContent : (fs.setContent i bytes).created = fs.created := rfl

@[simp] theorem created_append : (fs.append i bytes).created = fs.created := rfl

@[simp] theorem created_record : (fs.record name i).created = fs.created ++ [(name, i)] := rfl

@[simp] theorem dir_link : (fs.link name).dir = fs.dir.insert name fs.inodes.length := rfl

@[simp] theorem dir_remove : (fs.remove name).dir = fs.dir.erase name := rfl

@[simp] theorem dir_setContent : (fs.setContent i bytes).dir = fs.dir := rfl

@[simp] theorem dir_append : (fs.append i bytes).dir = fs.dir := rfl

@[simp] theorem dir_record : (fs.record name i).dir = fs.dir := rfl

@[simp] theorem length_link : (fs.link name).inodes.length = fs.inodes.length + 1 := by
  rw [link, List.length_append]
  rfl

@[simp] theorem length_setContent : (fs.setContent i bytes).inodes.length = fs.inodes.length := by
  rw [setContent, List.length_set]

@[simp] theorem length_append : (fs.append i bytes).inodes.length = fs.inodes.length :=
  length_setContent

@[simp] theorem length_record : (fs.record name i).inodes.length = fs.inodes.length := rfl

@[simp] theorem content_remove : (fs.remove name).content i = fs.content i := rfl

@[simp] theorem content_record : (fs.record name j).content i = fs.content i := rfl

theorem content_link (hi : i < fs.inodes.length) : (fs.link name).content i = fs.content i := by
  rw [content, content, link, List.getD_eq_getElem?_getD, List.getElem?_append_left hi,
    List.getD_eq_getElem?_getD]

theorem content_link_new : (fs.link name).content fs.inodes.length = [] := by
  rw [content, link, List.getD_eq_getElem?_getD, List.getElem?_concat_length]
  rfl

theorem content_setContent (hi : i < fs.inodes.length) :
    (fs.setContent i bytes).content i = bytes := by
  rw [content, setContent, List.getD_eq_getElem?_getD, List.getElem?_set_self hi]
  rfl

theorem content_setContent_ne (hne : i ≠ j) : (fs.setContent i bytes).content j = fs.content j := by
  rw [content, content, setContent, List.getD_eq_getElem?_getD, List.getElem?_set_ne hne,
    List.getD_eq_getElem?_getD]

theorem content_append (hi : i < fs.inodes.length) :
    (fs.append i bytes).content i = fs.content i ++ bytes :=
  content_setContent hi

theorem content_append_ne (hne : i ≠ j) : (fs.append i bytes).content j = fs.content j :=
  content_setContent_ne hne

/-! ## Files by name -/

theorem file?_of_lookup (h : fs.dir.lookup name = some i) :
    fs.file? name = some (fs.content i) := by
  rw [file?, h, Option.map_some]

theorem file?_link : (fs.link name).file? name = some [] := by
  rw [file?_of_lookup (AList.lookup_insert fs.dir), content_link_new]

theorem file?_link_ne (hne : name' ≠ name) : (fs.link name).file? name' = fs.file? name' := by
  rw [file?, file?, dir_link, AList.lookup_insert_ne hne]
  cases h : fs.dir.lookup name' with
  | none => rfl
  | some i => rw [Option.map_some, Option.map_some, content_link (fs.inode_lt h)]

theorem file?_append (h : fs.dir.lookup name = some i) :
    (fs.append i bytes).file? name = some (fs.content i ++ bytes) := by
  have hlookup : (fs.append i bytes).dir.lookup name = some i := h
  rw [file?_of_lookup hlookup, content_append (fs.inode_lt h)]

/-- Writing to a file leaves the files of all other names alone. -/
theorem file?_append_ne (h : fs.dir.lookup name = some i) (hne : name' ≠ name) :
    (fs.append i bytes).file? name' = fs.file? name' := by
  rw [file?, file?, dir_append]
  cases hlookup : fs.dir.lookup name' with
  | none => rfl
  | some j =>
    have hinode : i ≠ j := by
      rintro rfl
      exact hne (fs.inode_inj hlookup h)
    rw [Option.map_some, Option.map_some, content_append_ne hinode]

/-- Directories are equal when their data are. -/
theorem eq_of_data {fs t : FileSystem} (hdir : fs.dir = t.dir) (hinodes : fs.inodes = t.inodes)
    (hcreated : fs.created = t.created) : fs = t := by
  cases fs
  cases t
  cases hdir
  cases hinodes
  cases hcreated
  rfl

@[simp] theorem append_nil (fs : FileSystem) (i : Nat) : fs.append i [] = fs := by
  have hset : fs.inodes.set i (fs.content i ++ []) = fs.inodes := by
    rw [List.append_nil, content]
    by_cases hi : i < fs.inodes.length
    · rw [List.getD_eq_getElem?_getD, List.getElem?_eq_getElem hi, Option.getD_some,
        List.set_getElem_self]
    · exact List.set_eq_of_length_le (Nat.not_lt.mp hi)
  exact eq_of_data rfl hset rfl

theorem append_append {more : List UInt8} (hi : i < fs.inodes.length) :
    (fs.append i bytes).append i more = fs.append i (bytes ++ more) := by
  have hset : (fs.inodes.set i (fs.content i ++ bytes)).set i
      ((fs.append i bytes).content i ++ more) =
        fs.inodes.set i (fs.content i ++ (bytes ++ more)) := by
    rw [List.set_set, content_append hi, List.append_assoc]
  exact eq_of_data rfl hset rfl

end FileSystem

namespace Process
open FileSystem
variable {ρ : Type}

/-- `OpenOptions::new().create_new(true).write(true).open(name)`; the inode opened. -/
def createNew (name : FileName) : Process FileSystem ρ Nat := do
  if ← read (·.contains name) then
    fail
  let i ← read (·.inodes.length)
  write fun fs => (fs.link name).record name i
  return i

/-- `OpenOptions::new().create(true).append(true).open(name)`. -/
def openAppend (name : FileName) : Process FileSystem ρ Nat := do
  match ← read (·.dir.lookup name) with
  | some i => return i
  | none =>
    let i ← read (·.inodes.length)
    write (·.link name)
    return i

/-- `OpenOptions::new().create(true).write(true).truncate(true).open(name)`. -/
def openTruncate (name : FileName) : Process FileSystem ρ Nat := do
  let i ← openAppend name
  write (·.setContent i [])
  return i

/-- `write_all` at the end of an open file. -/
def writeAll (i : Nat) (bytes : List UInt8) : Process FileSystem ρ Unit :=
  writeSteps bytes.length fun k fs => fs.append i (bytes.take k)

/-- `fs::remove_file`. -/
def removeFile (name : FileName) : Process FileSystem ρ Unit := do
  if ← read (·.contains name) then
    write (·.remove name)
  else
    fail

/-! ## Rules for the operations -/

variable {crash : FileSystem → Prop} {fs : FileSystem} {m : ρ} {name : FileName}

theorem holds_createNew {post : Post FileSystem ρ Nat} :
    (createNew name).Holds crash post fs m ↔
      (name ∈ fs → post.failed fs m) ∧
      (name ∉ fs → crash ((fs.link name).record name fs.inodes.length) ∧
        post.done fs.inodes.length ((fs.link name).record name fs.inodes.length) m) := by
  by_cases h : name ∈ fs
  · simp [createNew, contains, h]
  · simp [createNew, contains, h]

theorem holds_openAppend {post : Post FileSystem ρ Nat} :
    (openAppend name).Holds crash post fs m ↔
      match fs.dir.lookup name with
      | some i => post.done i fs m
      | none => crash (fs.link name) ∧ post.done fs.inodes.length (fs.link name) m := by
  cases h : fs.dir.lookup name <;> simp [openAppend, h]

@[simp] theorem holds_writeAll {post : Post FileSystem ρ Unit} (i : Nat) (bytes : List UInt8) :
    (writeAll i bytes).Holds crash post fs m ↔
      (∀ k, k ≤ bytes.length → crash (fs.append i (bytes.take k))) ∧
        post.done () (fs.append i bytes) m := by
  rw [writeAll, holds_writeSteps, List.take_length]

theorem holds_removeFile {post : Post FileSystem ρ Unit} :
    (removeFile name).Holds crash post fs m ↔
      (name ∈ fs → crash (fs.remove name) ∧ post.done () (fs.remove name) m) ∧
      (name ∉ fs → post.failed fs m) := by
  by_cases h : name ∈ fs
  · simp [removeFile, contains, h]
  · simp [removeFile, contains, h]

/-! ## The operations leave a disk they have passed -/

theorem Settled.createNew (name : FileName) :
    Settled (createNew name : Process FileSystem ρ Nat) := by
  refine (Settled.read _).bind fun there => ?_
  cases there with
  | true => exact Settled.fail.bind fun _ => (Settled.read _).bind fun i =>
      (Settled.write _).bind fun _ => Settled.pure i
  | false => exact (Settled.read _).bind fun i => (Settled.write _).bind fun _ => Settled.pure i

theorem Settled.openAppend (name : FileName) :
    Settled (openAppend name : Process FileSystem ρ Nat) := by
  refine (Settled.read _).bind fun there => ?_
  cases there with
  | some i => exact Settled.pure i
  | none => exact (Settled.read _).bind fun i => (Settled.write _).bind fun _ => Settled.pure i

theorem Settled.openTruncate (name : FileName) :
    Settled (openTruncate name : Process FileSystem ρ Nat) :=
  (Settled.openAppend name).bind fun i => (Settled.write _).bind fun _ => Settled.pure i

theorem Settled.writeAll (i : Nat) (bytes : List UInt8) :
    Settled (writeAll i bytes : Process FileSystem ρ Unit) := Settled.writeSteps _ _

theorem Settled.removeFile (name : FileName) :
    Settled (removeFile name : Process FileSystem ρ Unit) := by
  refine (Settled.read _).bind fun there => ?_
  cases there with
  | true => exact Settled.write _
  | false => exact Settled.fail

end Process
