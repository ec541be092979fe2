import Mathlib.Algebra.Group.Nat.Defs

/-! # Big-endian integers in byte strings

A natural number as a fixed number of bytes, most significant first, and the
number a byte string stands for.  `value_bytes` and `bytes_value` say that the
two maps are inverse to each other on numbers that fit and on strings of the
right length; the readers and writers for the machine word sizes are these maps
at widths 2, 4 and 8.
-/

namespace BigEndian

/-- The `n` big-endian bytes of `x`; what does not fit is dropped. -/
def bytes : Nat → Nat → List UInt8
  | 0, _ => []
  | n + 1, x => UInt8.ofNat (x / 256 ^ n) :: bytes n x

/-- The number whose big-endian bytes are given. -/
def value : List UInt8 → Nat
  | [] => 0
  | b :: bs => b.toNat * 256 ^ bs.length + value bs

@[simp] theorem bytes_length (n x : Nat) : (bytes n x).length = n := by
  induction n with
  | zero => rfl
  | succ n ih => rw [bytes, List.length_cons, ih]

theorem value_lt (bs : List UInt8) : value bs < 256 ^ bs.length := by
  induction bs with
  | nil => exact Nat.one_pos
  | cons b bs ih =>
    rw [value, List.length_cons, Nat.pow_succ]
    have hb : b.toNat ≤ 255 := Nat.le_of_lt_succ b.toNat_lt
    have hmul : b.toNat * 256 ^ bs.length ≤ 255 * 256 ^ bs.length := Nat.mul_le_mul_right _ hb
    omega

/-- **Reading back what was written**: the bytes of `x` stand for `x` reduced to
the width. -/
theorem value_bytes (n x : Nat) : value (bytes n x) = x % 256 ^ n := by
  induction n with
  | zero => rw [bytes, value, Nat.pow_zero, Nat.mod_one]
  | succ n ih =>
    have hdigit : (UInt8.ofNat (x / 256 ^ n)).toNat = x / 256 ^ n % 256 := UInt8.toNat_ofNat'
    rw [bytes, value, bytes_length, ih, hdigit, Nat.pow_succ, Nat.mod_mul, Nat.mul_comm]
    omega

/-- **Writing back what was read.** -/
theorem bytes_value (bs : List UInt8) : bytes bs.length (value bs) = bs := by
  have key : ∀ (bs : List UInt8) (k : Nat),
      bytes bs.length (k * 256 ^ bs.length + value bs) = bs := by
    intro bs
    induction bs with
    | nil => intro k; rfl
    | cons b bs ih =>
      intro k
      have hsplit : k * 256 ^ (b :: bs).length + value (b :: bs) =
          (k * 256 + b.toNat) * 256 ^ bs.length + value bs := by
        rw [List.length_cons, value, Nat.pow_succ, Nat.add_mul, Nat.mul_assoc, Nat.mul_comm 256,
          Nat.add_assoc]
      have hdiv : (k * 256 ^ (b :: bs).length + value (b :: bs)) / 256 ^ bs.length =
          k * 256 + b.toNat := by
        rw [hsplit, Nat.mul_comm, Nat.mul_add_div (Nat.pow_pos (by decide)),
          Nat.div_eq_of_lt (value_lt bs), Nat.add_zero]
      have hhead : UInt8.ofNat (k * 256 + b.toNat) = b := by
        apply UInt8.toNat_inj.mp
        rw [UInt8.toNat_ofNat']
        have := b.toNat_lt
        omega
      rw [List.length_cons, bytes, ← List.length_cons (a := b), hdiv, hhead, hsplit, ih]
  simpa using key bs 0

/-- `BigEndian::read_u16`. -/
def readU16 (bs : List UInt8) : UInt16 := UInt16.ofNat (value bs)

/-- `BigEndian::read_u32`. -/
def readU32 (bs : List UInt8) : UInt32 := UInt32.ofNat (value bs)

/-- `BigEndian::read_u64`. -/
def readU64 (bs : List UInt8) : UInt64 := UInt64.ofNat (value bs)

/-- The bytes `BigEndian::write_u16` stores. -/
def writeU16 (x : UInt16) : List UInt8 := bytes 2 x.toNat

/-- The bytes `BigEndian::write_u32` stores. -/
def writeU32 (x : UInt32) : List UInt8 := bytes 4 x.toNat

/-- The bytes `BigEndian::write_u64` stores. -/
def writeU64 (x : UInt64) : List UInt8 := bytes 8 x.toNat

@[simp] theorem readU16_writeU16 (x : UInt16) : readU16 (writeU16 x) = x := by
  have hlt : x.toNat < 256 ^ 2 := x.toNat_lt
  rw [readU16, writeU16, value_bytes, Nat.mod_eq_of_lt hlt, UInt16.ofNat_toNat]

@[simp] theorem readU32_writeU32 (x : UInt32) : readU32 (writeU32 x) = x := by
  have hlt : x.toNat < 256 ^ 4 := x.toNat_lt
  rw [readU32, writeU32, value_bytes, Nat.mod_eq_of_lt hlt, UInt32.ofNat_toNat]

@[simp] theorem readU64_writeU64 (x : UInt64) : readU64 (writeU64 x) = x := by
  have hlt : x.toNat < 256 ^ 8 := x.toNat_lt
  rw [readU64, writeU64, value_bytes, Nat.mod_eq_of_lt hlt, UInt64.ofNat_toNat]

/-- Writing back what was read, at the width of the string. -/
theorem bytes_value_mod {bs : List UInt8} {n : Nat} (h : bs.length = n) :
    bytes n (value bs % 256 ^ n) = bs := by
  subst h
  rw [Nat.mod_eq_of_lt (value_lt bs), bytes_value]

theorem writeU16_readU16 {bs : List UInt8} (h : bs.length = 2) : writeU16 (readU16 bs) = bs := by
  rw [readU16, writeU16, UInt16.toNat_ofNat']
  exact bytes_value_mod h

theorem writeU32_readU32 {bs : List UInt8} (h : bs.length = 4) : writeU32 (readU32 bs) = bs := by
  rw [readU32, writeU32, UInt32.toNat_ofNat']
  exact bytes_value_mod h

theorem writeU64_readU64 {bs : List UInt8} (h : bs.length = 8) : writeU64 (readU64 bs) = bs := by
  rw [readU64, writeU64, UInt64.toNat_ofNat']
  exact bytes_value_mod h

@[simp] theorem writeU16_length (x : UInt16) : (writeU16 x).length = 2 := bytes_length 2 _

@[simp] theorem writeU32_length (x : UInt32) : (writeU32 x).length = 4 := bytes_length 4 _

@[simp] theorem writeU64_length (x : UInt64) : (writeU64 x).length = 8 := bytes_length 8 _

end BigEndian
