/-! # Cyclic redundancy codes and bursts

The shift register of a reflected cyclic redundancy code of width `w`: each
message bit is added to the lowest bit of the register, the register moves down
one place, and the polynomial is added when a one was shifted out.

A **burst** is a change of a message confined to a window of at most `w` bits.
`register_ne_of_burst` says that every burst changes the register, for every
polynomial whose highest bit is set.  The reason is `register_eq_diff`: two
registers that agree after at most `w` bits differed, before them, by exactly the
difference of the two windows.  It is proved from the back: the highest bit of
the register after a step is the bit that was shifted out.

The IEEE CRC-32 is the instance of width 32 at the end.
-/

namespace Crc

variable {w : Nat}

/-- One step of the register: message bit `b` enters, one bit is shifted out. -/
def shiftBit (poly s : BitVec w) (b : Bool) : BitVec w :=
  if s.getLsbD 0 ^^ b then (s >>> 1) ^^^ poly else s >>> 1

/-- The register after a whole bit string. -/
def register (poly s : BitVec w) (bits : List Bool) : BitVec w :=
  bits.foldl (shiftBit poly) s

@[simp] theorem register_nil (poly s : BitVec w) : register poly s [] = s := rfl

@[simp] theorem register_cons (poly s : BitVec w) (b : Bool) (bits : List Bool) :
    register poly s (b :: bits) = register poly (shiftBit poly s b) bits := rfl

theorem register_append (poly s : BitVec w) (xs ys : List Bool) :
    register poly s (xs ++ ys) = register poly (register poly s xs) ys :=
  List.foldl_append

theorem getLsbD_shiftBit (poly s : BitVec w) (b : Bool) (i : Nat) :
    (shiftBit poly s b).getLsbD i =
      (s.getLsbD (1 + i) ^^ (poly.getLsbD i && (s.getLsbD 0 ^^ b))) := by
  unfold shiftBit
  split
  · rename_i h
    rw [BitVec.getLsbD_xor, BitVec.getLsbD_ushiftRight, h, Bool.and_true]
  · rename_i h
    rw [BitVec.getLsbD_ushiftRight, Bool.eq_false_iff.mpr h, Bool.and_false, Bool.xor_false]

/-- Bit `i` of a bit string, `false` past its end. -/
def bitAt (bits : List Bool) (i : Nat) : Bool := bits[i]?.getD false

theorem bitAt_of_ge {bits : List Bool} {i : Nat} (h : bits.length ≤ i) : bitAt bits i = false := by
  rw [bitAt, List.getElem?_eq_none h, Option.getD_none]

theorem bitAt_of_lt {bits : List Bool} {i : Nat} (h : i < bits.length) :
    bitAt bits i = bits[i] := by
  rw [bitAt, List.getElem?_eq_getElem h, Option.getD_some]

variable {poly : BitVec w}

/-- **Agreement after a short window determines the difference before it.**  If
two registers agree after windows of the same length, at most `w`, then before
them they differed exactly where the windows differ. -/
theorem register_eq_diff (hpoly : poly.getLsbD (w - 1) = true) :
    ∀ (xs ys : List Bool) (s t : BitVec w), xs.length = ys.length → xs.length ≤ w →
      register poly s xs = register poly t ys →
      ∀ i, (s.getLsbD i ^^ t.getLsbD i) = (bitAt xs i ^^ bitAt ys i)
  | [], [], s, t, _, _, heq => by
    intro i
    rw [register_nil, register_nil] at heq
    rw [heq, Bool.xor_self]
    rfl
  | x :: xs, y :: ys, s, t, hlen, hw, heq => by
    rw [List.length_cons] at hw
    have hlen' : xs.length = ys.length := Nat.succ.inj hlen
    have ih := register_eq_diff hpoly xs ys (shiftBit poly s x) (shiftBit poly t y) hlen'
      (by omega) heq
    have hstep : ∀ i, (s.getLsbD (1 + i) ^^ t.getLsbD (1 + i) ^^
        (poly.getLsbD i && ((s.getLsbD 0 ^^ t.getLsbD 0) ^^ (x ^^ y)))) =
        (bitAt xs i ^^ bitAt ys i) := by
      intro i
      rw [← ih i, getLsbD_shiftBit, getLsbD_shiftBit]
      cases s.getLsbD (1 + i) <;> cases t.getLsbD (1 + i) <;> cases poly.getLsbD i <;>
        cases s.getLsbD 0 <;> cases t.getLsbD 0 <;> cases x <;> cases y <;> rfl
    -- the highest bit: nothing but the polynomial can have set it
    have hout : ((s.getLsbD 0 ^^ t.getLsbD 0) ^^ (x ^^ y)) = false := by
      have htop := hstep (w - 1)
      have hxs : bitAt xs (w - 1) = false := bitAt_of_ge (by omega)
      have hys : bitAt ys (w - 1) = false := bitAt_of_ge (by omega)
      rw [BitVec.getLsbD_of_ge s (1 + (w - 1)) (by omega),
        BitVec.getLsbD_of_ge t (1 + (w - 1)) (by omega), hpoly, hxs, hys] at htop
      simpa using htop
    intro i
    cases i with
    | zero =>
      show (s.getLsbD 0 ^^ t.getLsbD 0) = (x ^^ y)
      revert hout
      cases s.getLsbD 0 <;> cases t.getLsbD 0 <;> cases x <;> cases y <;> simp
    | succ i =>
      have hi := hstep i
      rw [hout, Bool.and_false, Bool.xor_false, Nat.add_comm 1 i] at hi
      exact hi

theorem bitAt_ext {xs ys : List Bool} (hlen : xs.length = ys.length)
    (h : ∀ i, bitAt xs i = bitAt ys i) : xs = ys := by
  apply List.ext_getElem hlen
  intro i hx hy
  have hi := h i
  rwa [bitAt_of_lt hx, bitAt_of_lt hy] at hi

/-- The register tells any two windows of at most `w` bits apart. -/
theorem window_eq_of_register_eq (hpoly : poly.getLsbD (w - 1) = true) {xs ys : List Bool}
    {s : BitVec w} (hlen : xs.length = ys.length) (hw : xs.length ≤ w)
    (heq : register poly s xs = register poly s ys) : xs = ys := by
  apply bitAt_ext hlen
  intro i
  have hdiff := register_eq_diff hpoly xs ys s s hlen hw heq i
  rw [Bool.xor_self] at hdiff
  revert hdiff
  cases bitAt xs i <;> cases bitAt ys i <;> simp

/-- The register after a bit string determines the register before it. -/
theorem register_injective (hpoly : poly.getLsbD (w - 1) = true) (bits : List Bool)
    {s t : BitVec w} (h : register poly s bits = register poly t bits) : s = t := by
  induction bits generalizing s t with
  | nil => exact h
  | cons b bits ih =>
    have hw : 1 ≤ w := by
      cases w with
      | zero => simp at hpoly
      | succ w => omega
    have hstep : register poly s [b] = register poly t [b] := ih h
    apply BitVec.eq_of_getLsbD_eq
    intro i _
    have hdiff := register_eq_diff hpoly [b] [b] s t rfl hw hstep i
    rw [Bool.xor_self] at hdiff
    revert hdiff
    cases s.getLsbD i <;> cases t.getLsbD i <;> simp

/-- **Every burst of at most `w` bits changes the register.** -/
theorem register_ne_of_burst (hpoly : poly.getLsbD (w - 1) = true) (s : BitVec w)
    (front back : List Bool) {xs ys : List Bool} (hlen : xs.length = ys.length)
    (hw : xs.length ≤ w) (hne : xs ≠ ys) :
    register poly s (front ++ xs ++ back) ≠ register poly s (front ++ ys ++ back) := by
  intro heq
  rw [register_append, register_append, register_append, register_append] at heq
  exact hne (window_eq_of_register_eq hpoly hlen hw (register_injective hpoly back heq))

/-! ## Bytes -/

/-- The bits of a byte in transmission order, lowest first. -/
def byteBits (b : UInt8) : List Bool :=
  [b.toBitVec.getLsbD 0, b.toBitVec.getLsbD 1, b.toBitVec.getLsbD 2, b.toBitVec.getLsbD 3,
    b.toBitVec.getLsbD 4, b.toBitVec.getLsbD 5, b.toBitVec.getLsbD 6, b.toBitVec.getLsbD 7]

/-- The bits of a byte string in transmission order. -/
def messageBits (bs : List UInt8) : List Bool := bs.flatMap byteBits

theorem messageBits_append (xs ys : List UInt8) :
    messageBits (xs ++ ys) = messageBits xs ++ messageBits ys :=
  List.flatMap_append

theorem messageBits_length (bs : List UInt8) : (messageBits bs).length = 8 * bs.length := by
  induction bs with
  | nil => rfl
  | cons b bs ih =>
    have hcons : messageBits (b :: bs) = byteBits b ++ messageBits bs := rfl
    rw [hcons, List.length_append, ih, List.length_cons]
    show 8 + 8 * bs.length = _
    omega

theorem byteBits_injective {a b : UInt8} (h : byteBits a = byteBits b) : a = b := by
  apply UInt8.toBitVec_inj.mp
  apply BitVec.eq_of_getLsbD_eq
  intro i hi
  have hcases : i = 0 ∨ i = 1 ∨ i = 2 ∨ i = 3 ∨ i = 4 ∨ i = 5 ∨ i = 6 ∨ i = 7 := by omega
  simp only [byteBits, List.cons.injEq] at h
  obtain ⟨h0, h1, h2, h3, h4, h5, h6, h7, -⟩ := h
  rcases hcases with rfl | rfl | rfl | rfl | rfl | rfl | rfl | rfl <;> assumption

theorem messageBits_injective : ∀ {xs ys : List UInt8}, xs.length = ys.length →
    messageBits xs = messageBits ys → xs = ys
  | [], [], _, _ => rfl
  | x :: xs, y :: ys, hlen, h => by
    have happ : byteBits x ++ messageBits xs = byteBits y ++ messageBits ys := h
    obtain ⟨hhead, htail⟩ := List.append_inj happ rfl
    rw [byteBits_injective hhead, messageBits_injective (Nat.succ.inj hlen) htail]

/-! ## The IEEE CRC-32 -/

/-- The reflected polynomial of the IEEE CRC-32. -/
def ieeePolynomial : BitVec 32 := 0xEDB88320#32

/-- The IEEE CRC-32 of a byte string: the register starts with all ones and is
complemented at the end. -/
def ieee (bs : List UInt8) : UInt32 :=
  UInt32.ofBitVec (~~~ register ieeePolynomial 0xFFFFFFFF#32 (messageBits bs))

-- the check value of the code, the CRC-32 of the ASCII digits `123456789`
example : ieee [0x31, 0x32, 0x33, 0x34, 0x35, 0x36, 0x37, 0x38, 0x39] = 0xCBF43926 := by
  decide +kernel

/-- **The CRC-32 detects every change confined to four consecutive bytes.** -/
theorem ieee_ne_of_burst (front back : List UInt8) {xs ys : List UInt8}
    (hlen : xs.length = ys.length) (hfour : xs.length ≤ 4) (hne : xs ≠ ys) :
    ieee (front ++ xs ++ back) ≠ ieee (front ++ ys ++ back) := by
  intro heq
  have hregister : register ieeePolynomial 0xFFFFFFFF#32 (messageBits (front ++ xs ++ back)) =
      register ieeePolynomial 0xFFFFFFFF#32 (messageBits (front ++ ys ++ back)) :=
    BitVec.not_inj.mp (congrArg UInt32.toBitVec heq)
  rw [messageBits_append, messageBits_append, messageBits_append, messageBits_append] at hregister
  refine register_ne_of_burst (by decide) _ _ _ ?_ ?_ ?_ hregister
  · rw [messageBits_length, messageBits_length, hlen]
  · rw [messageBits_length]
    omega
  · exact fun h => hne (messageBits_injective hlen h)

end Crc
