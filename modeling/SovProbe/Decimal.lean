import Mathlib.Data.Nat.Digits.Defs

/-! # Decimal numbers in byte strings

Zero-padded decimal numbers as they are formatted and parsed: `pad w n` is
`format!("{:0w}", n)` and `parseU64` is `str::parse::<u64>`, both on ASCII bytes.
Parsing undoes formatting, so formatting is injective on the numbers that fit.
Parsing accepts more than is ever formatted: a leading plus sign and any number of
leading zeros.
-/

namespace Decimal

/-- The ASCII digit. -/
def digit (d : Nat) : UInt8 := UInt8.ofNat (48 + d)

/-- From `0` to `9`. -/
def isDigit (b : UInt8) : Bool := 48 ≤ b && b ≤ 57

/-- The decimal digits of `n`, padded with zeros to at least `w` of them. -/
def pad (w n : Nat) : List UInt8 :=
  let ds := (Nat.digits 10 n).reverse.map digit
  List.replicate (w - ds.length) (digit 0) ++ ds

/-- The number a string of digits stands for. -/
def value (bs : List UInt8) : Nat := bs.foldl (fun acc b => acc * 10 + (b.toNat - 48)) 0

/-- One optional plus sign, then digits only, of a number below `2 ^ 64`. -/
def parseU64 (bs : List UInt8) : Option UInt64 :=
  let ds := match bs with
    | 43 :: rest => rest
    | _ => bs
  if ds ≠ [] ∧ ds.all isDigit = true ∧ value ds < 2 ^ 64 then some (UInt64.ofNat (value ds))
  else none

theorem digit_toNat {d : Nat} (h : d < 10) : (digit d).toNat = 48 + d := by
  rw [digit, UInt8.toNat_ofNat', Nat.mod_eq_of_lt (by omega)]

theorem isDigit_digit {d : Nat} (h : d < 10) : isDigit (digit d) = true := by
  rw [isDigit, Bool.and_eq_true, decide_eq_true_eq, decide_eq_true_eq, UInt8.le_iff_toNat_le,
    UInt8.le_iff_toNat_le, digit_toNat h]
  have h48 : (48 : UInt8).toNat = 48 := rfl
  have h57 : (57 : UInt8).toNat = 57 := rfl
  omega

theorem value_concat (bs : List UInt8) (b : UInt8) :
    value (bs ++ [b]) = value bs * 10 + (b.toNat - 48) := by
  rw [value, List.foldl_append]
  rfl

theorem value_zeros (k : Nat) : value (List.replicate k (digit 0)) = 0 := by
  induction k with
  | zero => rfl
  | succ k ih =>
    rw [List.replicate_succ', value_concat, ih]
    rfl

theorem value_pad (w n : Nat) : value (pad w n) = n := by
  -- from the last digit, which is the first of `Nat.digits`
  have key : ∀ (k : Nat) (l : List Nat), (∀ d ∈ l, d < 10) →
      value (List.replicate k (digit 0) ++ l.reverse.map digit) = Nat.ofDigits 10 l := by
    intro k l
    induction l with
    | nil => intro _; simpa using value_zeros k
    | cons d l ih =>
      intro hl
      have hd : d < 10 := hl d List.mem_cons_self
      rw [List.reverse_cons, List.map_append, ← List.append_assoc, List.map_singleton,
        value_concat, ih (fun x hx => hl x (List.mem_cons_of_mem _ hx)), digit_toNat hd,
        Nat.ofDigits_cons]
      omega
  rw [pad, key _ _ (fun d hd => Nat.digits_lt_base (by decide) hd), Nat.ofDigits_digits]

/-- Every byte of a formatted number is a digit. -/
theorem isDigit_of_mem_pad {w n : Nat} {b : UInt8} (h : b ∈ pad w n) : isDigit b = true := by
  rw [pad, List.mem_append] at h
  rcases h with hzero | hdigit
  · rw [List.eq_of_mem_replicate hzero]
    exact isDigit_digit (by decide)
  · obtain ⟨d, hd, rfl⟩ := List.mem_map.mp hdigit
    exact isDigit_digit (Nat.digits_lt_base (by decide) (List.mem_reverse.mp hd))

/-- And every digit is ASCII. -/
theorem lt_of_isDigit {b : UInt8} (h : isDigit b = true) : b < 0x80 := by
  rw [isDigit, Bool.and_eq_true, decide_eq_true_eq, decide_eq_true_eq] at h
  exact UInt8.lt_of_le_of_lt h.2 (by decide)

/-- A formatted number ends where the next byte is not a digit. -/
theorem pad_append_inj {w m n : Nat} {xs ys : List UInt8}
    (hx : ∀ b ∈ xs.head?, isDigit b = false) (hy : ∀ b ∈ ys.head?, isDigit b = false)
    (h : pad w m ++ xs = pad w n ++ ys) : m = n ∧ xs = ys := by
  have key : ∀ (k : Nat) (zs : List UInt8), (∀ b ∈ zs.head?, isDigit b = false) →
      (pad w k ++ zs).takeWhile isDigit = pad w k := by
    intro k zs hz
    rw [List.takeWhile_append_of_pos fun b hb => isDigit_of_mem_pad hb]
    cases zs with
    | nil => rw [List.takeWhile_nil, List.append_nil]
    | cons b zs =>
      rw [List.takeWhile_cons_of_neg (by rw [hz b rfl]; decide), List.append_nil]
  have hpad : pad w m = pad w n := by rw [← key m xs hx, h, key n ys hy]
  refine ⟨by rw [← value_pad w m, hpad, value_pad], ?_⟩
  rw [hpad] at h
  exact List.append_cancel_left h

theorem pad_ne_nil {w : Nat} (hw : 0 < w) (n : Nat) : pad w n ≠ [] := by
  intro h
  obtain ⟨hzeros, hdigits⟩ := List.append_eq_nil_iff.mp h
  rw [hdigits, List.length_nil, Nat.sub_zero] at hzeros
  exact absurd (congrArg List.length hzeros) (by simp; omega)

/-- **Parsing undoes formatting.** -/
theorem parseU64_pad {w : Nat} (hw : 0 < w) (n : UInt64) :
    parseU64 (pad w n.toNat) = some n := by
  have hne := pad_ne_nil hw n.toNat
  have hdigits : (pad w n.toNat).all isDigit = true :=
    List.all_eq_true.mpr fun b hb => isDigit_of_mem_pad hb
  have hsign : ∀ rest, pad w n.toNat ≠ 43 :: rest := by
    intro rest heq
    have hplus : isDigit 43 = true := isDigit_of_mem_pad (heq ▸ List.mem_cons_self)
    exact absurd hplus (by decide)
  unfold parseU64
  simp only
  rw [if_pos ⟨hne, hdigits, by rw [value_pad]; exact n.toNat_lt⟩, value_pad, UInt64.ofNat_toNat]

end Decimal
