import Mathlib

/-! # Machine words read as signed or unsigned numbers

A word of `w` bits is one value of the signed and one of the unsigned integer type of that width, and
the arithmetic of both types is the same on the bits.

* `InType w uns x`: the number `x` is a value of the type.
* `number uns v`: the number that the word `v` is in the type.

`BitVec.ofInt` is the conversion of a number to a word; `number_ofInt` says that it loses nothing
exactly on the values of the type. -/

namespace MySQLServer.Lib

/-- The values of the signed (`uns = false`) or unsigned integer type of `w` bits. -/
def InType (w : ℕ) (uns : Bool) (x : ℤ) : Prop :=
  if uns then 0 ≤ x ∧ x < 2 ^ w else -2 ^ w ≤ 2 * x ∧ 2 * x < 2 ^ w

instance (w : ℕ) (uns : Bool) (x : ℤ) : Decidable (InType w uns x) := by
  unfold InType
  infer_instance

/-- The number that a word stands for. -/
def number {w : ℕ} (uns : Bool) (v : BitVec w) : ℤ := if uns then v.toNat else v.toInt

section
variable {w : ℕ} {uns : Bool} {v : BitVec w} {x : ℤ}

@[simp] theorem inType_unsigned : InType w true x ↔ 0 ≤ x ∧ x < 2 ^ w := by simp [InType]

@[simp] theorem inType_signed : InType w false x ↔ -2 ^ w ≤ 2 * x ∧ 2 * x < 2 ^ w := by simp [InType]

@[simp] theorem number_unsigned : number true v = v.toNat := rfl

@[simp] theorem number_signed : number false v = v.toInt := rfl

theorem toNat_lt_two_pow (v : BitVec w) : (v.toNat : ℤ) < 2 ^ w := by exact_mod_cast v.isLt

theorem number_inType (uns : Bool) (v : BitVec w) : InType w uns (number uns v) := by
  have hlt := toNat_lt_two_pow v
  cases uns with
  | true => exact inType_unsigned.mpr ⟨Int.natCast_nonneg _, hlt⟩
  | false =>
    rw [inType_signed, number_signed, BitVec.toInt_eq_toNat_cond]
    by_cases h : 2 * v.toNat < 2 ^ w
    · have h' : 2 * (v.toNat : ℤ) < 2 ^ w := by exact_mod_cast h
      rw [if_pos h]
      omega
    · have h' : 2 ^ w ≤ 2 * (v.toNat : ℤ) := by exact_mod_cast not_lt.mp h
      rw [if_neg h]
      push_cast
      omega

@[simp] theorem ofInt_number (uns : Bool) (v : BitVec w) : BitVec.ofInt w (number uns v) = v := by
  cases uns with
  | true => rw [number_unsigned, BitVec.ofInt_natCast, BitVec.ofNat_toNat, BitVec.setWidth_eq]
  | false => exact BitVec.ofInt_toInt

/-- A value of the type is read back from its word. -/
theorem number_ofInt (h : InType w uns x) : number uns (BitVec.ofInt w x) = x := by
  cases uns with
  | true =>
    obtain ⟨h0, h1⟩ := inType_unsigned.mp h
    rw [number_unsigned, BitVec.toNat_ofInt]
    push_cast
    rw [Int.emod_eq_of_lt h0 h1, Int.toNat_of_nonneg h0]
  | false =>
    obtain ⟨h0, h1⟩ := inType_signed.mp h
    rw [number_signed, BitVec.toInt_ofInt]
    apply Int.bmod_eq_of_le
    · push_cast
      omega
    · push_cast
      omega

theorem number_ofInt_eq_iff : number uns (BitVec.ofInt w x) = x ↔ InType w uns x := by
  constructor
  · intro h
    rw [← h]
    exact number_inType _ _
  · exact number_ofInt

/-- The word of a difference, as `BitVec.ofInt_add` and `BitVec.ofInt_mul` for sums and products. -/
theorem ofInt_sub (x y : ℤ) : BitVec.ofInt w (x - y) = BitVec.ofInt w x - BitVec.ofInt w y := by
  rw [sub_eq_add_neg, BitVec.ofInt_add, BitVec.ofInt_neg, BitVec.sub_eq_add_neg]

end

end MySQLServer.Lib
