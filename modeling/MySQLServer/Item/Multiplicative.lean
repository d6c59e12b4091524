import MySQLServer.Item.Additive

/-! # BIGINT functions: multiplication, `DIV`, `MOD` and negation

The functions turn the arguments into a sign and an unsigned absolute value, compute with the absolute
values and put the sign back.  `LONGLONG_MIN` is its own negation on the bits, and as an unsigned number
that is its absolute value (`IntArg.number_eq_signed`).

* `mulMagnitudes_eq`: the product of the 32-bit halves is the product, or overflows.
* `mul_exactOrRejected_iff`: multiplication is right except for the product `-(2 ^ 63 + 1)`.
* `division_exactOrRejected_iff`: `DIV`, `MOD` and negation are right except for
  `LONGLONG_MIN DIV 1`. -/

namespace MySQLServer.Item

open Lib

/-! ### Signs and absolute values -/

/-- The argument is signed and below zero. -/
def IntArg.negative (a : IntArg) : Bool := !a.unsignedFlag && decide (a.valInt.toInt < 0)

/-- `(ulonglong) (negative ? -val : val)`. -/
def IntArg.magnitude (a : IntArg) : Longlong := if a.negative then -a.valInt else a.valInt

/-- The absolute value with a sign. -/
def signed (negative : Bool) (m : ℕ) : ℤ := if negative then -m else m

@[simp] theorem signed_false (m : ℕ) : signed false m = m := rfl

@[simp] theorem signed_true (m : ℕ) : signed true m = -m := rfl

theorem IntArg.number_eq_signed (a : IntArg) : a.number = signed a.negative a.magnitude.toNat := by
  obtain ⟨v, u, n⟩ := a
  have h := toInt_cases v
  cases u with
  | true => simp [IntArg.number, IntArg.negative, IntArg.magnitude]
  | false =>
    by_cases hn : v.toInt < 0
    · have hm : (-v).toNat = 2 ^ 64 - v.toNat := by
        rw [BitVec.toNat_neg]
        omega
      simp only [IntArg.number, IntArg.negative, IntArg.magnitude, Bool.not_false, hn, decide_true,
        Bool.and_self, if_true, signed_true, number_signed, hm]
      omega
    · simp only [IntArg.number, IntArg.negative, IntArg.magnitude, Bool.not_false, hn, decide_false,
        Bool.and_false, Bool.false_eq_true, if_false, signed_false, number_signed]
      omega

/-- Only a signed argument is negative, and then its absolute value is at most that of
`LONGLONG_MIN`. -/
theorem IntArg.magnitude_le {a : IntArg} (h : a.negative = true) :
    a.unsignedFlag = false ∧ 0 < a.magnitude.toNat ∧ a.magnitude.toNat ≤ 2 ^ 63 := by
  have hn := a.number_eq_signed
  simp only [IntArg.negative, Bool.and_eq_true, Bool.not_eq_true', decide_eq_true_eq] at h
  have hc := toInt_cases a.valInt
  simp only [IntArg.number, h.1, IntArg.negative, h.2, number_signed, Bool.not_false, decide_true,
    Bool.and_self, signed_true] at hn
  refine ⟨h.1, ?_, ?_⟩
  · omega
  · omega

theorem IntArg.magnitude_eq_zero_iff {a : IntArg} : a.magnitude.toNat = 0 ↔ a.valInt = 0 := by
  unfold IntArg.magnitude
  split
  · constructor
    · intro h
      bv_omega
    · intro h
      rw [h]
      rfl
  · rw [← BitVec.toNat_inj]
    rfl

/-! ### Multiplication -/

/-- The part of `Item_func_mul::int_op` between the two sign computations: the product of the absolute
values, from their halves of 32 bits, or nothing (`goto err`). -/
def mulMagnitudes (a b : Longlong) : Option Longlong :=
  let a0 := 0xFFFFFFFF &&& a
  let a1 := a >>> 32
  let b0 := 0xFFFFFFFF &&& b
  let b1 := b >>> 32
  if a1 ≠ 0 ∧ b1 ≠ 0 then none
  else
    let res1 := a1 * b0 + a0 * b1
    if 0xFFFFFFFF < res1 then none
    else
      let res1 := res1 <<< 32
      let res0 := a0 * b0
      if testIfSumOverflowsUll res1 res0 then none else some (res1 + res0)

theorem mul_eq_halves (m n : ℕ) : m * n = m / 2 ^ 32 * (n / 2 ^ 32) * 2 ^ 64 +
    (m / 2 ^ 32 * (n % 2 ^ 32) + m % 2 ^ 32 * (n / 2 ^ 32)) * 2 ^ 32 + m % 2 ^ 32 * (n % 2 ^ 32) := by
  have hm := Nat.div_add_mod m (2 ^ 32)
  have hn := Nat.div_add_mod n (2 ^ 32)
  generalize m / 2 ^ 32 = m1 at *
  generalize n / 2 ^ 32 = n1 at *
  generalize m % 2 ^ 32 = m0 at *
  generalize n % 2 ^ 32 = n0 at *
  rw [← hm, ← hn]
  ring

section
variable (a b : Longlong)

theorem lowHalf_toNat : (0xFFFFFFFF &&& a).toNat = a.toNat % 2 ^ 32 := by
  rw [BitVec.toNat_and, Nat.and_comm]
  exact Nat.and_two_pow_sub_one_eq_mod a.toNat 32

theorem highHalf_toNat : (a >>> 32).toNat = a.toNat / 2 ^ 32 := by
  rw [BitVec.toNat_ushiftRight, Nat.shiftRight_eq_div_pow]

theorem mul_toNat_of_lt (ha : a.toNat < 2 ^ 32) (hb : b.toNat < 2 ^ 32) :
    (a * b).toNat = a.toNat * b.toNat ∧ a.toNat * b.toNat ≤ (2 ^ 32 - 1) * (2 ^ 32 - 1) := by
  have hle : a.toNat * b.toNat ≤ (2 ^ 32 - 1) * (2 ^ 32 - 1) :=
    Nat.mul_le_mul (Nat.le_sub_one_of_lt ha) (Nat.le_sub_one_of_lt hb)
  rw [BitVec.toNat_mul, Nat.mod_eq_of_lt (by omega)]
  exact ⟨rfl, hle⟩

theorem mulMagnitudes_eq : mulMagnitudes a b = if a.toNat * b.toNat < 2 ^ 64 then some (a * b) else none := by
  have hp := mul_eq_halves a.toNat b.toNat
  have hm : (a * b).toNat = a.toNat * b.toNat % 2 ^ 64 := BitVec.toNat_mul a b
  have ha0 : (0xFFFFFFFF &&& a).toNat < 2 ^ 32 := lowHalf_toNat a ▸ Nat.mod_lt _ (by decide)
  have hb0 : (0xFFFFFFFF &&& b).toNat < 2 ^ 32 := lowHalf_toNat b ▸ Nat.mod_lt _ (by decide)
  have ha1 : (a >>> 32).toNat < 2 ^ 32 := by
    rw [highHalf_toNat]
    omega
  have hb1 : (b >>> 32).toNat < 2 ^ 32 := by
    rw [highHalf_toNat]
    omega
  rw [← lowHalf_toNat, ← lowHalf_toNat, ← highHalf_toNat, ← highHalf_toNat] at hp
  unfold mulMagnitudes
  generalize 0xFFFFFFFF &&& a = a0 at *
  generalize 0xFFFFFFFF &&& b = b0 at *
  generalize a >>> 32 = a1 at *
  generalize b >>> 32 = b1 at *
  obtain ⟨h10, h10le⟩ := mul_toNat_of_lt a1 b0 ha1 hb0
  obtain ⟨h01, h01le⟩ := mul_toNat_of_lt a0 b1 ha0 hb1
  obtain ⟨h00, h00le⟩ := mul_toNat_of_lt a0 b0 ha0 hb0
  by_cases hb : a1 ≠ 0 ∧ b1 ≠ 0
  · -- the product of the high halves alone is `2 ^ 64` or more
    have hpos : 0 < a1.toNat * b1.toNat := by
      apply Nat.mul_pos
      · exact Nat.pos_of_ne_zero fun h => hb.1 (BitVec.eq_of_toNat_eq h)
      · exact Nat.pos_of_ne_zero fun h => hb.2 (BitVec.eq_of_toNat_eq h)
    rw [if_pos hb, if_neg (by omega)]
  · rw [if_neg hb]
    -- one of the high halves is zero, so the sum of the mixed products does not wrap
    generalize hr1 : a1 * b0 + a0 * b1 = r1
    have hzero : a1.toNat * b1.toNat = 0 ∧ r1.toNat = a1.toNat * b0.toNat + a0.toNat * b1.toNat := by
      rw [← hr1, BitVec.toNat_add, h10, h01]
      rcases not_and_or.mp hb with h | h
      · rw [not_ne_iff.mp h]
        simp only [BitVec.ofNat_eq_ofNat, BitVec.toNat_ofNat, Nat.zero_mod, Nat.zero_mul, Nat.zero_add, true_and]
        exact Nat.mod_eq_of_lt (by omega)
      · rw [not_ne_iff.mp h]
        simp only [BitVec.ofNat_eq_ofNat, BitVec.toNat_ofNat, Nat.zero_mod, Nat.mul_zero, Nat.add_zero, true_and]
        exact Nat.mod_eq_of_lt (by omega)
    rw [hzero.1, ← hzero.2] at hp
    by_cases hl : 0xFFFFFFFF < r1
    · rw [if_pos hl]
      have hl' : 2 ^ 32 - 1 < r1.toNat := hl
      rw [if_neg (by omega)]
    · rw [if_neg hl]
      have hl' : r1.toNat ≤ 2 ^ 32 - 1 := not_lt.mp hl
      have hshift : (r1 <<< 32).toNat = r1.toNat * 2 ^ 32 := by
        rw [BitVec.toNat_shiftLeft, Nat.shiftLeft_eq, Nat.mod_eq_of_lt (by omega)]
      have hover := @testIfSumOverflowsUll_iff (r1 <<< 32) (a0 * b0)
      rw [hshift, h00] at hover
      by_cases hs : testIfSumOverflowsUll (r1 <<< 32) (a0 * b0) = true
      · rw [if_pos hs]
        rw [hover] at hs
        push_cast at hs
        rw [if_neg (by omega)]
      · rw [if_neg hs]
        rw [hover] at hs
        push_cast at hs
        rw [if_pos (by omega)]
        refine congrArg some (BitVec.eq_of_toNat_eq ?_)
        rw [BitVec.toNat_add, hshift, h00, hm]
        omega

end

def mulIntOp (unsignedFlag : Bool) (args0 args1 : IntArg) : IntResult :=
  if args0.nullValue ∨ args1.nullValue then .null
  else
    match mulMagnitudes args0.magnitude args1.magnitude with
    | none => raiseIntegerOverflow unsignedFlag
    | some res =>
      if args0.negative ≠ args1.negative then
        if longlongMin + 1 < res then raiseIntegerOverflow unsignedFlag
        else checkIntegerOverflow unsignedFlag (-res) false
      else checkIntegerOverflow unsignedFlag res true

theorem ofInt_signed (negative : Bool) (v : Longlong) :
    BitVec.ofInt 64 (signed negative v.toNat) = if negative then -v else v := by
  cases negative with
  | true => rw [signed_true, BitVec.ofInt_neg, BitVec.ofInt_natCast, BitVec.ofNat_toNat, BitVec.setWidth_eq, if_pos rfl]
  | false => exact ofInt_number true v

theorem signed_mul (s t : Bool) (m n : ℕ) : signed s m * signed t n = signed (s != t) (m * n) := by
  cases s <;> cases t <;> simp [signed]

theorem checkIntegerOverflow_slip (unsignedFlag : Bool) {v : Longlong} (hv : v.toNat = 2 ^ 63 + 1) :
    checkIntegerOverflow unsignedFlag (-v) false = .value longlongMax := by
  have hn : -v = longlongMax := by
    apply BitVec.eq_of_toNat_eq
    rw [BitVec.toNat_neg, hv]
    rfl
  rw [hn]
  cases unsignedFlag <;> decide

theorem negativeProduct_iff (unsignedFlag : Bool) (res : Longlong) : ExactOrRejected unsignedFlag (-(res.toNat : ℤ))
        (if longlongMin + 1 < res then raiseIntegerOverflow unsignedFlag
          else checkIntegerOverflow unsignedFlag (-res) false) ↔ res.toNat ≠ 2 ^ 63 + 1 := by
  have hlt : longlongMin + 1 < res ↔ 2 ^ 63 + 1 < res.toNat := Iff.rfl
  by_cases hl : longlongMin + 1 < res
  · rw [if_pos hl]
    rw [hlt] at hl
    exact iff_of_true (exactOrRejected_of_lt_of_le (by omega)) (by omega)
  · rw [if_neg hl]
    rw [hlt] at hl
    by_cases hs : res.toNat = 2 ^ 63 + 1
    · rw [checkIntegerOverflow_slip unsignedFlag hs, hs, exactOrRejected_value]
      apply iff_of_false
      · cases unsignedFlag <;> decide
      · exact not_ne_iff.mpr rfl
    · refine iff_of_true (exactOrRejected_check (ofInt_signed true res).symm ?_) hs
      rw [inType_signed]
      omega

/-- Multiplication of integer arguments, for either type of the result: the exact product is returned if
it is a value of the type, and the error is raised if it is not.  The only exceptions are the products
equal to `-(2 ^ 63 + 1)`, which are returned as `LONGLONG_MAX`. -/
theorem mul_exactOrRejected_iff (unsignedFlag : Bool) (args0 args1 : IntArg)
    (h0 : args0.nullValue = false) (h1 : args1.nullValue = false) :
    ExactOrRejected unsignedFlag (args0.number * args1.number) (mulIntOp unsignedFlag args0 args1) ↔
      args0.number * args1.number ≠ -(2 ^ 63 + 1) := by
  rw [args0.number_eq_signed, args1.number_eq_signed, signed_mul, mulIntOp, h0, h1, mulMagnitudes_eq]
  simp only [Bool.false_eq_true, or_self, if_false]
  generalize args0.magnitude = a
  generalize args1.magnitude = b
  by_cases hf : a.toNat * b.toNat < 2 ^ 64
  · have hp : (a * b).toNat = a.toNat * b.toNat := by
      rw [BitVec.toNat_mul, Nat.mod_eq_of_lt hf]
    rw [if_pos hf, ← hp]
    generalize a * b = res
    dsimp only
    by_cases hs : args0.negative = args1.negative
    · rw [if_neg (not_not.mpr hs), hs, bne_self_eq_false, signed_false]
      refine iff_of_true ?_ (by omega)
      exact exactOrRejected_check (ofInt_number true res).symm (number_inType true res)
    · have hb : (args0.negative != args1.negative) = true := by simpa using hs
      rw [if_pos hs, hb, signed_true, negativeProduct_iff]
      omega
  · -- the absolute value of the product is a value of neither type
    rw [if_neg hf]
    have hl : signed (args0.negative != args1.negative) (a.toNat * b.toNat) < -(2 ^ 63 + 1) ∨
        2 ^ 64 ≤ signed (args0.negative != args1.negative) (a.toNat * b.toNat) := by
      cases args0.negative != args1.negative with
      | true =>
        rw [signed_true]
        omega
      | false =>
        rw [signed_false]
        omega
    exact iff_of_true (exactOrRejected_of_lt_of_le (by omega)) (by omega)

/-- `4294967296 * 4294967296` is rejected. -/
theorem mul_exactOrRejected_iff_twoPow : ExactOrRejected false (4294967296 * 4294967296)
        (mulIntOp false ⟨4294967296, false, false⟩ ⟨4294967296, false, false⟩) ∧
      mulIntOp false ⟨4294967296, false, false⟩ ⟨4294967296, false, false⟩ = .outOfRange "BIGINT" :=
  ⟨(mul_exactOrRejected_iff false ⟨4294967296, false, false⟩ ⟨4294967296, false, false⟩ rfl rfl).mpr
    (by decide), by decide⟩

/-- `-3 * 3074457345618258603`, which is `-(2 ^ 63 + 1)`, is returned as `LONGLONG_MAX`. -/
theorem mul_slip_returns_max :
    mulIntOp false ⟨-3, false, false⟩ ⟨3074457345618258603, false, false⟩ = .value longlongMax ∧
      ¬ ExactOrRejected false (IntArg.number ⟨-3, false, false⟩ * IntArg.number ⟨3074457345618258603, false, false⟩)
        (mulIntOp false ⟨-3, false, false⟩ ⟨3074457345618258603, false, false⟩) := by
  decide

/-! ### Division -/

/-- `Item_func_int_div::fix_length_and_dec`. -/
def intDivUnsignedFlag (args0 args1 : IntArg) : Bool := args0.unsignedFlag || args1.unsignedFlag

/-- `Item_func_int_div::val_int` for integer arguments. -/
def intDivValInt (unsignedFlag : Bool) (args0 args1 : IntArg) : IntResult :=
  if args0.nullValue ∨ args1.nullValue then .null
  else if args1.valInt = 0 then .divideByNull
  else
    let resNegative := args0.negative != args1.negative
    let res := args0.magnitude / args1.magnitude
    if resNegative then
      if longlongMax < res then raiseIntegerOverflow unsignedFlag
      else checkIntegerOverflow unsignedFlag (-res) (!resNegative)
    else checkIntegerOverflow unsignedFlag res (!resNegative)

/-- `Item_func_mod::fix_length_and_dec`. -/
def modUnsignedFlag (args0 : IntArg) : Bool := args0.unsignedFlag

def modIntOp (unsignedFlag : Bool) (args0 args1 : IntArg) : IntResult :=
  if args0.nullValue ∨ args1.nullValue then .null
  else if args1.valInt = 0 then .divideByNull
  else
    let res := args0.magnitude % args1.magnitude
    checkIntegerOverflow unsignedFlag (if args0.negative then -res else res) (!args0.negative)

/-- `Item_func_neg::fix_length_and_dec`. -/
def negUnsignedFlag : Bool := false

def negIntOp (unsignedFlag : Bool) (args0 : IntArg) : IntResult :=
  if args0.nullValue then .null
  else if args0.unsignedFlag ∧ longlongMax + 1 < args0.valInt then raiseIntegerOverflow unsignedFlag
  else if args0.valInt = longlongMin ∧ ¬ args0.unsignedFlag ∧ ¬ unsignedFlag then
    raiseIntegerOverflow unsignedFlag
  else checkIntegerOverflow unsignedFlag (-args0.valInt) args0.negative

theorem signed_tdiv (s t : Bool) (m n : ℕ) : (signed s m).tdiv (signed t n) = signed (s != t) (m / n) := by
  cases s <;> cases t <;> simp [signed, Int.neg_tdiv, Int.tdiv_neg]

theorem signed_tmod (s t : Bool) (m n : ℕ) : (signed s m).tmod (signed t n) = signed s (m % n) := by
  have hn : (m : ℤ).tmod n = (m % n : ℕ) := rfl
  cases s <;> cases t <;> simp only [signed_false, signed_true, Int.neg_tmod, Int.tmod_neg, hn]

/-- The number 1. -/
def oneArg : IntArg := ⟨1, false, false⟩

section
variable {args0 args1 : IntArg} (h0 : args0.nullValue = false) (h1 : args1.nullValue = false)
  (hzero : args1.valInt ≠ 0)
include h0 h1 hzero

theorem modIntOp_spec : ExactOrRejected (modUnsignedFlag args0) (args0.number.tmod args1.number)
    (modIntOp (modUnsignedFlag args0) args0 args1) := by
  have hle := @IntArg.magnitude_le args0
  simp only [modIntOp, h0, h1, hzero, Bool.false_eq_true, or_self, if_false]
  rw [args0.number_eq_signed, args1.number_eq_signed, signed_tmod, ← BitVec.toNat_umod]
  apply exactOrRejected_check (ofInt_signed _ _).symm
  have hm : (args0.magnitude % args1.magnitude).toNat ≤ args0.magnitude.toNat := Nat.mod_le _ _
  cases hn : args0.negative with
  | true =>
    rw [signed_true, Bool.not_true, inType_signed]
    have := (hle hn).2.2
    omega
  | false => exact number_inType true _

theorem eq_longlongMin_of_quotient (hsigned : intDivUnsignedFlag args0 args1 = false)
    (hs : args0.negative ≠ args1.negative) (hq : 2 ^ 63 ≤ args0.magnitude.toNat / args1.magnitude.toNat) :
    args0 = longlongMinArg ∧ args1 = oneArg := by
  obtain ⟨v0, u0, n0⟩ := args0
  obtain ⟨v1, u1, n1⟩ := args1
  obtain ⟨hu0, hu1⟩ : u0 = false ∧ u1 = false := by simpa [intDivUnsignedFlag] using hsigned
  subst h0 h1 hu0 hu1
  have hp : 0 < (IntArg.magnitude ⟨v1, false, false⟩).toNat :=
    Nat.pos_of_ne_zero fun h => hzero (IntArg.magnitude_eq_zero_iff.mp h)
  have hm0' : 2 ^ 63 * (IntArg.magnitude ⟨v1, false, false⟩).toNat ≤ (IntArg.magnitude ⟨v0, false, false⟩).toNat :=
    (Nat.le_div_iff_mul_le hp).mp hq
  have hn0 := IntArg.number_eq_signed ⟨v0, false, false⟩
  have hn1 := IntArg.number_eq_signed ⟨v1, false, false⟩
  have hv0 := toInt_cases v0
  simp only [IntArg.number, number_signed] at hn0 hn1
  cases hneg0 : IntArg.negative ⟨v0, false, false⟩ with
  | false =>
    -- a signed number that is not negative is below `2 ^ 63`
    rw [hneg0, signed_false] at hn0
    omega
  | true =>
    have hneg1 : IntArg.negative ⟨v1, false, false⟩ = false := by
      rw [hneg0] at hs
      exact Bool.eq_false_of_not_eq_true fun h => hs h.symm
    rw [hneg0, signed_true] at hn0
    rw [hneg1, signed_false] at hn1
    have hm : v0 = longlongMin := BitVec.eq_of_toInt_eq (by
      rw [show longlongMin.toInt = -2 ^ 63 from rfl]
      omega)
    have hone : v1 = 1 := BitVec.eq_of_toInt_eq (by
      rw [show (1 : Longlong).toInt = 1 from rfl]
      omega)
    rw [hm, hone]
    exact ⟨rfl, rfl⟩

theorem intDivValInt_iff : ExactOrRejected (intDivUnsignedFlag args0 args1) (args0.number.tdiv args1.number)
      (intDivValInt (intDivUnsignedFlag args0 args1) args0 args1) ↔ ¬ (args0 = longlongMinArg ∧ args1 = oneArg) := by
  have hsl := @eq_longlongMin_of_quotient args0 args1 h0 h1 hzero
  simp only [intDivValInt, h0, h1, hzero, Bool.false_eq_true, or_self, if_false]
  rw [args0.number_eq_signed, args1.number_eq_signed, signed_tdiv, ← BitVec.toNat_udiv]
  rw [← BitVec.toNat_udiv] at hsl
  by_cases hs : args0.negative = args1.negative
  · rw [hs, bne_self_eq_false, if_neg (by simp)]
    apply iff_of_true
    · exact exactOrRejected_check (ofInt_number true _).symm (number_inType true _)
    · rintro ⟨rfl, rfl⟩
      exact absurd hs (by decide)
  · have hb : (args0.negative != args1.negative) = true := by simpa using hs
    rw [hb, if_pos rfl, signed_true]
    by_cases hl : longlongMax < args0.magnitude / args1.magnitude
    · rw [if_pos hl, exactOrRejected_raise, not_iff_not]
      rw [longlongMax_lt] at hl
      cases hf : intDivUnsignedFlag args0 args1 with
      | true =>
        apply iff_of_false
        · rw [inType_unsigned]
          omega
        · rintro ⟨rfl, rfl⟩
          exact absurd hf (by decide)
      | false =>
        obtain ⟨rfl, rfl⟩ := hsl hf hs hl
        decide
    · rw [if_neg hl]
      apply iff_of_true
      · apply exactOrRejected_check (ofInt_signed true _).symm
        rw [longlongMax_lt] at hl
        rw [Bool.not_true, inType_signed, signed_true]
        omega
      · rintro ⟨rfl, rfl⟩
        exact hl (by decide)

end

theorem negIntOp_spec {args0 : IntArg} (h0 : args0.nullValue = false) :
    ExactOrRejected negUnsignedFlag (-args0.number) (negIntOp negUnsignedFlag args0) := by
  obtain ⟨v, u, n⟩ := args0
  subst h0
  have hv := toInt_cases v
  have hr : -v = BitVec.ofInt 64 (-number u v) := by rw [BitVec.ofInt_neg, ofInt_number]
  have hmax : longlongMax + 1 < v ↔ 2 ^ 63 < v.toNat := Iff.rfl
  simp only [negIntOp, negUnsignedFlag, IntArg.negative, IntArg.number, hmax, Bool.false_eq_true,
    if_false, not_false_eq_true, and_true]
  cases u with
  | true =>
    simp only [number_unsigned, Bool.not_true, Bool.false_and, true_and, not_true_eq_false, and_false, if_false] at hr ⊢
    split
    · rw [exactOrRejected_raise, inType_signed]
      omega
    · exact exactOrRejected_check hr (inType_signed.mpr (by omega))
  | false =>
    simp only [number_signed, Bool.not_false, Bool.true_and, Bool.false_eq_true, false_and, if_false,
      not_false_eq_true, and_true] at hr ⊢
    by_cases hm : v = longlongMin
    · rw [if_pos hm, hm]
      decide
    · have hne : v.toInt ≠ -2 ^ 63 := fun h => hm (BitVec.eq_of_toInt_eq h)
      rw [if_neg hm]
      apply exactOrRejected_check hr
      by_cases hn : v.toInt < 0
      · rw [decide_eq_true hn, inType_unsigned]
        omega
      · rw [decide_eq_false hn, inType_signed]
        omega

/-- `DIV` by a number that is not zero truncates the quotient, `MOD` is the remainder of that division,
and unary minus negates: each returns the exact number if that is a value of the type that the function
sets for its result, and raises the error if it is not, except that `LONGLONG_MIN DIV 1` is rejected. -/
theorem division_exactOrRejected_iff (args0 args1 : IntArg) (h0 : args0.nullValue = false)
    (h1 : args1.nullValue = false) (hzero : args1.valInt ≠ 0) :
    (ExactOrRejected (intDivUnsignedFlag args0 args1) (args0.number.tdiv args1.number)
        (intDivValInt (intDivUnsignedFlag args0 args1) args0 args1) ↔ ¬ (args0 = longlongMinArg ∧ args1 = oneArg)) ∧
    ExactOrRejected (modUnsignedFlag args0) (args0.number - args1.number * args0.number.tdiv args1.number)
      (modIntOp (modUnsignedFlag args0) args0 args1) ∧
    ExactOrRejected negUnsignedFlag (-args0.number) (negIntOp negUnsignedFlag args0) := by
  refine ⟨intDivValInt_iff h0 h1 hzero, ?_, negIntOp_spec h0⟩
  rw [← Int.tmod_def]
  exact modIntOp_spec h0 h1 hzero

/-- `-7 DIV 2` and `-7 MOD 2`. -/
theorem division_exactOrRejected_iff_seven : intDivValInt false ⟨-7, false, false⟩ ⟨2, false, false⟩ = .value (-3) ∧
      ExactOrRejected false ((-7 : ℤ).tdiv 2) (intDivValInt false ⟨-7, false, false⟩ ⟨2, false, false⟩) ∧
      ExactOrRejected false (-7 - 2 * (-7 : ℤ).tdiv 2) (modIntOp false ⟨-7, false, false⟩ ⟨2, false, false⟩) :=
  have h := division_exactOrRejected_iff ⟨-7, false, false⟩ ⟨2, false, false⟩ rfl rfl (by decide)
  ⟨by decide, h.1.mpr (by decide), h.2.1⟩

/-- The quotient of `LONGLONG_MIN` by 1 is `LONGLONG_MIN`, but `DIV` raises the error. -/
theorem longlongMin_div_one_rejected : intDivUnsignedFlag longlongMinArg oneArg = false ∧
      InType 64 false (longlongMinArg.number.tdiv oneArg.number) ∧
      intDivValInt false longlongMinArg oneArg = .outOfRange "BIGINT" ∧
      ¬ ExactOrRejected false (longlongMinArg.number.tdiv oneArg.number)
        (intDivValInt false longlongMinArg oneArg) := by
  decide

end MySQLServer.Item
