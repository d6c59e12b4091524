import MySQLServer.Lib.MachineWord

/-! # BIGINT functions: the overflow check, addition and subtraction

An integer function computes on the 64 bits of its arguments and then tells the sign of the result from
the signs of the arguments.  `check_integer_overflow` is called with the result's bits and with the
signedness in which they are the exact result, and raises an error if that number is not a value of
the function's own type.

* `ExactOrRejected`: what an integer function has to return.
* `checkIntegerOverflow_spec`: the check is right if the caller gives it the signedness in which the
  bits are the exact result.
* `additive_exactOrRejected_iff`: addition and subtraction return the exact result or an error, except
  for `0 - LONGLONG_MIN`. -/

namespace MySQLServer.Item

open Lib

/-- `longlong` and `ulonglong`: the same bits, with the arithmetic modulo `2 ^ 64`. -/
abbrev Longlong := BitVec 64

def longlongMin : Longlong := BitVec.intMin 64

def longlongMax : Longlong := BitVec.intMax 64

/-- An integer argument: what its `val_int` returns, its `unsigned_flag` and its `null_value`. -/
structure IntArg where
  valInt : Longlong
  unsignedFlag : Bool
  nullValue : Bool
deriving DecidableEq, Repr

/-- The number an argument stands for. -/
def IntArg.number (a : IntArg) : ℤ := Lib.number a.unsignedFlag a.valInt

/-- How the evaluation of an integer function ends: with `null_value` set, also after
`signal_divide_by_null`; with `ER_DATA_OUT_OF_RANGE` for the named type; or with a value. -/
inductive IntResult where
  | null
  | divideByNull
  | outOfRange (type : String)
  | value (v : Longlong)
deriving DecidableEq, Repr

def raiseIntegerOverflow (unsignedFlag : Bool) : IntResult :=
  .outOfRange (if unsignedFlag then "BIGINT UNSIGNED" else "BIGINT")

/-- `Item_func::check_integer_overflow`, for a function with the given `unsigned_flag`. -/
def checkIntegerOverflow (unsignedFlag : Bool) (value : Longlong) (valUnsigned : Bool) : IntResult :=
  if (unsignedFlag ∧ ¬ valUnsigned ∧ value.toInt < 0) ∨
      (¬ unsignedFlag ∧ valUnsigned ∧ longlongMax < value) then
    raiseIntegerOverflow unsignedFlag
  else .value value

def testIfSumOverflowsUll (arg1 arg2 : Longlong) : Bool := BitVec.allOnes 64 - arg1 < arg2

/-- The result is the exact number `x`, or `x` is not a value of the function's type and the error is
raised for that type. -/
def ExactOrRejected (unsignedFlag : Bool) (x : ℤ) (r : IntResult) : Prop :=
  (∃ v, r = .value v ∧ number unsignedFlag v = x) ∨
    (r = raiseIntegerOverflow unsignedFlag ∧ ¬ InType 64 unsignedFlag x)

section
variable {unsignedFlag valUnsigned : Bool} {v : Longlong} {x : ℤ}

theorem exactOrRejected_value : ExactOrRejected unsignedFlag x (.value v) ↔ number unsignedFlag v = x := by
  simp [ExactOrRejected, raiseIntegerOverflow]

theorem exactOrRejected_raise :
    ExactOrRejected unsignedFlag x (raiseIntegerOverflow unsignedFlag) ↔ ¬ InType 64 unsignedFlag x := by
  simp [ExactOrRejected, raiseIntegerOverflow]

theorem exactOrRejected_iff {r : IntResult} : ExactOrRejected unsignedFlag x r ↔
    r = if InType 64 unsignedFlag x then .value (BitVec.ofInt 64 x) else raiseIntegerOverflow unsignedFlag := by
  by_cases hx : InType 64 unsignedFlag x
  · rw [if_pos hx]
    constructor
    · rintro (⟨v, rfl, rfl⟩ | ⟨-, hn⟩)
      · rw [ofInt_number]
      · exact absurd hx hn
    · rintro rfl
      exact exactOrRejected_value.mpr (number_ofInt hx)
  · rw [if_neg hx]
    constructor
    · rintro (⟨v, rfl, rfl⟩ | ⟨hr, -⟩)
      · exact absurd (number_inType _ _) hx
      · exact hr
    · rintro rfl
      exact exactOrRejected_raise.mpr hx

instance (r : IntResult) : Decidable (ExactOrRejected unsignedFlag x r) :=
  decidable_of_iff _ exactOrRejected_iff.symm

theorem toInt_cases (v : Longlong) : (v.toNat < 2 ^ 63 ∧ v.toInt = v.toNat) ∨
    (2 ^ 63 ≤ v.toNat ∧ v.toNat < 2 ^ 64 ∧ v.toInt = v.toNat - 2 ^ 64) := by
  rw [BitVec.toInt_eq_toNat_cond]
  split
  · omega
  · omega

theorem longlongMax_lt : longlongMax < v ↔ 2 ^ 63 ≤ v.toNat := by
  rw [BitVec.lt_def]
  simp [longlongMax, Nat.lt_iff_add_one_le]

theorem toInt_neg_iff : v.toInt < 0 ↔ 2 ^ 63 ≤ v.toNat := by
  have h := toInt_cases v
  omega

theorem toInt_nonneg_iff : 0 ≤ v.toInt ↔ v.toNat < 2 ^ 63 := by
  have h := toInt_cases v
  omega

theorem ofInt_toInt_nonneg_iff : 0 ≤ (BitVec.ofInt 64 x).toInt ↔ x % 2 ^ 64 < 2 ^ 63 := by
  rw [toInt_nonneg_iff, BitVec.toNat_ofInt]
  omega

theorem testIfSumOverflowsUll_iff {arg1 arg2 : Longlong} :
    testIfSumOverflowsUll arg1 arg2 = true ↔ (2 : ℤ) ^ 64 ≤ arg1.toNat + arg2.toNat := by
  have hs : (BitVec.allOnes 64 - arg1).toNat = 2 ^ 64 - 1 - arg1.toNat := by
    rw [BitVec.toNat_sub, BitVec.toNat_allOnes]
    omega
  rw [testIfSumOverflowsUll, decide_eq_true_iff, BitVec.lt_def, hs]
  omega

/-- The check is right when it gets the bits of the exact result and a signedness in which they are
that result. -/
theorem checkIntegerOverflow_spec (hx : InType 64 valUnsigned x) :
    ExactOrRejected unsignedFlag x (checkIntegerOverflow unsignedFlag (BitVec.ofInt 64 x) valUnsigned) := by
  have hn := number_ofInt hx
  generalize BitVec.ofInt 64 x = v at hn
  subst hn
  simp only [checkIntegerOverflow, longlongMax_lt, toInt_neg_iff]
  split
  · rw [exactOrRejected_raise]
    cases unsignedFlag <;> cases valUnsigned <;> simp_all [BitVec.toInt_eq_toNat_cond] <;> omega
  · rw [exactOrRejected_value]
    cases unsignedFlag <;> cases valUnsigned <;> simp_all [BitVec.toInt_eq_toNat_cond] <;> omega

theorem exactOrRejected_check (hv : v = BitVec.ofInt 64 x) (hx : InType 64 valUnsigned x) :
    ExactOrRejected unsignedFlag x (checkIntegerOverflow unsignedFlag v valUnsigned) :=
  hv ▸ checkIntegerOverflow_spec hx

theorem exactOrRejected_of_lt_of_le (h : x < -2 ^ 63 ∨ 2 ^ 64 ≤ x) :
    ExactOrRejected unsignedFlag x (raiseIntegerOverflow unsignedFlag) := by
  rw [exactOrRejected_raise]
  cases unsignedFlag with
  | true =>
    rw [inType_unsigned]
    omega
  | false =>
    rw [inType_signed]
    omega

end

/-! ### Addition and subtraction -/

/-- The two additive functions. -/
inductive AdditiveOp where
  | plus
  | minus
deriving DecidableEq, Repr

/-- `Item_func_additive_op::result_precision` for integer arguments, and then, for a difference,
`Item_func_minus::fix_length_and_dec` with the bit `MODE_NO_UNSIGNED_SUBTRACTION` of `sql_mode`. -/
def AdditiveOp.unsignedFlag (op : AdditiveOp) (noUnsignedSubtraction : Bool) (args0 args1 : IntArg) : Bool :=
  let flag := args0.unsignedFlag || args1.unsignedFlag
  match op with
  | .plus => flag
  | .minus => if flag && noUnsignedSubtraction then false else flag

def plusIntOp (unsignedFlag : Bool) (args0 args1 : IntArg) : IntResult :=
  let val0 := args0.valInt
  let val1 := args1.valInt
  let res := val0 + val1
  if args0.nullValue ∨ args1.nullValue then .null
  else if args0.unsignedFlag then
    if args1.unsignedFlag ∨ 0 ≤ val1.toInt then
      if testIfSumOverflowsUll val0 val1 then raiseIntegerOverflow unsignedFlag
      else checkIntegerOverflow unsignedFlag res true
    else -- `val1` is negative
      checkIntegerOverflow unsignedFlag res (longlongMax < val0)
  else if args1.unsignedFlag then
    if 0 ≤ val0.toInt then
      if testIfSumOverflowsUll val0 val1 then raiseIntegerOverflow unsignedFlag
      else checkIntegerOverflow unsignedFlag res true
    else checkIntegerOverflow unsignedFlag res (longlongMax < val1)
  else if 0 ≤ val0.toInt ∧ 0 ≤ val1.toInt then checkIntegerOverflow unsignedFlag res true
  else if val0.toInt < 0 ∧ val1.toInt < 0 ∧ 0 ≤ res.toInt then raiseIntegerOverflow unsignedFlag
  else checkIntegerOverflow unsignedFlag res false

def minusIntOp (unsignedFlag : Bool) (args0 args1 : IntArg) : IntResult :=
  let val0 := args0.valInt
  let val1 := args1.valInt
  let res := val0 - val1
  if args0.nullValue ∨ args1.nullValue then .null
  else if args0.unsignedFlag then
    if args1.unsignedFlag then
      if val0 < val1 then
        if 0 ≤ res.toInt then raiseIntegerOverflow unsignedFlag
        else checkIntegerOverflow unsignedFlag res false
      else checkIntegerOverflow unsignedFlag res true
    else if 0 ≤ val1.toInt then checkIntegerOverflow unsignedFlag res (val1 < val0)
    else if testIfSumOverflowsUll val0 (-val1) then raiseIntegerOverflow unsignedFlag
    else checkIntegerOverflow unsignedFlag res true
  else if args1.unsignedFlag then
    if val0 - longlongMin < val1 then raiseIntegerOverflow unsignedFlag
    else checkIntegerOverflow unsignedFlag res false
  else if 0 < val0.toInt ∧ val1.toInt < 0 then checkIntegerOverflow unsignedFlag res true
  else if val0.toInt < 0 ∧ 0 < val1.toInt ∧ 0 ≤ res.toInt then raiseIntegerOverflow unsignedFlag
  else checkIntegerOverflow unsignedFlag res false

/-- `int_op` of the two functions. -/
def AdditiveOp.intOp : AdditiveOp → Bool → IntArg → IntArg → IntResult
  | .plus => plusIntOp
  | .minus => minusIntOp

/-- The exact sum or difference. -/
def AdditiveOp.exact : AdditiveOp → ℤ → ℤ → ℤ
  | .plus, a, b => a + b
  | .minus, a, b => a - b

section
variable (unsignedFlag : Bool) (v0 v1 : Longlong)

theorem ullSum_spec {res : Longlong} {x : ℤ} (hr : res = BitVec.ofInt 64 x) (hx : x = v0.toNat + v1.toNat) :
    ExactOrRejected unsignedFlag x (if testIfSumOverflowsUll v0 v1 then raiseIntegerOverflow unsignedFlag
        else checkIntegerOverflow unsignedFlag res true) := by
  by_cases hov : testIfSumOverflowsUll v0 v1 = true
  · rw [if_pos hov]
    rw [testIfSumOverflowsUll_iff, ← hx] at hov
    exact exactOrRejected_of_lt_of_le (.inr hov)
  · rw [if_neg hov]
    rw [testIfSumOverflowsUll_iff, ← hx] at hov
    exact exactOrRejected_check hr (inType_unsigned.mpr (by omega))

theorem inType_add_negative (h1 : v1.toInt < 0) : InType 64 (longlongMax < v0) ((v0.toNat : ℤ) + v1.toInt) := by
  have hn := toInt_cases v1
  by_cases hl : longlongMax < v0
  · rw [decide_eq_true hl, inType_unsigned]
    rw [longlongMax_lt] at hl
    omega
  · rw [decide_eq_false hl, inType_signed]
    rw [longlongMax_lt] at hl
    omega

theorem plusIntOp_spec (u0 u1 : Bool) : ExactOrRejected unsignedFlag (number u0 v0 + number u1 v1)
    (plusIntOp unsignedFlag ⟨v0, u0, false⟩ ⟨v1, u1, false⟩) := by
  have hr : v0 + v1 = BitVec.ofInt 64 (number u0 v0 + number u1 v1) := by
    rw [BitVec.ofInt_add, ofInt_number, ofInt_number]
  have h0 := toInt_cases v0
  have h1 := toInt_cases v1
  simp only [plusIntOp, Bool.false_eq_true, or_self, if_false]
  cases u0 <;> cases u1 <;> simp only [number_signed, number_unsigned, Bool.false_eq_true, if_true,
    if_false, true_or, false_or] at hr ⊢
  case true.true => exact ullSum_spec _ _ _ hr rfl
  case true.false =>
    split
    · exact ullSum_spec _ _ _ hr (by omega)
    · exact exactOrRejected_check hr (inType_add_negative _ _ (by omega))
  case false.true =>
    split
    · exact ullSum_spec _ _ _ hr (by omega)
    · rw [add_comm v0.toInt] at hr ⊢
      exact exactOrRejected_check hr (inType_add_negative _ _ (by omega))
  case false.false =>
    split
    · exact exactOrRejected_check hr (inType_unsigned.mpr (by omega))
    · simp only [hr, ofInt_toInt_nonneg_iff]
      split
      · exact exactOrRejected_of_lt_of_le (by omega)
      · exact checkIntegerOverflow_spec (inType_signed.mpr (by omega))

/-- Subtraction, for either type of the result. -/
theorem minusIntOp_spec (u0 u1 : Bool) (h : ¬ (u0 = false ∧ u1 = false ∧ v0 = 0 ∧ v1 = longlongMin)) :
    ExactOrRejected unsignedFlag (number u0 v0 - number u1 v1)
      (minusIntOp unsignedFlag ⟨v0, u0, false⟩ ⟨v1, u1, false⟩) := by
  have hr : v0 - v1 = BitVec.ofInt 64 (number u0 v0 - number u1 v1) := by
    rw [ofInt_sub, ofInt_number, ofInt_number]
  have h0 := toInt_cases v0
  have h1 := toInt_cases v1
  simp only [minusIntOp, Bool.false_eq_true, or_self, if_false]
  cases u0 <;> cases u1 <;> simp only [number_signed, number_unsigned, Bool.false_eq_true, if_true,
    if_false] at hr ⊢
  case true.true =>
    simp only [hr, ofInt_toInt_nonneg_iff, BitVec.lt_def]
    split
    · split
      · exact exactOrRejected_of_lt_of_le (by omega)
      · exact checkIntegerOverflow_spec (inType_signed.mpr (by omega))
    · exact checkIntegerOverflow_spec (inType_unsigned.mpr (by omega))
  case true.false =>
    split
    · apply exactOrRejected_check hr
      by_cases hlt : v1 < v0
      · rw [decide_eq_true hlt, inType_unsigned]
        rw [BitVec.lt_def] at hlt
        omega
      · rw [decide_eq_false hlt, inType_signed]
        rw [BitVec.lt_def] at hlt
        omega
    · -- `(ulonglong) -val1` is the absolute value, also for `LONGLONG_MIN`
      have hn : (-v1).toNat = 2 ^ 64 - v1.toNat := by
        rw [BitVec.toNat_neg]
        omega
      exact ullSum_spec _ _ _ hr (by omega)
  case false.true =>
    have hoff : (v0 - longlongMin).toNat = v0.toInt + 2 ^ 63 := by
      rw [BitVec.toNat_sub, show longlongMin.toNat = 2 ^ 63 from rfl]
      omega
    simp only [BitVec.lt_def]
    split
    · exact exactOrRejected_of_lt_of_le (by omega)
    · exact exactOrRejected_check hr (inType_signed.mpr (by omega))
  case false.false =>
    have hz : ¬ (v0.toInt = 0 ∧ v1.toInt = -2 ^ 63) := by
      rintro ⟨hv0, hv1⟩
      refine h ⟨rfl, rfl, ?_, ?_⟩
      · exact BitVec.eq_of_toInt_eq (by rw [hv0]; rfl)
      · exact BitVec.eq_of_toInt_eq (by rw [hv1]; rfl)
    simp only [hr, ofInt_toInt_nonneg_iff]
    split
    · exact checkIntegerOverflow_spec (inType_unsigned.mpr (by omega))
    · split
      · exact exactOrRejected_of_lt_of_le (by omega)
      · exact checkIntegerOverflow_spec (inType_signed.mpr (by omega))

end

/-- The signed number 0. -/
def zeroArg : IntArg := ⟨0, false, false⟩

/-- The smallest signed number. -/
def longlongMinArg : IntArg := ⟨longlongMin, false, false⟩

theorem minusIntOp_zero_longlongMin (unsignedFlag : Bool) :
    ¬ ExactOrRejected unsignedFlag (zeroArg.number - longlongMinArg.number)
      (minusIntOp unsignedFlag zeroArg longlongMinArg) := by
  cases unsignedFlag <;> decide

/-- Addition and subtraction of integer arguments: the result is the exact sum or difference if that is
a value of the type that the function sets for its result, and the error is raised if it is not.  The
only exception is the difference `0 - LONGLONG_MIN` of signed arguments. -/
theorem additive_exactOrRejected_iff (op : AdditiveOp) (noUnsignedSubtraction : Bool) (args0 args1 : IntArg)
    (h0 : args0.nullValue = false) (h1 : args1.nullValue = false) :
    ExactOrRejected (op.unsignedFlag noUnsignedSubtraction args0 args1) (op.exact args0.number args1.number)
        (op.intOp (op.unsignedFlag noUnsignedSubtraction args0 args1) args0 args1) ↔
      ¬ (op = .minus ∧ args0 = zeroArg ∧ args1 = longlongMinArg) := by
  generalize op.unsignedFlag noUnsignedSubtraction args0 args1 = unsignedFlag
  obtain ⟨v0, u0, n0⟩ := args0
  obtain ⟨v1, u1, n1⟩ := args1
  subst h0 h1
  cases op with
  | plus =>
    constructor
    · rintro - ⟨hop, -⟩
      cases hop
    · exact fun _ => plusIntOp_spec unsignedFlag v0 v1 u0 u1
  | minus =>
    constructor
    · rintro hex ⟨-, hz, hm⟩
      rw [hz, hm] at hex
      exact minusIntOp_zero_longlongMin unsignedFlag hex
    · intro h
      apply minusIntOp_spec unsignedFlag v0 v1 u0 u1
      rintro ⟨rfl, rfl, rfl, rfl⟩
      exact h ⟨rfl, rfl, rfl⟩

/-- `18446744073709551615 - -1` is rejected, as the exact result has no type. -/
theorem additive_exactOrRejected_iff_max : ExactOrRejected true (18446744073709551615 - -1)
        (minusIntOp true ⟨BitVec.allOnes 64, true, false⟩ ⟨-1, false, false⟩) ∧
      minusIntOp true ⟨BitVec.allOnes 64, true, false⟩ ⟨-1, false, false⟩ = .outOfRange "BIGINT UNSIGNED" :=
  ⟨(additive_exactOrRejected_iff .minus false ⟨BitVec.allOnes 64, true, false⟩ ⟨-1, false, false⟩ rfl
    rfl).mpr (by decide), by decide⟩

/-- `0 - LONGLONG_MIN` is returned as `LONGLONG_MIN`. -/
theorem zero_minus_longlongMin_wraps : AdditiveOp.minus.unsignedFlag false zeroArg longlongMinArg = false ∧
      minusIntOp false zeroArg longlongMinArg = .value longlongMin ∧
      ¬ ExactOrRejected false (AdditiveOp.minus.exact zeroArg.number longlongMinArg.number)
        (AdditiveOp.minus.intOp false zeroArg longlongMinArg) := by
  decide

end MySQLServer.Item
