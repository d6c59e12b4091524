import MySQLServer.Item.Additive

/-! # `ROUND` and `TRUNCATE` of integers

`roundedTo` is the rounded number, a multiple of a power of ten.  `roundIntOp_eq` says that
`Item_func_round::int_op` returns the bits of that number, except where the table's largest power
`10 ^ 19`, which is `-8446744073709551616` in a `longlong`, divides a signed number. -/

namespace MySQLServer.Item

open Lib

/-! ### The function -/

def log10Int : List Longlong :=
  [1, 10, 100, 1000, 10000, 100000, 1000000, 10000000, 100000000, 1000000000, 10000000000,
    100000000000, 1000000000000, 10000000000000, 100000000000000, 1000000000000000,
    10000000000000000, 100000000000000000, 1000000000000000000, 10000000000000000000]

/-- `my_unsigned_round`; `dest` is its parameter `to`. -/
def myUnsignedRound (value dest : Longlong) : Longlong :=
  let tmp := value / dest * dest
  if value - tmp < dest >>> 1 then tmp else tmp + dest

/-- The `unsigned_flag` that `Item_func_round::fix_length_and_dec` sets. -/
def roundUnsignedFlag (args0 : IntArg) : Bool := args0.unsignedFlag

/-- The part of `Item_func_round::int_op` after `tmp= log_10_int[abs_dec]`. -/
def roundToPower (truncate unsignedFlag : Bool) (value tmp : Longlong) : Longlong :=
  if truncate then if unsignedFlag then value / tmp * tmp else value.sdiv tmp * tmp
  else if unsignedFlag ∨ 0 ≤ value.toInt then myUnsignedRound value tmp
  else -myUnsignedRound (-value) tmp

def roundIntOp (truncate unsignedFlag : Bool) (args0 args1 : IntArg) : IntResult :=
  let value := args0.valInt
  let dec := args1.valInt
  if args0.nullValue ∨ args1.nullValue then .null
  else if 0 ≤ dec.toInt ∨ args1.unsignedFlag then .value value
  else
    match log10Int[(-dec).toNat]? with
    | none => .value 0
    | some tmp => .value (roundToPower truncate unsignedFlag value tmp)

/-! ### The rounded number -/

/-- The natural number `n` rounded to a multiple of `p`, down or half up. -/
def roundedMagnitude (truncate : Bool) (p n : ℕ) : ℕ :=
  (if truncate then n / p else (2 * n + p) / (2 * p)) * p

theorem roundedMagnitude_true (p n : ℕ) : roundedMagnitude true p n = n / p * p := rfl

theorem roundedMagnitude_false (p n : ℕ) : roundedMagnitude false p n = (2 * n + p) / (2 * p) * p := rfl

/-- The number `x` rounded to a multiple of `p`, toward zero or half away from zero. -/
def roundedToMultiple (truncate : Bool) (p : ℕ) (x : ℤ) : ℤ :=
  if x < 0 then -roundedMagnitude truncate p x.natAbs else roundedMagnitude truncate p x.natAbs

/-- The number `x` rounded to a multiple of `10 ^ -d`. -/
def roundedTo (truncate : Bool) (x d : ℤ) : ℤ :=
  if 0 ≤ d then x else roundedToMultiple truncate (10 ^ (-d).toNat) x

theorem roundedToMultiple_eq_zero {truncate : Bool} {p : ℕ} {x : ℤ} (h : 2 * x.natAbs < p) :
    roundedToMultiple truncate p x = 0 := by
  have hz : roundedMagnitude truncate p x.natAbs = 0 := by
    unfold roundedMagnitude
    split
    · rw [Nat.div_eq_of_lt (by omega), Nat.zero_mul]
    · rw [Nat.div_eq_of_lt (by omega), Nat.zero_mul]
  simp [roundedToMultiple, hz]

theorem roundedToMultiple_true_eq_zero {p : ℕ} {x : ℤ} (h : x.natAbs < p) : roundedToMultiple true p x = 0 := by
  simp [roundedToMultiple, roundedMagnitude_true, Nat.div_eq_of_lt h]

/-! ### What the function computes -/

theorem log10Int_getElem? (k : ℕ) : log10Int[k]? = if k < 20 then some (BitVec.ofNat 64 (10 ^ k)) else none := by
  by_cases hk : k < 20
  · rw [if_pos hk]
    interval_cases k <;> rfl
  · rw [if_neg hk]
    exact List.getElem?_eq_none (by simpa [log10Int] using hk)

theorem half_up_eq {n h : ℕ} (hh : 0 < h) :
    (2 * n + 2 * h) / (2 * (2 * h)) = n / (2 * h) + if n % (2 * h) < h then 0 else 1 := by
  have hd := Nat.div_add_mod n (2 * h)
  have hm := Nat.mod_lt n (show 0 < 2 * h by omega)
  generalize n / (2 * h) = q at *
  generalize n % (2 * h) = r at *
  subst hd
  rw [show 2 * (2 * h * q + r) + 2 * h = 2 * (2 * h) * q + (2 * r + 2 * h) by ring,
    Nat.mul_add_div (by omega)]
  split
  · rw [Nat.div_eq_of_lt (by omega)]
  · have hone : (2 * r + 2 * h) / (2 * (2 * h)) = 1 :=
      Nat.div_eq_of_lt_le (by omega) (by omega)
    rw [hone]

section
variable (v : Longlong) {p : ℕ} (hp : p < 2 ^ 64)
include hp

theorem toNat_ofNat_of_lt : (BitVec.ofNat 64 p).toNat = p := by
  rw [BitVec.toNat_ofNat, Nat.mod_eq_of_lt hp]

theorem udiv_mul_eq : v / BitVec.ofNat 64 p * BitVec.ofNat 64 p =
    BitVec.ofNat 64 (roundedMagnitude true p v.toNat) := by
  apply BitVec.eq_of_toNat_eq
  rw [BitVec.toNat_mul, BitVec.toNat_udiv, toNat_ofNat_of_lt hp, BitVec.toNat_ofNat, roundedMagnitude_true]

/-- `my_unsigned_round` computes the rounded multiple modulo `2 ^ 64`. -/
theorem myUnsignedRound_eq {h : ℕ} (hh : 0 < h) (hph : p = 2 * h) :
    myUnsignedRound v (BitVec.ofNat 64 p) = BitVec.ofNat 64 (roundedMagnitude false p v.toNat) := by
  have hle := Nat.div_mul_le_self v.toNat p
  have hm : v.toNat - v.toNat / p * p = v.toNat % p := by
    have := Nat.div_add_mod v.toNat p
    rw [Nat.mul_comm] at this
    omega
  have hdest := toNat_ofNat_of_lt hp
  have htmp : (v / BitVec.ofNat 64 p * BitVec.ofNat 64 p).toNat = v.toNat / p * p := by
    rw [BitVec.toNat_mul, BitVec.toNat_udiv, hdest, Nat.mod_eq_of_lt (by omega)]
  have ht : v - v / BitVec.ofNat 64 p * BitVec.ofNat 64 p < BitVec.ofNat 64 p >>> 1 ↔ v.toNat % p < h := by
    rw [BitVec.lt_def, BitVec.toNat_sub_of_le (by rw [BitVec.le_def, htmp]; exact hle), htmp, hm,
      BitVec.toNat_ushiftRight, hdest, Nat.shiftRight_eq_div_pow, hph]
    omega
  rw [myUnsignedRound, roundedMagnitude_false]
  apply BitVec.eq_of_toNat_eq
  subst hph
  rw [half_up_eq hh]
  by_cases hd : v.toNat % (2 * h) < h
  · rw [if_pos (ht.mpr hd), if_pos hd, htmp, Nat.add_zero, BitVec.toNat_ofNat, Nat.mod_eq_of_lt (by omega)]
  · rw [if_neg (fun hlt => hd (ht.mp hlt)), if_neg hd, BitVec.toNat_add, htmp, hdest,
      BitVec.toNat_ofNat, Nat.add_mul, Nat.one_mul]

end

theorem sdiv_mul_eq (v : Longlong) {p : ℕ} (hp : p < 2 ^ 63) :
    v.sdiv (BitVec.ofNat 64 p) * BitVec.ofNat 64 p = BitVec.ofInt 64 (v.toInt.tdiv p * p) := by
  have hd : (BitVec.ofNat 64 p).toInt = p := by
    have hc := toInt_cases (BitVec.ofNat 64 p)
    rw [toNat_ofNat_of_lt (by omega)] at hc
    omega
  have hq : v.sdiv (BitVec.ofNat 64 p) = BitVec.ofInt 64 (v.toInt.tdiv p) := by
    apply BitVec.eq_of_toInt_eq
    rw [BitVec.toInt_sdiv, hd, BitVec.toInt_ofInt]
  rw [hq, BitVec.ofInt_mul, BitVec.ofInt_natCast]

theorem tdiv_mul_eq (x : ℤ) (p : ℕ) : x.tdiv p * p = roundedToMultiple true p x := by
  have hn : (x.natAbs : ℤ).tdiv p = (x.natAbs / p : ℕ) := rfl
  rw [roundedToMultiple, roundedMagnitude_true]
  rcases Int.natAbs_eq x with hx | hx
  · rw [if_neg (by omega), Nat.cast_mul, ← hn, ← hx]
  · by_cases hneg : x < 0
    · rw [if_pos hneg, Nat.cast_mul, ← hn, ← Int.neg_mul, ← Int.neg_tdiv, ← hx]
    · have hz : x = 0 := by omega
      rw [hz]
      simp

/-- The rounding of the value with either sign, for a power of ten that fits. -/
theorem roundToPower_eq (truncate unsignedFlag : Bool) (v : Longlong) {p h : ℕ} (hp : p < 2 ^ 64) (hh : 0 < h)
    (hph : p = 2 * h) (hs : truncate = true → unsignedFlag = false → p < 2 ^ 63) :
    roundToPower truncate unsignedFlag v (BitVec.ofNat 64 p) =
      BitVec.ofInt 64 (roundedToMultiple truncate p (number unsignedFlag v)) := by
  have hv := toInt_cases v
  cases truncate with
  | true =>
    rw [roundToPower, if_pos rfl]
    cases unsignedFlag with
    | true =>
      rw [if_pos rfl, udiv_mul_eq v hp, roundedToMultiple, number_unsigned, if_neg (by omega),
        Int.natAbs_natCast, BitVec.ofInt_natCast]
    | false => rw [if_neg (by decide), sdiv_mul_eq v (hs rfl rfl), tdiv_mul_eq, number_signed]
  | false =>
    rw [roundToPower, if_neg (by decide)]
    by_cases hpos : unsignedFlag = true ∨ 0 ≤ v.toInt
    · have hn : number unsignedFlag v = v.toNat := by
        cases unsignedFlag with
        | true => rfl
        | false =>
          rw [number_signed]
          simp only [Bool.false_eq_true, false_or] at hpos
          omega
      rw [if_pos hpos, myUnsignedRound_eq v hp hh hph, roundedToMultiple, hn, if_neg (by omega),
        Int.natAbs_natCast, BitVec.ofInt_natCast]
    · obtain ⟨hu, hneg⟩ := not_or.mp hpos
      rw [Bool.not_eq_true] at hu
      subst hu
      have habs : (-v).toNat = v.toInt.natAbs := by
        rw [BitVec.toNat_neg]
        omega
      rw [if_neg hpos, myUnsignedRound_eq _ hp hh hph, roundedToMultiple, number_signed,
        if_pos (not_le.mp hneg), habs, BitVec.ofInt_neg, BitVec.ofInt_natCast]

theorem tenPow19_toInt : (BitVec.ofNat 64 (10 ^ 19)).toInt = -8446744073709551616 := by decide

theorem sdiv_tenPow19 (v : Longlong) : v.sdiv (BitVec.ofNat 64 (10 ^ 19)) * BitVec.ofNat 64 (10 ^ 19) = 0 ↔
      v.toInt.natAbs < 8446744073709551616 := by
  have hv := toInt_cases v
  have hq : v.sdiv (BitVec.ofNat 64 (10 ^ 19)) = BitVec.ofInt 64 (-v.toInt.tdiv 8446744073709551616) := by
    apply BitVec.eq_of_toInt_eq
    rw [BitVec.toInt_sdiv, tenPow19_toInt, BitVec.toInt_ofInt, Int.tdiv_neg]
  have ht : v.toInt.tdiv 8446744073709551616 =
      if v.toInt < 0 then -(-v.toInt / 8446744073709551616) else v.toInt / 8446744073709551616 := by
    split
    · rw [← Int.tdiv_eq_ediv_of_nonneg (by omega), Int.neg_tdiv, neg_neg]
    · exact Int.tdiv_eq_ediv_of_nonneg (by omega)
  rw [hq]
  -- the quotient is 0, 1 or -1, as `2 ^ 63` is less than twice the divisor
  by_cases hs : v.toInt.natAbs < 8446744073709551616
  · have hz : v.toInt.tdiv 8446744073709551616 = 0 := by omega
    rw [hz]
    exact iff_of_true (by decide) hs
  · have hone : v.toInt.tdiv 8446744073709551616 = 1 ∨ v.toInt.tdiv 8446744073709551616 = -1 := by omega
    apply iff_of_false _ hs
    rcases hone with hone | hone
    · rw [hone]
      decide
    · rw [hone]
      decide

/-- The slip: `10 ^ 19` is negative in the variable `tmp`, and a signed number is divided by it. -/
def TruncateSlip (truncate : Bool) (args0 args1 : IntArg) : Prop :=
  truncate = true ∧ args0.unsignedFlag = false ∧ args1.number = -19 ∧ 8446744073709551616 ≤ args0.number.natAbs

instance (truncate : Bool) (args0 args1 : IntArg) : Decidable (TruncateSlip truncate args0 args1) := by
  unfold TruncateSlip
  infer_instance

section
variable {truncate : Bool} {args0 args1 : IntArg} (h0 : args0.nullValue = false)
  (h1 : args1.nullValue = false)
include h0 h1

theorem roundIntOp_of_nonneg (hd : 0 ≤ args1.number) : roundIntOp truncate (roundUnsignedFlag args0) args0 args1 =
      .value (BitVec.ofInt 64 (roundedTo truncate args0.number args1.number)) := by
  have hc : 0 ≤ args1.valInt.toInt ∨ args1.unsignedFlag = true := by
    cases hu : args1.unsignedFlag with
    | true => exact .inr rfl
    | false =>
      rw [IntArg.number, hu, number_signed] at hd
      exact .inl hd
  simp only [roundIntOp, h0, h1, Bool.false_eq_true, or_self, if_false, hc, if_true]
  rw [roundedTo, if_pos hd, IntArg.number, ofInt_number]

theorem roundIntOp_of_neg (hd : args1.number < 0) :
    roundIntOp truncate (roundUnsignedFlag args0) args0 args1 = .value (if (-args1.number).toNat < 20 then
        roundToPower truncate args0.unsignedFlag args0.valInt (BitVec.ofNat 64 (10 ^ (-args1.number).toNat))
      else 0) := by
  have hu : args1.unsignedFlag = false := by
    by_contra h
    rw [Bool.not_eq_false] at h
    rw [IntArg.number, h, number_unsigned] at hd
    omega
  have hn : args1.number = args1.valInt.toInt := by rw [IntArg.number, hu, number_signed]
  have hv1 := toInt_cases args1.valInt
  have habs : (-args1.valInt).toNat = (-args1.number).toNat := by
    rw [BitVec.toNat_neg]
    omega
  have hc : ¬ (0 ≤ args1.valInt.toInt ∨ args1.unsignedFlag = true) := by
    rw [← hn, hu]
    simpa using hd
  rw [roundIntOp, if_neg (by simp [h0, h1]), if_neg hc, habs, log10Int_getElem?]
  by_cases hk : (-args1.number).toNat < 20
  · rw [if_pos hk, if_pos hk]
    rfl
  · rw [if_neg hk, if_neg hk]

/-- Apart from the slip the function returns the bits of the rounded number. -/
theorem roundIntOp_eq (hslip : ¬ TruncateSlip truncate args0 args1) :
    roundIntOp truncate (roundUnsignedFlag args0) args0 args1 =
      .value (BitVec.ofInt 64 (roundedTo truncate args0.number args1.number)) := by
  by_cases hd : 0 ≤ args1.number
  · exact roundIntOp_of_nonneg h0 h1 hd
  · rw [roundIntOp_of_neg h0 h1 (not_le.mp hd), roundedTo, if_neg hd]
    apply congrArg IntResult.value
    generalize hk : (-args1.number).toNat = k
    have hm : args0.number.natAbs < 2 ^ 64 := by
      have hin := number_inType args0.unsignedFlag args0.valInt
      rw [IntArg.number]
      cases hu : args0.unsignedFlag with
      | true =>
        rw [hu, inType_unsigned] at hin
        omega
      | false =>
        rw [hu, inType_signed] at hin
        omega
    by_cases hl : k < 20
    · rw [if_pos hl]
      have hpow : 10 ^ k = 2 * (5 * 10 ^ (k - 1)) := by
        rw [show k = k - 1 + 1 by omega, Nat.pow_succ]
        simp only [Nat.add_sub_cancel]
        omega
      have hp : 10 ^ k < 2 ^ 64 :=
        lt_of_le_of_lt (Nat.pow_le_pow_right (by decide) (show k ≤ 19 by omega)) (by decide)
      by_cases hn : truncate = true ∧ args0.unsignedFlag = false ∧ k = 19
      · -- the divisor is negative, but the number is too small to be divided
        obtain ⟨rfl, hu, rfl⟩ := hn
        have hs : args0.number.natAbs < 8446744073709551616 := by
          by_contra hbig
          exact hslip ⟨rfl, hu, by omega, by omega⟩
        rw [roundedToMultiple_true_eq_zero (by omega), roundToPower, if_pos rfl, hu, if_neg (by decide)]
        rw [IntArg.number, hu, number_signed] at hs
        exact (sdiv_tenPow19 args0.valInt).mpr hs
      · apply roundToPower_eq truncate args0.unsignedFlag args0.valInt hp (by positivity) hpow
        intro ht hu
        have hk18 : k ≤ 18 := by
          by_contra hbig
          exact hn ⟨ht, hu, by omega⟩
        exact lt_of_le_of_lt (Nat.pow_le_pow_right (by decide) hk18) (by decide)
    · rw [if_neg hl]
      have hpow : 10 ^ 20 ≤ 10 ^ k := Nat.pow_le_pow_right (by decide) (by omega)
      rw [roundedToMultiple_eq_zero (by omega)]
      rfl

theorem roundIntOp_slip (hs : TruncateSlip truncate args0 args1) : roundedTo truncate args0.number args1.number = 0 ∧
      ∃ v, roundIntOp truncate (roundUnsignedFlag args0) args0 args1 = .value v ∧ v ≠ 0 := by
  obtain ⟨rfl, hu, hd, hb⟩ := hs
  have hin := number_inType args0.unsignedFlag args0.valInt
  rw [hu, inType_signed] at hin
  rw [IntArg.number, hu, number_signed] at hb ⊢
  constructor
  · rw [hd, roundedTo, if_neg (by decide)]
    exact roundedToMultiple_true_eq_zero (by simp at hin ⊢; omega)
  · refine ⟨_, roundIntOp_of_neg h0 h1 (by omega), ?_⟩
    rw [hd, if_pos (by decide), roundToPower, if_pos rfl, hu, if_neg (by decide)]
    exact fun h => absurd ((sdiv_tenPow19 args0.valInt).mp h) (not_lt.mpr hb)

end

/-- The function returns the number `y`. -/
def Returns (unsignedFlag : Bool) (r : IntResult) (y : ℤ) : Prop :=
  ∃ v, r = .value v ∧ number unsignedFlag v = y

theorem returns_value {unsignedFlag : Bool} {v : Longlong} {y : ℤ} :
    Returns unsignedFlag (.value v) y ↔ number unsignedFlag v = y := by
  constructor
  · rintro ⟨w, hw, rfl⟩
    rw [IntResult.value.inj hw]
  · exact fun h => ⟨v, rfl, h⟩

/-- `ROUND` and `TRUNCATE` of an integer.  The rounded multiple is returned whenever it is a value of the
result's type, unless a signed number of absolute value `2 ^ 64 - 10 ^ 19` or more is truncated to a
multiple of `10 ^ 19`; a number other than the rounded multiple is returned in that case, and whenever
the rounded multiple is not a value of the type, and in no other. -/
theorem round_returns_iff (truncate : Bool) (args0 args1 : IntArg) (h0 : args0.nullValue = false)
    (h1 : args1.nullValue = false) :
    ((InType 64 (roundUnsignedFlag args0) (roundedTo truncate args0.number args1.number) →
        Returns (roundUnsignedFlag args0) (roundIntOp truncate (roundUnsignedFlag args0) args0 args1)
          (roundedTo truncate args0.number args1.number)) ↔ ¬ TruncateSlip truncate args0 args1) ∧
    (Returns (roundUnsignedFlag args0) (roundIntOp truncate (roundUnsignedFlag args0) args0 args1)
        (roundedTo truncate args0.number args1.number) ↔
      InType 64 (roundUnsignedFlag args0) (roundedTo truncate args0.number args1.number) ∧
        ¬ TruncateSlip truncate args0 args1) := by
  by_cases hs : TruncateSlip truncate args0 args1
  · obtain ⟨hz, v, hv, hne⟩ := roundIntOp_slip h0 h1 hs
    have hin : InType 64 (roundUnsignedFlag args0) 0 := by
      cases roundUnsignedFlag args0 <;> decide
    have hn : ¬ Returns (roundUnsignedFlag args0) (.value v) 0 := by
      rw [returns_value]
      intro h
      apply hne
      rw [← ofInt_number (roundUnsignedFlag args0) v, h]
      rfl
    rw [hz, hv]
    exact ⟨iff_of_false (fun h => hn (h hin)) (not_not.mpr hs), iff_of_false hn fun h => h.2 hs⟩
  · rw [roundIntOp_eq h0 h1 hs, returns_value, number_ofInt_eq_iff]
    exact ⟨iff_of_true id hs, (and_iff_left hs).symm⟩

/-- `ROUND(-25, -1)` is -30. -/
theorem round_returns_iff_twentyFive :
    Returns false (roundIntOp false false ⟨-25, false, false⟩ ⟨-1, false, false⟩) (-30) :=
  (round_returns_iff false ⟨-25, false, false⟩ ⟨-1, false, false⟩ rfl rfl).2.mpr (by decide)

/-- `TRUNCATE(9223372036854775807, -19)` is 0, but 8446744073709551616 is returned. -/
theorem truncate_max_not_zero :
    roundIntOp true false ⟨longlongMax, false, false⟩ ⟨-19, false, false⟩ = .value 8446744073709551616 ∧
      roundedTo true (IntArg.number ⟨longlongMax, false, false⟩) (IntArg.number ⟨-19, false, false⟩) = 0 ∧
      ¬ (InType 64 false 0 →
        Returns false (roundIntOp true false ⟨longlongMax, false, false⟩ ⟨-19, false, false⟩) 0) := by
  refine ⟨by decide, by decide, fun h => ?_⟩
  obtain ⟨v, hv, hn⟩ := h (by decide)
  rw [show roundIntOp true false ⟨longlongMax, false, false⟩ ⟨-19, false, false⟩ =
    .value 8446744073709551616 by decide] at hv
  rw [← IntResult.value.inj hv] at hn
  exact absurd hn (by decide)

end MySQLServer.Item
