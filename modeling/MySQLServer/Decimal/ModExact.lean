import MySQLServer.Decimal.DivExact

/-! # The result of a modulus

`decimal_mod` is documented to compute `R = M - k*N` with the sign of `M` and `max(frac1, frac2)` digits
after the point.  It does so unless

* the dividend is 0 and there should be digits after the point: `decimal_make_zero` leaves none;
* the buffer has no room for them, and 0 is before the point: the test for the room counts one word for the
  integer 0 that is not written, so that words after the end of the buffer are;
* the dividend is less than `10^-9` and its first word has more than one digit: `ROUND_UP` of a negative
  number is one too large, and the remainder is written one word too far to the left;
* the dividend is negative and the remainder is 0: the result is `-0`, except if it is found to have no
  words at all.

`decimalMod_iff` says that these are all the cases. -/

namespace MySQLServer.Decimal

open Lib List

/-! ### What a modulus is -/

/-- The modulus as it is documented. -/
structure IsModulus (from1 from2 r : DecimalT) : Prop where
  wf : r.WF
  eq : ∃ k : ℤ, r.toRat = from1.toRat - k * from2.toRat
  lt : |r.toRat| < |from2.toRat|
  sign : r.toRat ≠ 0 → r.sign = from1.sign
  zero : r.toRat = 0 → r.sign = false
  frac : r.frac = max from1.frac from2.frac

/-- The remainder without its sign. -/
def modAbs (from1 from2 : DecimalT) : ℚ := from1.abs - ⌊from1.abs / from2.abs⌋₊ * from2.abs

/-- The divisor divides the dividend. -/
def DivisibleBy (from1 from2 : DecimalT) : Prop := ∃ k : ℤ, from1.toRat = k * from2.toRat

/-- The first word that is not 0 is after the first word after the point, and it has more than one digit. -/
def Misrounded (d : DecimalT) : Prop :=
  ∃ k : ℕ, 0 < k ∧ 10 ≤ d.abs * digBase ^ (k + 1) ∧ d.abs * digBase ^ (k + 1) < digBase

/-- When the result in a buffer of `len` words is the modulus. -/
def ModHolds (from1 from2 : DecimalT) (len : ℕ) : Prop :=
  (from1.toRat = 0 → from1.frac = 0 ∧ from2.frac = 0) ∧
    (from1.toRat ≠ 0 → roundUp (max from1.frac from2.frac) ≤ len ∧ (Misrounded from1 → DivisibleBy from1 from2) ∧
      (from1.sign = true → DivisibleBy from1 from2 → from1.frac = 0 ∧ from2.frac = 0 ∧ from2.abs < digBase))

variable {d : DecimalT}

section modulus
variable {from1 from2 r : DecimalT}

theorem abs_toRat (d : DecimalT) : |d.toRat| = d.abs := by
  unfold DecimalT.toRat
  split
  · rw [abs_neg, abs_of_nonneg d.abs_nonneg]
  · exact abs_of_nonneg d.abs_nonneg

theorem toRat_eq_zero : d.toRat = 0 ↔ d.abs = 0 := by
  rw [← abs_eq_zero, abs_toRat]

theorem modAbs_bounds (hp : 0 < from2.abs) : 0 ≤ modAbs from1 from2 ∧ modAbs from1 from2 < from2.abs := by
  have hle := Nat.floor_le (div_nonneg from1.abs_nonneg hp.le)
  have hlt := Nat.lt_floor_add_one (from1.abs / from2.abs)
  rw [le_div_iff₀ hp] at hle
  rw [div_lt_iff₀ hp] at hlt
  unfold modAbs
  constructor
  · linarith
  · linarith

theorem modAbs_unique (hp : 0 < from2.abs) {x : ℚ} (h0 : 0 ≤ x) (hlt : x < from2.abs) {k : ℤ}
    (h : x = from1.abs - k * from2.abs) : x = modAbs from1 from2 := by
  have hf : ⌊from1.abs / from2.abs⌋ = k := by
    rw [Int.floor_eq_iff, le_div_iff₀ hp, div_lt_iff₀ hp]
    constructor
    · linarith
    · linarith
  have hc : ((⌊from1.abs / from2.abs⌋₊ : ℕ) : ℚ) = k := by
    rw [← hf, ← Int.natCast_floor_eq_floor (div_nonneg from1.abs_nonneg hp.le), Int.cast_natCast]
  unfold modAbs
  rw [hc]
  exact h

/-- Signs do not matter for a remainder. -/
theorem exists_signed_iff (s1 s2 : Bool) (x y z : ℚ) :
    (∃ k : ℤ, signed s1 x = signed s1 y - k * signed s2 z) ↔ ∃ k : ℤ, x = y - k * z := by
  have hs : ∀ k : ℤ, ∃ j : ℤ, signed s1 (k * z) = j * signed s2 z ∧ signed s1 (j * z) = k * signed s2 z := by
    intro k
    refine ⟨if s1 = s2 then k else -k, ?_⟩
    cases s1 <;> cases s2 <;> simp [signed]
  have hsub : ∀ k : ℤ, signed s1 x = signed s1 y - signed s1 (k * z) ↔ x = y - k * z := by
    intro k
    cases s1 <;> simp only [signed, Bool.false_eq_true, if_false, if_true]
    constructor <;> intro h <;> linarith
  constructor
  · rintro ⟨k, hk⟩
    obtain ⟨j, -, hj⟩ := hs k
    exact ⟨j, (hsub j).mp (by rw [hk, hj])⟩
  · rintro ⟨k, hk⟩
    obtain ⟨j, hj, -⟩ := hs k
    exact ⟨j, by rw [(hsub k).mpr hk, hj]⟩

theorem divisibleBy_iff (hp : 0 < from2.abs) : DivisibleBy from1 from2 ↔ modAbs from1 from2 = 0 := by
  have hz : signed from1.sign 0 = 0 := by
    unfold signed
    split <;> simp
  have hs := exists_signed_iff from1.sign from2.sign 0 from1.abs from2.abs
  rw [hz] at hs
  have hd : DivisibleBy from1 from2 ↔ ∃ k : ℤ, 0 = from1.abs - k * from2.abs := by
    rw [← hs]
    exact exists_congr fun k => by rw [← sub_eq_zero, eq_comm]; rfl
  rw [hd]
  constructor
  · rintro ⟨k, hk⟩
    exact (modAbs_unique hp le_rfl hp hk).symm
  · exact fun h => ⟨⌊from1.abs / from2.abs⌋₊, h.symm⟩

/-- A result with the sign of the dividend and the digits after the point. -/
theorem isModulus_iff (hpos : 0 < from2.abs) (hs : r.sign = from1.sign)
    (hf : r.frac = max from1.frac from2.frac) : IsModulus from1 from2 r ↔
      r.WF ∧ r.abs = modAbs from1 from2 ∧ (from1.sign = true → modAbs from1 from2 ≠ 0) := by
  have hr : r.toRat = signed from1.sign r.abs := by
    unfold DecimalT.toRat signed
    rw [hs]
  have hsigns := exists_signed_iff from1.sign from2.sign r.abs from1.abs from2.abs
  rw [← hr] at hsigns
  constructor
  · intro h
    obtain ⟨k, hk⟩ := hsigns.mp h.eq
    have hlt := h.lt
    rw [abs_toRat, abs_toRat] at hlt
    have habs : r.abs = modAbs from1 from2 := modAbs_unique hpos r.abs_nonneg hlt hk
    refine ⟨h.wf, habs, fun hn hz => ?_⟩
    have hp := h.zero (toRat_eq_zero.mpr (habs.trans hz))
    rw [hs, hn] at hp
    cases hp
  · rintro ⟨hwf, habs, hn⟩
    refine ⟨hwf, hsigns.mpr ⟨⌊from1.abs / from2.abs⌋₊, habs⟩, ?_, fun _ => hs, fun hz => ?_, hf⟩
    · rw [abs_toRat, abs_toRat, habs]
      exact (modAbs_bounds hpos).2
    · rw [toRat_eq_zero, habs] at hz
      rw [hs]
      cases hsign : from1.sign with
      | false => rfl
      | true => exact absurd hz (hn hsign)

theorem DecimalT.WF.exists_units (h : d.WF) {f : ℕ} (hf : d.frac ≤ f) : ∃ m : ℕ, d.abs * 10 ^ f = m := by
  obtain ⟨m, hm⟩ := h.dvd_mag
  refine ⟨m * 10 ^ (f - d.frac), ?_⟩
  have hle := le_roundUp_mul d.frac
  have hp : (10 : ℚ) ^ (digPerDec1 * roundUp d.frac) ≠ 0 := by positivity
  have hexp : digPerDec1 * roundUp d.frac - d.frac + f = digPerDec1 * roundUp d.frac + (f - d.frac) := by
    rw [mul_comm] at hle
    omega
  have hb : ((digBase : ℕ) : ℚ) ^ roundUp d.frac = 10 ^ (digPerDec1 * roundUp d.frac) := by
    exact_mod_cast digBase_pow (roundUp d.frac)
  unfold abs
  rw [hm, hb, div_mul_eq_mul_div, div_eq_iff hp]
  push_cast
  rw [mul_comm (10 ^ _ : ℚ) (m : ℚ), mul_assoc, ← pow_add, hexp, pow_add]
  ring

theorem exists_modAbs_units (h1 : from1.WF) (h2 : from2.WF) (hp : 0 < from2.abs) :
    ∃ m : ℕ, modAbs from1 from2 * 10 ^ max from1.frac from2.frac = m := by
  obtain ⟨m1, hm1⟩ := h1.exists_units (le_max_left _ from2.frac)
  obtain ⟨m2, hm2⟩ := h2.exists_units (le_max_right from1.frac _)
  have hle : ⌊from1.abs / from2.abs⌋₊ * m2 ≤ m1 := by
    have hb := (@modAbs_bounds from1 from2 hp).1
    have hm := mul_nonneg hb (show (0 : ℚ) ≤ 10 ^ max from1.frac from2.frac by positivity)
    unfold modAbs at hm
    rw [sub_mul, mul_assoc, hm1, hm2] at hm
    exact_mod_cast sub_nonneg.mp hm
  refine ⟨m1 - ⌊from1.abs / from2.abs⌋₊ * m2, ?_⟩
  unfold modAbs
  rw [sub_mul, mul_assoc, hm1, hm2, Nat.cast_sub hle]
  push_cast
  rfl

end modulus

/-! ### The places -/

section places
variable {d : DecimalT} {k : ℕ} {ws : List ℕ}

theorem Trimmed.head_le (h : Trimmed d k ws) : (ws.headD 0 : ℚ) ≤ d.abs * (digBase : ℚ) ^ (1 - wordsBefore d) ∧
      d.abs * (digBase : ℚ) ^ (1 - wordsBefore d) < ws.headD 0 + 1 := by
  have hv := h.value
  have hw := h.words
  obtain ⟨w, rest, rfl, -⟩ := h.cons
  have hr := (words_cons.mp hw).2.value_lt
  rw [value_cons] at hv
  have hexp : -(roundUp d.frac : ℤ) + (1 - wordsBefore d) = -(rest.length : ℤ) := by
    rw [h.wordsBefore_eq, length_cons]
    push_cast
    ring
  rw [d.abs_eq_zpow, mul_assoc, ← zpow_add₀ digBase_ne_zero, hexp, zpow_neg, zpow_natCast,
    ← div_eq_mul_inv, le_div_iff₀ (digBase_pow_pos _), div_lt_iff₀ (digBase_pow_pos _), headD_cons,
    ← hv]
  constructor
  · exact_mod_cast Nat.le_add_right _ _
  · have hlt : w * digBase ^ rest.length + Lib.value digBase rest < (w + 1) * digBase ^ rest.length := by
      rw [Nat.succ_mul]
      omega
    exact_mod_cast hlt

/-- The place of the first word says how large the number is. -/
theorem Trimmed.abs_bounds (h : Trimmed d k ws) :
    (digBase : ℚ) ^ (wordsBefore d - 1) ≤ d.abs ∧ d.abs < (digBase : ℚ) ^ wordsBefore d := by
  obtain ⟨hle, hlt⟩ := h.head_le
  have hwords := h.words
  obtain ⟨w, rest, rfl, hp⟩ := h.cons
  rw [headD_cons] at hle hlt
  have hw : (w : ℚ) + 1 ≤ digBase := by exact_mod_cast (words_cons.mp hwords).1
  have hone : (1 : ℚ) ≤ w := by exact_mod_cast hp
  have hz := digBase_zpow_pos (1 - wordsBefore d)
  have hinv : (digBase : ℚ) ^ (wordsBefore d - 1) * (digBase : ℚ) ^ (1 - wordsBefore d) = 1 := by
    rw [← zpow_add₀ digBase_ne_zero, show wordsBefore d - 1 + (1 - wordsBefore d) = 0 by ring, zpow_zero]
  have hb : (digBase : ℚ) ^ wordsBefore d * (digBase : ℚ) ^ (1 - wordsBefore d) = digBase := by
    rw [← zpow_add₀ digBase_ne_zero, show wordsBefore d + (1 - wordsBefore d) = 1 by ring, zpow_one]
  constructor
  · refine le_of_mul_le_mul_right ?_ hz
    rw [hinv]
    exact hone.trans hle
  · refine lt_of_mul_lt_mul_right ?_ hz.le
    rw [hb]
    exact hlt.trans_le hw

theorem Trimmed.misrounded_iff (h : Trimmed d k ws) : Misrounded d ↔ wordsBefore d < 0 ∧ 1 < k := by
  obtain ⟨hle, hlt⟩ := h.head_le
  obtain ⟨hb1, hb2⟩ := h.abs_bounds
  have hb : (1 : ℚ) < digBase := by exact_mod_cast (by decide : 1 < digBase)
  have hwords := h.words
  have hk1 := h.le
  have hk2 := h.lt
  constructor
  · rintro ⟨j, hj, h10, hB⟩
    -- Both are places of the first word.
    have hp : wordsBefore d = -j := by
      have hup : (digBase : ℚ) ^ (wordsBefore d - 1 + (j + 1 : ℕ)) < (digBase : ℚ) ^ (1 : ℤ) := by
        rw [zpow_add₀ digBase_ne_zero, zpow_natCast, zpow_one]
        exact lt_of_le_of_lt (mul_le_mul_of_nonneg_right hb1 (digBase_pow_pos _).le) hB
      have hd : (digBase : ℚ) ^ (0 : ℤ) < (digBase : ℚ) ^ (wordsBefore d + (j + 1 : ℕ)) := by
        rw [zpow_add₀ digBase_ne_zero, zpow_natCast, zpow_zero]
        have ht : (1 : ℚ) < 10 := by norm_num
        exact ht.trans_le (h10.trans (mul_le_mul_of_nonneg_right hb2.le (digBase_pow_pos _).le))
      rw [zpow_lt_zpow_iff_right₀ hb] at hup hd
      push_cast at hup hd
      omega
    refine ⟨by omega, ?_⟩
    by_contra hone
    have hh : ws.headD 0 < 10 := lt_of_lt_of_le hk2 (Nat.pow_le_pow_right (by decide) (not_lt.mp hone))
    have hc : (ws.headD 0 : ℚ) + 1 ≤ 10 := by exact_mod_cast hh
    rw [hp, show (1 : ℤ) - -(j : ℤ) = ((j + 1 : ℕ) : ℤ) by push_cast; ring, zpow_natCast] at hlt
    linarith
  · rintro ⟨hn, hk⟩
    obtain ⟨j, hj⟩ := Int.eq_ofNat_of_zero_le (show 0 ≤ -wordsBefore d by omega)
    have hexp : (1 : ℤ) - wordsBefore d = ((j + 1 : ℕ) : ℤ) := by
      push_cast
      omega
    rw [hexp, zpow_natCast] at hle hlt
    refine ⟨j, by omega, ?_, ?_⟩
    · have hpow : 10 ^ 1 ≤ 10 ^ (k - 1) := Nat.pow_le_pow_right (by decide) (by omega)
      have hc : (10 : ℚ) ≤ ws.headD 0 := by exact_mod_cast (by omega : 10 ≤ ws.headD 0)
      linarith
    · obtain ⟨w, rest, rfl, -⟩ := h.cons
      have hw : (w : ℚ) + 1 ≤ digBase := by exact_mod_cast (words_cons.mp hwords).1
      rw [headD_cons] at hlt
      exact hlt.trans_le hw

/-- `ROUND_UP` of the digits before the point is rounded toward zero. -/
theorem Trimmed.roundUpInt_eq (h : Trimmed d k ws) :
    roundUpInt (((leadingDigits d).1 : ℤ) - ((roundUp d.frac * digPerDec1 : ℕ) : ℤ)) =
      wordsBefore d + if wordsBefore d < 0 ∧ 1 < k then 1 else 0 := by
  have hp := h.prec
  have hk1 := h.digits_pos
  have hk2 := h.digits_le
  have hwb := h.wordsBefore_eq
  unfold roundUpInt
  have hexp : ((leadingDigits d).1 : ℤ) - ((roundUp d.frac * digPerDec1 : ℕ) : ℤ) + digPerDec1 - 1 =
      digPerDec1 * wordsBefore d + (k - 1) := by
    rw [hwb]
    push_cast
    unfold digPerDec1 at *
    omega
  rw [hexp]
  unfold digPerDec1 at *
  by_cases hw : wordsBefore d < 0
  · rw [← neg_neg (((9 : ℕ) : ℤ) * wordsBefore d + (k - 1)), Int.neg_tdiv, Int.tdiv_eq_ediv_of_nonneg (by omega)]
    split <;> omega
  · rw [if_neg fun h => hw h.1, Int.tdiv_eq_ediv_of_nonneg (by omega)]
    omega

end places

/-! ### The remainder in the dividend -/

/-- The words that are left, with the carry put back. -/
def remWords (s : DivState) : List ℕ := if s.dcarry ≠ 0 then s.dcarry :: s.start1 else s.start1

theorem value_remWords (s : DivState) : value digBase (remWords s) = divTotal s := by
  unfold remWords divTotal
  by_cases h : s.dcarry ≠ 0
  · rw [if_pos h, value_cons]
  · rw [if_neg h, not_not.mp h, zero_mul, zero_add]

theorem length_remWords (s : DivState) : (remWords s).length = s.start1.length + if s.dcarry = 0 then 0 else 1 := by
  unfold remWords
  by_cases h : s.dcarry = 0
  · rw [if_neg (not_not.mpr h), if_pos h, add_zero]
  · rw [if_pos h, if_neg h, length_cons]

theorem remWords_divInit {us vs : List ℕ} (h : 0 < us.headD 0) : remWords (divInit us vs) = us := by
  unfold remWords divInit
  by_cases hlt : us.headD 0 < vs.headD 0
  · rw [if_pos hlt, if_pos h.ne']
    cases us with
    | nil => exact absurd h (lt_irrefl 0)
    | cons u us => rfl
  · rw [if_neg hlt]
    rfl

theorem words_remWords {vs : List ℕ} {s : DivState} (hv : Divisor vs) (h : DivRem vs s) :
    Words digBase (remWords s) := by
  have hl := hv.pow_le.1
  have hlt := h.lt
  have hvlt := hv.words.value_lt
  obtain ⟨n, hn⟩ : ∃ n, vs.length = n + 1 := ⟨vs.length - 1, by omega⟩
  rw [hn, pow_succ'] at hvlt
  rw [hn, Nat.add_sub_cancel] at hlt
  have hc : s.dcarry < digBase := by
    have hm : s.dcarry * digBase ^ n < digBase * digBase ^ n := by omega
    exact Nat.lt_of_mul_lt_mul_right hm
  unfold remWords
  split
  · exact words_cons.mpr ⟨hc, h.words⟩
  · exact h.words

/-- What is known when the loop of a modulus ends: `intg` words of what is left are before the point, and
`rest` zeros are after the digits of the remainder, which is `m` in units of the last word. -/
structure RemSpec (from1 from2 : DecimalT) (u : DivSetup) (s : DivState) (intg : ℤ) (rest m : ℕ) :
    Prop where
  words : Words digBase (remWords s)
  length : ((remWords s).length : ℤ) = intg + roundUp (max from1.frac from2.frac) + rest
  place : intg = wordsBefore from1 - (u.tmp1.length - (remWords s).length)
  rest_pos : 0 < rest
  length_le : (remWords s).length ≤ u.tmp1.length
  value : value digBase (remWords s) = m * digBase ^ rest
  abs : modAbs from1 from2 * digBase ^ roundUp (max from1.frac from2.frac) = m
  dvd : 10 ^ (digPerDec1 * roundUp (max from1.frac from2.frac) - max from1.frac from2.frac) ∣ m
  cases : quotWords from1 from2 ≤ 0 ∧ intg = wordsBefore from1 ∧ modAbs from1 from2 = from1.abs ∨
    0 < quotWords from1 from2 ∧ intg = wordsBefore from2 - 1 + if s.dcarry = 0 then 0 else 1

/-- The state of the division after the loop. -/
def modState (from1 from2 : DecimalT) : DivState :=
  (divLoop (divSetup from1 from2 0).start2 (divSetup from1 from2 0).intg0 (divSetup from1 from2 0).init).2

section remainder
variable {from1 from2 : DecimalT}

theorem divSetup_tmp1 (h1 : from1.WF) (hn1 : from1.mag ≠ 0) (from2 : DecimalT) :
    0 < (divSetup from1 from2 0).tmp1.headD 0 ∧
      wordsBefore from1 + roundUp (max from1.frac from2.frac) < (divSetup from1 from2 0).tmp1.length := by
  obtain ⟨k, us, hus⟩ := exists_trimmed h1 hn1
  obtain ⟨m, hm, ht⟩ := dividendWords_spec hus (roundUp from2.frac * digPerDec1)
    (0 - (roundUp from1.frac * digPerDec1 - from1.frac + (roundUp from2.frac * digPerDec1 - from2.frac)))
  have hwb := hus.wordsBefore_eq
  obtain ⟨w, rest, rfl, hp⟩ := hus.cons
  have ht1 : (divSetup from1 from2 0).tmp1 = (w :: rest) ++ replicate m 0 := ht
  rw [Nat.zero_sub, ← mul_assoc, add_assoc, roundUp_mul_add] at hm
  refine ⟨by rw [ht1]; exact hp, ?_⟩
  rw [ht1, hwb, roundUp_max, length_append, length_replicate]
  push_cast
  omega

theorem exists_remSpec (h1 : from1.WF) (h2 : from2.WF) (hn1 : from1.mag ≠ 0) (hn2 : from2.mag ≠ 0) :
    ∃ intg rest m, RemSpec from1 from2 (divSetup from1 from2 0) (modState from1 from2) intg rest m := by
  unfold modState
  have hspec := divSetup_spec h1 h2 hn1 hn2 0
  have hp := hspec.abs2_pos
  obtain ⟨hh, htmp⟩ := divSetup_tmp1 h1 hn1 from2
  have hinit : remWords (divSetup from1 from2 0).init = (divSetup from1 from2 0).tmp1 :=
    remWords_divInit hh
  obtain ⟨m0, hm0⟩ := exists_modAbs_units h1 h2 hp
  set f := max from1.frac from2.frac
  -- The remainder in units of the last word.
  have habs : modAbs from1 from2 * (digBase : ℚ) ^ roundUp f =
      ((m0 * 10 ^ (digPerDec1 * roundUp f - f) : ℕ) : ℚ) := by
    have hb : ((digBase : ℕ) : ℚ) ^ roundUp f = 10 ^ f * 10 ^ (digPerDec1 * roundUp f - f) := by
      exact_mod_cast digBase_pow_roundUp f
    rw [hb, ← mul_assoc, hm0]
    push_cast
    rfl
  have hrest := hspec.rest
  obtain ⟨rest, hr⟩ := Int.eq_ofNat_of_zero_le
    (show 0 ≤ ((divSetup from1 from2 0).tmp1.length : ℤ) - wordsBefore from1 - roundUp f by omega)
  generalize hs : (divLoop (divSetup from1 from2 0).start2 (divSetup from1 from2 0).intg0
    (divSetup from1 from2 0).init).2 = s at *
  have hm : modAbs from1 from2 =
      divTotal s * (digBase : ℚ) ^ (wordsBefore from1 - (divSetup from1 from2 0).tmp1.length) := by
    unfold modAbs
    linarith
  have ht : divTotal s = m0 * 10 ^ (digPerDec1 * roundUp f - f) * digBase ^ rest := by
    have hexp : wordsBefore from1 - (divSetup from1 from2 0).tmp1.length = -((roundUp f + rest : ℕ) : ℤ) := by
      push_cast
      omega
    have hc : (divTotal s : ℚ) = modAbs from1 from2 * (digBase : ℚ) ^ (roundUp f + rest) := by
      rw [hm, hexp, zpow_neg, zpow_natCast, inv_mul_cancel_right₀ (digBase_pow_pos _).ne']
    rw [pow_add, ← mul_assoc, habs] at hc
    exact_mod_cast hc
  dsimp only [f] at hr htmp
  have hplace := hspec.place
  have hintg := hspec.intg0
  have hroom := hspec.room
  have hl := length_remWords s
  by_cases hq : quotWords from1 from2 ≤ 0
  · have hz : (divSetup from1 from2 0).intg0 = 0 := by omega
    rw [hz, divLoop] at hs
    simp only at hs
    rw [hs] at hinit
    have hw := words_remWords hspec.divisor hspec.rem
    rw [hs] at hw
    refine ⟨wordsBefore from1, rest, _, hw, ?_, ?_, by omega, ?_, ?_, habs, Dvd.intro_left _ rfl,
      .inl ⟨hq, rfl, ?_⟩⟩
    · rw [hinit]
      omega
    · rw [hinit]
      omega
    · rw [hinit]
    · rw [value_remWords, ht]
    · rw [hm, hspec.abs1, hs]
  · obtain ⟨-, -, hrem, hsum, -, -⟩ := divLoop_spec hspec.divisor hspec.rem
      (k := (divSetup from1 from2 0).intg0) (by omega)
    rw [hs] at hrem hsum
    refine ⟨wordsBefore from2 - 1 + if s.dcarry = 0 then 0 else 1, rest, _,
      words_remWords hspec.divisor hrem, ?_, ?_, by omega, ?_, ?_, habs, Dvd.intro_left _ rfl,
      .inr ⟨by omega, rfl⟩⟩
    · rw [hl]
      push_cast
      omega
    · rw [hl]
      push_cast
      omega
    · have hf := length_remWords (divSetup from1 from2 0).init
      rw [hinit] at hf
      rw [hl]
      split <;> omega
    · rw [value_remWords, ht]

theorem wordsBefore_le (h : from2.WF) : wordsBefore from2 ≤ roundUp from2.intg := by
  obtain ⟨n, -, hs⟩ := (leadingDigits_spec h).split
  rw [roundUp_prec] at hs
  unfold wordsBefore
  omega

variable {u : DivSetup} {s : DivState} {intg : ℤ} {rest m f : ℕ}

theorem RemSpec.value_take {j n : ℕ} (h : RemSpec from1 from2 u s intg rest m)
    (hf : f = max from1.frac from2.frac) (hj : j ≤ rest) (hn : (n : ℤ) = intg + roundUp f + j) :
    Lib.value digBase ((remWords s).take n) = m * digBase ^ j ∧ ((remWords s).take n).length = n := by
  subst hf
  have hl := h.length
  rw [h.words.value_take, h.value, length_take]
  have hexp : (remWords s).length - n = rest - j := by omega
  refine ⟨?_, by omega⟩
  rw [hexp]
  nth_rewrite 1 [show rest = j + (rest - j) by omega]
  rw [pow_add, ← mul_assoc, Nat.mul_div_cancel _ (pow_pos digBase_pos _)]

theorem RemSpec.eq_zero (h : RemSpec from1 from2 u s intg rest m) (hf : f = max from1.frac from2.frac)
    (hn : intg + roundUp f ≤ 0) : m = 0 := by
  subst hf
  have hl := h.length
  have hlt := h.words.value_lt
  rw [h.value] at hlt
  have hle : digBase ^ (remWords s).length ≤ digBase ^ rest := Nat.pow_le_pow_right digBase_pos (by omega)
  by_contra hne
  have hm := Nat.mul_le_mul_right (digBase ^ rest) (Nat.pos_of_ne_zero hne)
  omega

end remainder

/-! ### The result -/

section result
variable {from1 from2 dest : DecimalT} {u : DivSetup} {s : DivState}

/-- A result without an error. -/
theorem modResult_cases (hl : (remWords s).length ≤ u.tmp1.length)
    (hok : (modResult from1 from2 dest u s).1 = .ok) {intg0 : ℤ} {frac0 : ℕ}
    (hintg : intg0 = roundUpInt u.intg1 - (u.tmp1.length - (remWords s).length))
    (hf : frac0 = roundUp (max from1.frac from2.frac)) :
    (frac0 = 0 ∧ intg0 = 0 ∧ (modResult from1 from2 dest u s).2 = decimalMakeZero dest) ∨
    (intg0 ≤ 0 ∧ ¬ (frac0 = 0 ∧ intg0 = 0) ∧ 1 + (frac0 + intg0) ≤ dest.len ∧
      ∃ tail, (modResult from1 from2 dest u s).2 = ⟨0, max from1.frac from2.frac, from1.sign,
        (replicate (-intg0).toNat 0 ++ (remWords s).take (frac0 + intg0).toNat ++ tail).take
          dest.len⟩ ∧ dest.len ≤ ((-intg0).toNat + (frac0 + intg0).toNat) + tail.length) ∨
    (0 < intg0 ∧ intg0 + frac0 ≤ dest.len ∧
      ∃ tail, (modResult from1 from2 dest u s).2 = ⟨min (intg0.toNat * digPerDec1) from2.intg,
        max from1.frac from2.frac, from1.sign, ((remWords s).take (frac0 + intg0).toNat ++ tail).take
          dest.len⟩ ∧ dest.len ≤ (frac0 + intg0).toNat + tail.length) := by
  have hoffset : (((if s.dcarry ≠ 0 then u.tmp1.length - s.start1.length - 1
      else u.tmp1.length - s.start1.length : ℕ)) : ℤ) = u.tmp1.length - (remWords s).length := by
    rw [length_remWords] at hl ⊢
    by_cases h : s.dcarry = 0
    · rw [if_neg (not_not.mpr h)]
      rw [if_pos h] at hl ⊢
      omega
    · rw [if_pos h]
      rw [if_neg h] at hl ⊢
      omega
  have hd : (⟨dest.intg, max from1.frac from2.frac, from1.sign, dest.buf⟩ : DecimalT).len = dest.len :=
    rfl
  unfold modResult at hok ⊢
  simp only [hoffset, ← hintg, ← hf, hd] at hok ⊢
  rw [show (if s.dcarry ≠ 0 then s.dcarry :: s.start1 else s.start1) = remWords s from rfl] at hok ⊢
  by_cases hz : frac0 = 0 ∧ intg0 = 0
  · left
    rw [if_pos hz]
    exact ⟨hz.1, hz.2, rfl⟩
  rw [if_neg hz] at hok ⊢
  by_cases hn : intg0 ≤ 0 ∧ -intg0 ≥ dest.len
  · rw [if_pos hn] at hok
    cases hok
  rw [if_neg hn] at hok ⊢
  by_cases hover : intg0 > dest.len
  · rw [if_pos hover] at hok
    cases hok
  rw [if_neg hover] at hok ⊢
  right
  by_cases hle : intg0 ≤ 0
  · left
    simp only [if_pos hle] at hok ⊢
    by_cases hc : 1 + (frac0 + intg0) > dest.len
    · rw [if_pos hc] at hok
      cases hok
    simp only [if_neg hc]
    refine ⟨hle, hz, by omega, _, rfl, ?_⟩
    rw [length_drop, length_append, length_replicate, length_take]
    unfold DecimalT.len
    omega
  · right
    simp only [if_neg hle] at hok ⊢
    by_cases hc : intg0 + frac0 > dest.len
    · rw [if_pos hc] at hok
      cases hok
    have hnil : replicate (-intg0).toNat 0 = ([] : List ℕ) := by
      rw [Int.toNat_of_nonpos (by omega), replicate_zero]
    simp only [if_neg hc, hnil, nil_append]
    refine ⟨by omega, by omega, _, rfl, ?_⟩
    rw [length_drop, length_take]
    unfold DecimalT.len
    omega

section written
variable {intg : ℤ} {rest m f j len : ℕ} {r : DecimalT}

/-- The result if its words are those of the remainder, `j` words too far to the left. -/
theorem RemSpec.result {i : ℕ} {ws tail : List ℕ} (h : RemSpec from1 from2 u s intg rest m)
    (hf : f = max from1.frac from2.frac) (hr : r = ⟨i, f, from1.sign, ws ++ tail⟩)
    (hrn : ws.length = roundUp i + roundUp f) (hp : 0 < (ws ++ tail).length) (hw : Words digBase ws)
    (hl : Lib.value digBase ws < 10 ^ i * digBase ^ roundUp f) (hv : Lib.value digBase ws = m * digBase ^ j) :
    r.WF ∧ r.abs = modAbs from1 from2 * (digBase : ℚ) ^ j := by
  subst hr hf
  refine ⟨DecimalT.WF.of_words hrn hp hw hl (hv ▸ Dvd.dvd.mul_right h.dvd _), ?_⟩
  unfold DecimalT.abs DecimalT.mag
  rw [DecimalT.words_append hrn, hv, div_eq_iff (digBase_pow_pos _).ne', mul_right_comm, h.abs]
  push_cast
  rfl

/-- A remainder with no words before the point. -/
theorem RemSpec.wf_of_nonpos {tail : List ℕ} (h : RemSpec from1 from2 u s intg rest m) (hj : j ≤ 1)
    (hneg : intg + j ≤ 0) (hp : 0 < len) (hf : f = max from1.frac from2.frac) (hlen : roundUp f ≤ len)
    (hr : r = ⟨0, f, from1.sign, (replicate (-(intg + j)).toNat 0 ++
      (remWords s).take (roundUp f + (intg + j)).toNat ++ tail).take len⟩)
    (ht : len ≤ (-(intg + j)).toNat + (roundUp f + (intg + j)).toNat + tail.length) :
    r.WF ∧ r.abs = modAbs from1 from2 * (digBase : ℚ) ^ j := by
  have hrest := h.rest_pos
  -- The words of the result.
  obtain ⟨ws, tail', hb, hws, hwords, hvalue⟩ : ∃ ws tail', r.buf = ws ++ tail' ∧
      ws.length = roundUp f ∧ Words digBase ws ∧ Lib.value digBase ws = m * digBase ^ j := by
    rw [hr]
    by_cases hn : roundUp f + (intg + j) < 0
    · obtain ⟨e, he⟩ : ∃ e, (-(intg + j)).toNat = roundUp f + e := Nat.exists_eq_add_of_le (by omega)
      rw [Int.toNat_of_nonpos hn.le, take_zero, append_nil, he,
        ← replicate_append_replicate, append_assoc, take_append, length_replicate,
        take_of_length_le (by rw [length_replicate]; exact hlen)]
      refine ⟨replicate (roundUp f) 0, _, rfl, length_replicate, words_replicate_zero digBase_pos _, ?_⟩
      rw [value_replicate_zero, h.eq_zero hf (by omega), zero_mul]
    · obtain ⟨hv, hl⟩ := h.value_take (n := (roundUp f + (intg + j)).toNat) (j := j) hf (by omega) (by omega)
      have hw := h.words.take (roundUp f + (intg + j)).toNat
      generalize (remWords s).take (roundUp f + (intg + j)).toNat = ws at *
      have hfits : (replicate (-(intg + j)).toNat 0 ++ ws).length = roundUp f := by
        rw [length_append, length_replicate, hl]
        omega
      rw [take_append, take_of_length_le (hfits.trans_le hlen)]
      refine ⟨_, _, rfl, hfits, words_append.mpr ⟨words_replicate_zero digBase_pos _, hw⟩, ?_⟩
      rw [value_append, value_replicate_zero, zero_mul, zero_add, hv]
  have hlt := hwords.value_lt
  refine h.result hf (by rw [← hb, hr]) (hws.trans (Nat.zero_add _).symm) ?_ hwords ?_ hvalue
  · rw [← hb, hr, length_take, length_append, length_append, length_replicate, length_take]
    have hl := h.length
    rw [← hf] at hl
    omega
  · rw [pow_zero, one_mul, ← hws]
    exact hlt

/-- A remainder with words before the point. -/
theorem RemSpec.wf_of_pos {tail : List ℕ} (h : RemSpec from1 from2 u s intg rest m) (h2 : from2.WF)
    (hn2 : 0 < from2.abs) (hp : 0 < intg) (hle : intg ≤ roundUp from2.intg)
    (hf : f = max from1.frac from2.frac) (hlen : intg + roundUp f ≤ len)
    (hr : r = ⟨min (intg.toNat * digPerDec1) from2.intg, f, from1.sign,
      ((remWords s).take (roundUp f + intg).toNat ++ tail).take len⟩) : r.WF ∧ r.abs = modAbs from1 from2 := by
  obtain ⟨hv, hl⟩ := h.value_take (n := (roundUp f + intg).toNat) (j := 0) hf (Nat.zero_le _) (by omega)
  have hw := h.words.take (roundUp f + intg).toNat
  rw [take_append, take_of_length_le (by rw [hl]; omega), hl] at hr
  generalize (remWords s).take (roundUp f + intg).toNat = ws at *
  generalize hi : min (intg.toNat * digPerDec1) from2.intg = i at hr
  have hround : ws.length = roundUp i + roundUp f := by
    have hmin : roundUp i = intg.toNat := by
      rw [← hi]
      rcases le_total (intg.toNat * digPerDec1) from2.intg with hc | hc
      · rw [min_eq_left hc, roundUp_mul]
      · rw [min_eq_right hc]
        have := roundUp_le.mpr hc
        omega
    rw [hl, hmin]
    omega
  have hlead : Lib.value digBase ws < 10 ^ i * digBase ^ roundUp f := by
    rw [← hi]
    rcases le_total (intg.toNat * digPerDec1) from2.intg with hc | hc
    · have hlt := hw.value_lt
      rw [min_eq_left hc, mul_comm intg.toNat, ← digBase_pow, ← pow_add]
      rw [hl, show (roundUp f + intg).toNat = intg.toNat + roundUp f by omega] at hlt
      exact hlt
    · -- The remainder is less than the divisor.
      rw [min_eq_right hc, hv, pow_zero, mul_one]
      have hmod := (@modAbs_bounds from1 from2 hn2).2
      have ht : from2.abs < 10 ^ from2.intg := by
        unfold DecimalT.abs
        rw [div_lt_iff₀ (digBase_pow_pos _)]
        exact_mod_cast h2.mag_lt
      have hm := mul_lt_mul_of_pos_right (hmod.trans ht) (digBase_pow_pos (roundUp f))
      rw [hf, h.abs, ← hf] at hm
      exact_mod_cast hm
  have hresult := h.result hf hr hround (by rw [length_append, hl]; omega) hw hlead hv
  rwa [pow_zero, mul_one] at hresult

end written

theorem decimalMod_eq (h1 : from1.WF) (h2 : from2.WF) (hn1 : from1.mag ≠ 0) (hn2 : from2.mag ≠ 0) :
    decimalMod from1 from2 dest = modResult from1 from2 dest (divSetup from1 from2 0) (modState from1 from2) := by
  unfold decimalMod doDivMod
  rw [if_neg fun h => hn2 ((leadingDigits_eq_zero h2).mp h), if_neg fun h => hn1 ((leadingDigits_eq_zero h1).mp h)]
  rfl

variable {intg : ℤ} {rest m : ℕ}

/-- The place of the remainder if the numbers are integers and the divisor is one word. -/
theorem RemSpec.intg_eq_zero (h : RemSpec from1 from2 u s intg rest m) (h2 : from2.WF)
    (hn1 : from1.toRat ≠ 0) (hn2 : from2.mag ≠ 0) (hf2 : from2.frac = 0)
    (hlt : from2.abs < digBase) (hz : modAbs from1 from2 = 0) : intg = 0 := by
  have habs := h.abs
  have hv := h.value
  rw [hz, zero_mul] at habs
  have hm : m = 0 := by exact_mod_cast habs.symm
  obtain ⟨k, ws, hws⟩ := exists_trimmed h2 hn2
  have hwb := hws.wordsBefore_eq
  rw [hf2, show roundUp 0 = 0 from rfl] at hwb
  have hone : wordsBefore from2 - 1 < 1 := by
    have hb := lt_of_le_of_lt hws.abs_bounds.1 hlt
    have hbase : (1 : ℚ) < digBase := by exact_mod_cast (by decide : 1 < digBase)
    rw [← zpow_one (digBase : ℚ), ← zpow_mul, one_mul, zpow_lt_zpow_iff_right₀ hbase] at hb
    exact hb
  obtain ⟨w, ws', rfl, -⟩ := hws.cons
  rw [length_cons] at hwb
  rw [hm, zero_mul, value_remWords] at hv
  have hc : s.dcarry = 0 := by
    unfold divTotal at hv
    have hpos := pow_pos digBase_pos s.start1.length
    by_contra hne
    have hmul := Nat.mul_le_mul_right (digBase ^ s.start1.length) (Nat.pos_of_ne_zero hne)
    omega
  obtain ⟨-, -, hs⟩ | ⟨-, hp⟩ := h.cases
  · exact absurd (toRat_eq_zero.mpr (hs.symm.trans hz)) hn1
  · rw [hp, if_pos hc]
    omega

theorem isModulus_decimalMakeZero (hp : 0 < from2.abs) : IsModulus from1 from2 (decimalMakeZero dest) ↔
    DivisibleBy from1 from2 ∧ from1.frac = 0 ∧ from2.frac = 0 := by
  have hz := DecimalT.decimalMakeZero_toRat dest
  constructor
  · intro h
    obtain ⟨k, hk⟩ := h.eq
    have hf : 0 = max from1.frac from2.frac := h.frac
    rw [hz] at hk
    exact ⟨⟨k, by linarith⟩, by omega, by omega⟩
  · rintro ⟨⟨k, hk⟩, hf1, hf2⟩
    refine ⟨DecimalT.decimalMakeZero_wf dest, ⟨k, by rw [hz, hk, sub_self]⟩, ?_, fun h => absurd hz h,
      fun _ => rfl, by rw [hf1, hf2]; rfl⟩
    rw [hz, abs_zero, abs_toRat]
    exact hp

theorem wordsBefore_pos (h : d.WF) (hne : d.mag ≠ 0) (hf : d.frac = 0) : 0 < wordsBefore d := by
  obtain ⟨k, ws, hws⟩ := exists_trimmed h hne
  have hwb := hws.wordsBefore_eq
  obtain ⟨w, ws', rfl, -⟩ := hws.cons
  rw [hf, length_cons, show roundUp 0 = 0 from rfl] at hwb
  omega

theorem RemSpec.intg_neg (h : RemSpec from1 from2 u s intg rest m) (hn : wordsBefore from1 < 0) : intg < 0 := by
  obtain ⟨-, hp, -⟩ | ⟨hq, hp⟩ := h.cases
  · omega
  · unfold quotWords at hq
    rw [hp]
    split at hq <;> split <;> omega

theorem RemSpec.abs_lt_digBase (h : RemSpec from1 from2 u s intg rest m) (h2 : from2.WF)
    (hn2 : from2.mag ≠ 0) (hf2 : from2.frac = 0) (hw1 : 0 < wordsBefore from1) (hi : intg = 0) :
    from2.abs < digBase := by
  have hw2 := wordsBefore_pos h2 hn2 hf2
  obtain ⟨k, ws, hws⟩ := exists_trimmed h2 hn2
  have hone : wordsBefore from2 = 1 := by
    obtain ⟨-, hp, -⟩ | ⟨-, hp⟩ := h.cases
    · omega
    · split at hp <;> omega
  have hlt := hws.abs_bounds.2
  rw [hone, zpow_one] at hlt
  exact hlt

theorem RemSpec.intg_le (h : RemSpec from1 from2 u s intg rest m) : intg ≤ wordsBefore from2 := by
  obtain ⟨hq, hp, -⟩ | ⟨-, hp⟩ := h.cases
  · unfold quotWords at hq
    split at hq <;> omega
  · rw [hp]
    split <;> omega

/-- **The modulus.**  A result without an error is the modulus as it is documented if and only if
`ModHolds`. -/
theorem decimalMod_iff (h1 : from1.WF) (h2 : from2.WF) (hne : from2.toRat ≠ 0) (hd : 0 < dest.len)
    (hok : (decimalMod from1 from2 dest).1 = .ok) :
    IsModulus from1 from2 (decimalMod from1 from2 dest).2 ↔ ModHolds from1 from2 dest.len := by
  have hmag2 : from2.mag ≠ 0 := fun h => hne (DecimalT.mag_eq_zero.mp h)
  have hpos : 0 < from2.abs := lt_of_le_of_ne from2.abs_nonneg fun h => hne (toRat_eq_zero.mpr h.symm)
  by_cases hzero : from1.toRat = 0
  · have hresult : (decimalMod from1 from2 dest).2 = decimalMakeZero dest := by
      unfold decimalMod doDivMod
      rw [if_neg fun h => hmag2 ((leadingDigits_eq_zero h2).mp h),
        if_pos ((leadingDigits_eq_zero h1).mpr (DecimalT.mag_eq_zero.mpr hzero))]
    rw [hresult, isModulus_decimalMakeZero hpos]
    constructor
    · exact fun h => ⟨fun _ => h.2, fun h' => absurd hzero h'⟩
    · exact fun h => ⟨⟨0, by rw [hzero]; simp⟩, h.1 hzero⟩
  · have hmag1 : from1.mag ≠ 0 := fun h => hzero (DecimalT.mag_eq_zero.mp h)
    obtain ⟨intg, rest, m, hrem⟩ := exists_remSpec h1 h2 hmag1 hmag2
    obtain ⟨k, us, hus⟩ := exists_trimmed h1 hmag1
    have hround : roundUpInt (divSetup from1 from2 0).intg1 =
      wordsBefore from1 + if wordsBefore from1 < 0 ∧ 1 < k then 1 else 0 := hus.roundUpInt_eq
    have hmis := hus.misrounded_iff
    have hdvd := @divisibleBy_iff from1 from2 hpos
    rw [decimalMod_eq h1 h2 hmag1 hmag2] at hok ⊢
    have hholds : ModHolds from1 from2 dest.len ↔ roundUp (max from1.frac from2.frac) ≤ dest.len ∧
        (Misrounded from1 → DivisibleBy from1 from2) ∧ (from1.sign = true → DivisibleBy from1 from2 →
          from1.frac = 0 ∧ from2.frac = 0 ∧ from2.abs < digBase) :=
      ⟨fun h => h.2 hzero, fun h => ⟨fun h' => absurd h' hzero, fun _ => h⟩⟩
    rw [hholds]
    -- The words that the remainder is too far to the left.
    obtain ⟨j, hj, hj1, hj0⟩ : ∃ j : ℕ, j ≤ 1 ∧ (j = 1 ↔ Misrounded from1) ∧
        intg + j = roundUpInt (divSetup from1 from2 0).intg1 - ((divSetup from1 from2 0).tmp1.length -
          (remWords (modState from1 from2)).length) := by
      refine ⟨if wordsBefore from1 < 0 ∧ 1 < k then 1 else 0, ?_, ?_, ?_⟩
      · split <;> omega
      · rw [hmis]
        split
        · exact ⟨fun _ => ‹_›, fun _ => rfl⟩
        · exact ⟨fun h => absurd h (by decide), fun h => absurd h ‹_›⟩
      · rw [hround, hrem.place]
        push_cast
        ring
    have hmisneg : j = 1 → intg < 0 := fun h => hrem.intg_neg (hmis.mp (hj1.mp h)).1
    obtain ⟨hf0, hi0, hr⟩ | ⟨hneg, hnz, hroom, tail, hr, htail⟩ | ⟨hipos, hroom, tail, hr, -⟩ :=
      modResult_cases hrem.length_le hok hj0 rfl
    · have hf : from1.frac = 0 ∧ from2.frac = 0 := by
        rw [roundUp_eq] at hf0
        omega
      have hw1 := wordsBefore_pos h1 hmag1 hf.1
      have hi : intg = 0 := by
        have hj' : j ≠ 1 := fun h => absurd (hmis.mp (hj1.mp h)).1 (by omega)
        omega
      have hmod : modAbs from1 from2 = 0 := by
        have habs := hrem.abs
        rw [hrem.eq_zero rfl (by omega), Nat.cast_zero] at habs
        exact (mul_eq_zero.mp habs).resolve_right (digBase_pow_pos _).ne'
      rw [hr, isModulus_decimalMakeZero hpos, hdvd]
      refine ⟨fun _ => ⟨by omega, fun _ => hmod, fun _ _ => ⟨hf.1, hf.2, ?_⟩⟩, fun _ => ⟨hmod, hf⟩⟩
      exact hrem.abs_lt_digBase h2 hmag2 hf.2 hw1 hi
    · by_cases hlen : roundUp (max from1.frac from2.frac) ≤ dest.len
      · obtain ⟨hwf, habs⟩ := hrem.wf_of_nonpos hj hneg hd rfl hlen hr htail
        rw [isModulus_iff hpos (by rw [hr]) (by rw [hr]), hdvd]
        refine ⟨fun ⟨_, heq, hs⟩ => ⟨hlen, fun hm => ?_, fun hn hz => absurd hz (hs hn)⟩,
          fun ⟨_, hm, hs⟩ => ⟨hwf, ?_, fun hn hz => ?_⟩⟩
        · rw [hj1.mpr hm, pow_one, heq] at habs
          have hbase : (digBase : ℚ) ≠ 1 := by exact_mod_cast (by decide : digBase ≠ 1)
          by_contra hne'
          exact hbase (mul_left_cancel₀ hne' (by rw [mul_one]; exact habs.symm))
        · rcases Nat.le_one_iff_eq_zero_or_eq_one.mp hj with hj' | hj'
          · rw [habs, hj', pow_zero, mul_one]
          · rw [habs, hm (hj1.mp hj'), zero_mul]
        · obtain ⟨hf1, hf2, hlt⟩ := hs hn hz
          have hi := hrem.intg_eq_zero h2 hzero hmag2 hf2 hlt hz
          refine hnz ⟨by rw [hf1, hf2]; rfl, by omega⟩
      · refine ⟨fun h => ?_, fun h => absurd h.1 hlen⟩
        have hfits := h.wf.fits
        rw [hr] at hfits
        unfold DecimalT.len at hfits hlen
        simp only [length_take] at hfits
        omega
    · have hj' : j = 0 := by omega
      rw [hj', Nat.cast_zero, add_zero] at hipos hroom hr
      have hle := hrem.intg_le.trans (wordsBefore_le h2)
      obtain ⟨hwf, habs⟩ := hrem.wf_of_pos h2 hpos hipos hle rfl hroom hr
      rw [isModulus_iff hpos (by rw [hr]) (by rw [hr]), hdvd]
      refine ⟨fun ⟨_, _, hs⟩ => ⟨by omega, fun hm => ?_, fun hn hz => absurd hz (hs hn)⟩,
        fun ⟨_, _, hs⟩ => ⟨hwf, habs, fun hn hz => ?_⟩⟩
      · have := hj1.mpr hm
        omega
      · obtain ⟨hf1, hf2, hlt⟩ := hs hn hz
        have hi := hrem.intg_eq_zero h2 hzero hmag2 hf2 hlt hz
        omega

end result

theorem decimalMod_iff_oneAndHalf : oneAndHalf.WF ∧
    (IsModulus oneAndHalf oneAndHalf (decimalMod oneAndHalf oneAndHalf ⟨0, 0, false, [0, 0]⟩).2 ↔
      ModHolds oneAndHalf oneAndHalf 2) :=
  ⟨oneAndHalf_wf, decimalMod_iff oneAndHalf_wf oneAndHalf_wf
    (fun h => absurd (DecimalT.mag_eq_zero.mpr h) (by decide)) (by decide) (by decide)⟩

/-- `-4.0 mod 2.0` is `-0.0`, and `0.000000000000123 mod 1` is `0.000123`. -/
theorem decimalMod_fails : decimalMod ⟨1, 1, true, [4, 0]⟩ ⟨1, 1, false, [2, 0]⟩ ⟨0, 0, false, [7, 7]⟩ =
        (.ok, ⟨0, 1, true, [0, 7]⟩) ∧ ¬ IsModulus ⟨1, 1, true, [4, 0]⟩ ⟨1, 1, false, [2, 0]⟩ ⟨0, 1, true, [0, 7]⟩ ∧
      decimalMod ⟨0, 15, false, [0, 123000]⟩ ⟨1, 0, false, [1]⟩ ⟨0, 0, false, [7, 7, 7]⟩ =
        (.ok, ⟨0, 15, false, [123000, 0, 7]⟩) ∧
      ¬ IsModulus ⟨0, 15, false, [0, 123000]⟩ ⟨1, 0, false, [1]⟩ ⟨0, 15, false, [123000, 0, 7]⟩ := by
  refine ⟨by decide, fun h => ?_, by decide, fun h => ?_⟩
  · have hz : (⟨0, 1, true, [0, 7]⟩ : DecimalT).toRat = 0 := DecimalT.mag_eq_zero.mp (by decide)
    have hs : true = false := h.zero hz
    cases hs
  · obtain ⟨k, hk⟩ := h.eq
    norm_num [DecimalT.toRat, DecimalT.abs, DecimalT.mag, DecimalT.words, roundUp, digPerDec1, digBase,
      value_cons] at hk
    have hint : (1000000000000000000 : ℚ) * k = -122999999877000 := by linarith
    have hc : (1000000000000000000 : ℤ) * k = -122999999877000 := by exact_mod_cast hint
    omega

end MySQLServer.Decimal
