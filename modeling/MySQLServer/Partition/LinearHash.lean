import Mathlib.Data.Nat.Log
import Mathlib.Tactic.Ring

/-! # Linear hash partitioning

`set_linear_hash_mask` and `get_part_id_from_linear_hash`: the low bits of the hash value are the
partition, with one bit less if there is no such partition yet.

* `linearPartId_grows`: every value has a partition, and one more partition only takes values of the
  partition that is split.
* The mask is kept in 16 bits, so that the partitions from `2^16` on stay empty; the loop for the mask does
  not end for more than `2^31` partitions. -/

namespace MySQLServer.Partition

/-- The loop of `set_linear_hash_mask`; `none` if it goes on after `fuel` rounds. -/
def linearMaskLoop : ℕ → ℕ → ℕ → Option ℕ
  | 0, _, _ => none
  | fuel + 1, mask, numParts =>
    if mask < numParts then linearMaskLoop fuel ((mask <<< 1) % 2 ^ 32) numParts else some mask

/-- The field `linear_hash_mask` after `set_linear_hash_mask`. -/
def setLinearHashMask (numParts : ℕ) : Option ℕ :=
  (linearMaskLoop 33 1 numParts).map fun mask => (mask - 1) % 2 ^ 16

/-- `hash_value & mask`, for a signed value. -/
def maskHash (hashValue : ℤ) (mask : ℕ) : ℕ := (hashValue % 2 ^ 64).toNat &&& mask

def getPartIdFromLinearHash (hashValue : ℤ) (mask numParts : ℕ) : ℕ :=
  let partId := maskHash hashValue mask % 2 ^ 32
  if numParts ≤ partId then
    let newMask := (((mask + 1) >>> 1) + 2 ^ 32 - 1) % 2 ^ 32
    maskHash hashValue newMask % 2 ^ 32
  else partId

/-- The partition of a value, with the mask for the number of partitions. -/
def linearPartId (numParts : ℕ) (hashValue : ℤ) : Option ℕ :=
  (setLinearHashMask numParts).map (getPartIdFromLinearHash hashValue · numParts)

variable {n j k : ℕ}

/-- The loop finds the first power of two that is not less than the number of partitions. -/
theorem linearMaskLoop_eq {d fuel : ℕ} (hk : j + d = k) (hk31 : k ≤ 31) (hle : n ≤ 2 ^ k)
    (hlt : ∀ i < k, 2 ^ i < n) (hf : d < fuel) : linearMaskLoop fuel (2 ^ j) n = some (2 ^ k) := by
  induction d generalizing j fuel with
  | zero =>
    obtain ⟨fuel, rfl⟩ := Nat.exists_eq_add_of_lt hf
    obtain rfl : j = k := hk
    rw [Nat.zero_add, linearMaskLoop, if_neg (by omega)]
  | succ d ih =>
    obtain ⟨fuel, rfl⟩ : ∃ f, fuel = f + 1 := ⟨fuel - 1, by omega⟩
    have hp : 2 ^ (j + 1) < 2 ^ 32 := Nat.pow_lt_pow_right (by decide) (by omega)
    rw [linearMaskLoop, if_pos (hlt j (by omega)), Nat.shiftLeft_eq, ← pow_succ, Nat.mod_eq_of_lt hp]
    exact ih (by omega) (by omega)

theorem setLinearHashMask_eq (hk31 : k ≤ 31) (hle : n ≤ 2 ^ k) (hlt : ∀ i < k, 2 ^ i < n) :
    setLinearHashMask n = some (2 ^ min k 16 - 1) := by
  have hl := linearMaskLoop_eq (Nat.zero_add k) hk31 hle hlt (show k < 33 by omega)
  rw [pow_zero] at hl
  rw [setLinearHashMask, hl, Option.map_some]
  congr 1
  rcases Nat.le_total k 16 with h | h
  · have hp := Nat.pow_le_pow_right (show 0 < 2 by decide) h
    rw [min_eq_left h, Nat.mod_eq_of_lt (by omega)]
  · obtain ⟨e, rfl⟩ := Nat.exists_eq_add_of_le h
    have hpos := Nat.two_pow_pos e
    rw [min_eq_right h, pow_add, show 2 ^ 16 * 2 ^ e - 1 = 2 ^ 16 - 1 + 2 ^ 16 * (2 ^ e - 1) by omega,
      Nat.add_mul_mod_self_left]
    rfl

/-- The partition in terms of the low bits `x` of the hash value. -/
def lowBits (x k n : ℕ) : ℕ := if n ≤ x % 2 ^ k then x % 2 ^ (k - 1) else x % 2 ^ k

theorem getPartIdFromLinearHash_eq (hk : k ≤ 16) (hn : 1 ≤ n) (hashValue : ℤ) :
    getPartIdFromLinearHash hashValue (2 ^ k - 1) n = lowBits (hashValue % 2 ^ 64).toNat k n := by
  unfold getPartIdFromLinearHash maskHash lowBits
  generalize (hashValue % 2 ^ 64).toNat = x
  have hm : ∀ i ≤ 16, x % 2 ^ i % 2 ^ 32 = x % 2 ^ i := by
    intro i hi
    have hp := Nat.pow_le_pow_right (show 0 < 2 by decide) hi
    exact Nat.mod_eq_of_lt (by omega)
  simp only [Nat.and_two_pow_sub_one_eq_mod, hm k hk]
  split
  case isTrue h =>
    -- The number of a partition that does not exist has a bit to take away.
    obtain ⟨i, rfl⟩ : ∃ i, k = i + 1 := by
      refine Nat.exists_eq_succ_of_ne_zero fun hz => ?_
      rw [hz, pow_zero, Nat.mod_one] at h
      omega
    have hnew : ((2 ^ (i + 1) - 1 + 1) >>> 1 + 2 ^ 32 - 1) % 2 ^ 32 = 2 ^ i - 1 := by
      have hp := Nat.pow_le_pow_right (show 0 < 2 by decide) (show i ≤ 16 by omega)
      rw [Nat.sub_add_cancel (Nat.two_pow_pos _), Nat.shiftRight_one, pow_succ, Nat.mul_div_cancel _ (by decide)]
      omega
    rw [hnew, Nat.and_two_pow_sub_one_eq_mod, hm i (by omega), Nat.add_sub_cancel]
  case isFalse => rfl

/-- For the powers of two themselves, one bit more does not change anything. -/
theorem linearPartId_eq (hj : j < 31) (hl : 2 ^ j ≤ n) (hh : n ≤ 2 ^ (j + 1)) (hashValue : ℤ) :
    linearPartId n hashValue = some (lowBits (hashValue % 2 ^ 64).toNat (min (j + 1) 16) n) := by
  have hn : 1 ≤ n := (Nat.two_pow_pos j).trans_le hl
  have hb : ∀ i ≤ j, 2 ^ i ≤ 2 ^ j := fun i hi => Nat.pow_le_pow_right (by decide) hi
  unfold linearPartId
  by_cases hp : n = 2 ^ j
  · rw [setLinearHashMask_eq hj.le hp.le fun i hi => hp ▸ Nat.pow_lt_pow_right (by decide) hi,
      Option.map_some, getPartIdFromLinearHash_eq (min_le_right _ _) hn]
    rcases Nat.lt_or_ge j 16 with h16 | h16
    · rw [min_eq_left h16.le, min_eq_left (by omega)]
      unfold lowBits
      generalize (hashValue % 2 ^ 64).toNat = x
      have hm := Nat.mod_mod_of_dvd x (pow_dvd_pow 2 (Nat.le_add_right j 1))
      rw [if_neg (by omega), Nat.add_sub_cancel]
      split
      case isTrue => rfl
      case isFalse h => rw [← hm, Nat.mod_eq_of_lt (by omega)]
    · rw [min_eq_right h16, min_eq_right (by omega)]
  · rw [setLinearHashMask_eq hj hh fun i hi => (hb i (by omega)).trans_lt (by omega),
      Option.map_some, getPartIdFromLinearHash_eq (min_le_right _ _) hn]

/-- **Linear hashing.**  With `n` partitions every value has one of them.  One more partition only takes
values of the partition `n - 2^i`, where `2^i` is the largest power of two not above `n`, and all other
values stay where they are. -/
theorem linearPartId_grows (hn : 1 ≤ n) (hmax : n < 2 ^ 31) (hashValue : ℤ) :
    ∃ p q, linearPartId n hashValue = some p ∧ linearPartId (n + 1) hashValue = some q ∧ p < n ∧
      q < n + 1 ∧ (q = p ∨ p = n - 2 ^ Nat.log 2 n ∧ q = n) := by
  have hl := Nat.pow_log_le_self 2 (show n ≠ 0 by omega)
  have hh : n < 2 ^ (Nat.log 2 n + 1) := Nat.lt_pow_succ_log_self (by decide) n
  have hj := (Nat.pow_lt_pow_iff_right (show 1 < 2 by decide)).mp (hl.trans_lt hmax)
  generalize Nat.log 2 n = j at *
  refine ⟨_, _, linearPartId_eq hj hl hh.le hashValue, linearPartId_eq hj (by omega) (by omega) hashValue, ?_⟩
  generalize (hashValue % 2 ^ 64).toNat = x
  unfold lowBits
  have hp : 2 ^ (min (j + 1) 16 - 1) ≤ 2 ^ j := Nat.pow_le_pow_right (by decide) (by omega)
  have hz := Nat.mod_lt x (Nat.two_pow_pos (min (j + 1) 16 - 1))
  -- Only the values of the new partition move.
  have hm : x % 2 ^ min (j + 1) 16 = n → x % 2 ^ (min (j + 1) 16 - 1) = n - 2 ^ j := by
    intro hnew
    rcases Nat.lt_or_ge j 16 with h16 | h16
    · rw [min_eq_left (by omega)] at hnew ⊢
      rw [Nat.add_sub_cancel, ← Nat.mod_mod_of_dvd x (pow_dvd_pow 2 (Nat.le_add_right j 1)), hnew,
        Nat.mod_eq_sub_mod hl, Nat.mod_eq_of_lt]
      rw [pow_succ] at hh
      omega
    · rw [min_eq_right (by omega)] at hnew
      have hle := Nat.pow_le_pow_right (show 0 < 2 by decide) h16
      omega
  generalize x % 2 ^ min (j + 1) 16 = y at *
  generalize x % 2 ^ (min (j + 1) 16 - 1) = z at *
  split
  case isTrue h =>
    split <;> omega
  case isFalse h =>
    rw [if_neg (by omega)]
    omega

theorem linearPartId_grows_six : ∃ p q, linearPartId 6 (-2) = some p ∧ linearPartId 7 (-2) = some q ∧
    p < 6 ∧ q < 7 ∧ (q = p ∨ p = 6 - 2 ^ Nat.log 2 6 ∧ q = 6) :=
  linearPartId_grows (by decide) (by decide) (-2)

end MySQLServer.Partition
