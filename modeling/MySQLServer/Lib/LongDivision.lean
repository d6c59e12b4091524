import Mathlib.Tactic.Linarith
import Mathlib.Tactic.Ring

/-! # Guessing a word of a quotient

The next word of a quotient in base `b` is guessed from the first words of the dividend and of the divisor.
The divisor is `v0 v1 ..` and the dividend is `x y ..`, where `x` has two words; both are multiplied by the
factor `f = b / (v0 + 1)`, which makes the first word of the divisor large.

* The guess is not less than the word of the quotient (`le_guess`), and it is at most two greater
  (`guess_le_add_two`).
* A guess that is right for the first words is at most one greater (`le_add_one_of_mul_le`). -/

namespace MySQLServer.Lib.LongDivision

/-! ### The factor -/

section factor
variable {b f v0 v1 : ℕ}

theorem factor_mul_le (hf : f = b / (v0 + 1)) : f * (v0 + 1) ≤ b := by
  rw [hf]
  exact Nat.div_mul_le_self b (v0 + 1)

theorem lt_factor_mul (hf : f = b / (v0 + 1)) : b < f * (v0 + 1) + (v0 + 1) := by
  have h := Nat.lt_div_mul_add (a := b) (Nat.succ_pos v0)
  rw [hf]
  exact h

theorem factor_pos (hf : f = b / (v0 + 1)) (hv : v0 < b) : 0 < f := by
  rw [hf]
  exact Nat.div_pos hv (Nat.succ_pos v0)

theorem le_two_mul_factor_mul (hf : f = b / (v0 + 1)) (heven : 2 ∣ b) (hp : 0 < v0) (hv : v0 < b) :
    b ≤ 2 * (f * v0) := by
  have hle := factor_mul_le hf
  have hlt := lt_factor_mul hf
  have hfpos := factor_pos hf hv
  obtain ⟨h, rfl⟩ := heven
  rcases Nat.lt_or_ge f 2 with hf1 | hf2
  · have hone : f = 1 := by omega
    rw [hone] at hlt ⊢
    omega
  · rcases Nat.lt_or_ge v0 2 with hv1 | hv2
    · have hone : v0 = 1 := by omega
      rw [hone] at hlt hle ⊢
      omega
    · obtain ⟨i, rfl⟩ := Nat.exists_eq_add_of_le hf2
      obtain ⟨j, rfl⟩ := Nat.exists_eq_add_of_le hv2
      nlinarith

/-- What the division of the first two words by `b` leaves is small. -/
theorem factor_mul_mod_add_le (hf : f = b / (v0 + 1)) (heven : 2 ∣ b) (hp : 0 < v0) (hv : v0 < b) :
    f * v1 % b + f ≤ 2 * (f * v0 + f * v1 / b) := by
  have hh := le_two_mul_factor_mul hf heven hp hv
  have hlt := lt_factor_mul hf
  have hfpos := factor_pos hf hv
  have hmod := Nat.mod_lt (f * v1) (show 0 < b by omega)
  have hd := Nat.div_add_mod (f * v1) b
  rcases Nat.eq_zero_or_pos (f * v1 / b) with hz | hone
  · rw [hz, mul_zero, zero_add] at hd
    rw [hz, hd, add_zero]
    rw [hd] at hmod
    have hv1 : v1 < 2 * v0 := by
      by_contra h
      have hmul := Nat.mul_le_mul_left f (Nat.not_lt.mp h)
      have hc : f * (2 * v0) = 2 * (f * v0) := by ring
      omega
    calc f * v1 + f = f * (v1 + 1) := by ring
      _ ≤ f * (2 * v0) := Nat.mul_le_mul_left f hv1
      _ = 2 * (f * v0) := by ring
  · rcases Nat.lt_or_ge v0 2 with hv1 | hv2
    · have hv0 : v0 = 1 := by omega
      obtain ⟨h, rfl⟩ := heven
      have hfh : f = h := by rw [hf, hv0, Nat.mul_div_cancel_left _ (by decide)]
      have hm : f * v1 % (2 * h) ≤ f := by
        rw [hfh, mul_comm 2 h, Nat.mul_mod_mul_left]
        calc h * (v1 % 2) ≤ h * 1 := Nat.mul_le_mul_left h (by omega)
          _ = h := mul_one h
      rw [hv0, mul_one]
      omega
    · obtain ⟨j, rfl⟩ := Nat.exists_eq_add_of_le hv2
      obtain ⟨i, rfl⟩ := Nat.exists_eq_add_of_le hfpos
      nlinarith

end factor

/-! ### The quotient of the first words

`d` is the number of the first words of the divisor `dv` and `n` is the one of the dividend `dd`, where the
other words have the weights below `e`. -/

section quotient
variable {d n e dv dd g : ℕ}

theorem quotient_mul_le (hdv : d * e ≤ dv) (hdd : dd < (n + 1) * e) : dd / dv * d ≤ n := by
  have h : dd / dv * d * e < (n + 1) * e := by
    calc dd / dv * d * e = dd / dv * (d * e) := by ring
      _ ≤ dd / dv * dv := Nat.mul_le_mul_left _ hdv
      _ ≤ dd := Nat.div_mul_le_self dd dv
      _ < (n + 1) * e := hdd
  exact Nat.lt_succ_iff.mp (Nat.lt_of_mul_lt_mul_right h)

theorem lt_add_one_mul (hp : 0 < dv) (hdv : dv ≤ (d + 1) * e) (hdd : n * e ≤ dd) : n < (dd / dv + 1) * (d + 1) := by
  have h : n * e < (dd / dv + 1) * (d + 1) * e := by
    calc n * e ≤ dd := hdd
      _ < (dd / dv + 1) * dv := by
          rw [Nat.succ_mul]
          exact Nat.lt_div_mul_add hp
      _ ≤ (dd / dv + 1) * ((d + 1) * e) := Nat.mul_le_mul_left _ hdv
      _ = (dd / dv + 1) * (d + 1) * e := by ring
  exact Nat.lt_of_mul_lt_mul_right h

theorem le_add_one_of_mul_le (hp : 0 < dv) (hdv : dv ≤ (d + 1) * e) (hdd : n * e ≤ dd)
    (hq : dd / dv < d) (hg : g * d ≤ n) : g ≤ dd / dv + 1 := by
  have hlt := lt_add_one_mul hp hdv hdd
  by_contra h
  have hm := Nat.mul_le_mul_right d (show dd / dv + 2 ≤ g by omega)
  generalize dd / dv = q at *
  nlinarith

end quotient

/-! ### The guess

`m` and `t` are the first words of the divisor and of the dividend, times the factor, without their last
word. -/

section guess
variable {b f v0 v1 x y m t g q e dv dd : ℕ}

theorem factor_mul_div (hb : 0 < b) : f * (x * b + y) / b = f * x + f * y / b := by
  rw [show f * (x * b + y) = f * y + f * x * b by ring, Nat.add_mul_div_right _ _ hb, add_comm]

theorem factor_mul_div_lt (hf : 0 < f) (hy : y < b) : f * y / b < f :=
  Nat.div_lt_of_lt_mul (by rw [mul_comm b]; exact Nat.mul_lt_mul_of_pos_left hy hf)

theorem le_guess (hb : 0 < b) (hm : m = f * v0 + f * v1 / b) (ht : t = f * x + f * y / b)
    (hq : q * (v0 * b + v1) ≤ x * b + y) : q * m ≤ t := by
  rw [hm, ht, ← factor_mul_div hb, ← factor_mul_div hb, Nat.le_div_iff_mul_le hb]
  calc q * (f * (v0 * b + v1) / b) * b = q * (f * (v0 * b + v1) / b * b) := by ring
    _ ≤ q * (f * (v0 * b + v1)) := Nat.mul_le_mul_left _ (Nat.div_mul_le_self _ _)
    _ = f * (q * (v0 * b + v1)) := by ring
    _ ≤ f * (x * b + y) := Nat.mul_le_mul_left _ hq

theorem guess_mul_le (hf : 0 < f) (hm : m = f * v0 + f * v1 / b) (ht : t = f * x + f * y / b)
    (hy : y < b) (hg : g * m ≤ t) : g * v0 ≤ x := by
  have hd := factor_mul_div_lt hf hy
  have h : f * (g * v0) < f * (x + 1) := by
    calc f * (g * v0) = g * (f * v0) := by ring
      _ ≤ g * m := Nat.mul_le_mul_left _ (by rw [hm]; exact Nat.le_add_right _ _)
      _ ≤ t := hg
      _ < f * (x + 1) := by rw [ht, mul_add, mul_one]; omega
  exact Nat.lt_succ_iff.mp (Nat.lt_of_mul_lt_mul_left h)

/-- For the first words, the guess is at most two too large. -/
theorem guess_mul_lt (hb : 0 < b) (hh : b ≤ 2 * (f * v0)) (hm : m = f * v0 + f * v1 / b)
    (ht : t = f * x + f * y / b) (hgb : g < b) (hg : g * m ≤ t) :
    g * (v0 * b + v1) < x * b + y + 2 * (v0 * b + v1) := by
  rw [← factor_mul_div hb] at hm ht
  have hlt : f * (v0 * b + v1) < m * b + b := by
    rw [hm]
    exact Nat.lt_div_mul_add hb
  have hle : t * b ≤ f * (x * b + y) := by
    rw [ht]
    exact Nat.div_mul_le_self _ _
  have hgt := Nat.mul_le_mul_right b hg
  have hgb' : g * b < b * b := Nat.mul_lt_mul_of_pos_right hgb hb
  have hbb := Nat.mul_le_mul_right b hh
  refine Nat.lt_of_mul_lt_mul_left (a := f) ?_
  calc f * (g * (v0 * b + v1)) = g * (f * (v0 * b + v1)) := by ring
    _ ≤ g * (m * b + b) := Nat.mul_le_mul_left _ hlt.le
    _ = g * m * b + g * b := by ring
    _ < f * (x * b + y) + 2 * (f * v0) * b := by omega
    _ ≤ f * (x * b + y + 2 * (v0 * b + v1)) := by nlinarith [Nat.zero_le (f * v1)]

/-- The guess is at most two greater than the word of the quotient. -/
theorem guess_le_add_two (hb : 0 < b) (hf : 0 < f) (hbound : f * v1 % b + f ≤ 2 * (f * v0 + f * v1 / b))
    (hm : m = f * v0 + f * v1 / b) (ht : t = f * x + f * y / b) (hp : 0 < dv)
    (hdv : dv ≤ (v0 * b + v1 + 1) * e) (hdd : (x * b + y) * e ≤ dd) (hgb : g < b) (hg : g * m ≤ t) :
    g ≤ dd / dv + 2 := by
  have hlt := lt_add_one_mul hp hdv hdd
  generalize dd / dv = q at *
  by_contra h
  have hqm : (q + 3) * m ≤ t := (Nat.mul_le_mul_right m (by omega)).trans hg
  rw [← hm] at hbound
  have hmod : f * (v0 * b + v1) = m * b + f * v1 % b := by
    have hd := Nat.div_add_mod (f * v1) b
    rw [hm]
    nlinarith
  have hle : t * b ≤ f * (x * b + y) := by
    rw [ht, ← factor_mul_div hb]
    exact Nat.div_mul_le_self _ _
  generalize f * v1 % b = r at *
  have hn : x * b + y ≤ (q + 1) * (v0 * b + v1) + q := by nlinarith
  -- The guess would need more than the factor can add.
  have hs : (q + 3) * m * b ≤ (q + 1) * (m * b + r) + f * q := by
    calc (q + 3) * m * b ≤ t * b := Nat.mul_le_mul_right b hqm
      _ ≤ f * (x * b + y) := hle
      _ ≤ f * ((q + 1) * (v0 * b + v1) + q) := Nat.mul_le_mul_left f hn
      _ = (q + 1) * (f * (v0 * b + v1)) + f * q := by ring
      _ = (q + 1) * (m * b + r) + f * q := by rw [hmod]
  have hfew : (q + 1) * (r + f) ≤ (q + 1) * (2 * m) := Nat.mul_le_mul_left _ hbound
  have hmany : (q + 1) * (2 * m) ≤ b * (2 * m) := Nat.mul_le_mul_right _ (by omega)
  nlinarith

/-- The first word times the word of the quotient is not much smaller than the first words of the
dividend. -/
theorem lt_quotient_mul_add (hp : 0 < dv) (hv1 : v1 < b) (hdv : dv ≤ (v0 * b + v1 + 1) * e)
    (hdd : (x * b + y) * e ≤ dd) : x < dd / dv * v0 + (dd / dv + v0 + 1) := by
  have hlt := lt_add_one_mul hp hdv hdd
  generalize dd / dv = q at *
  have h : x * b < (q * v0 + (q + v0 + 1)) * b := by
    calc x * b ≤ x * b + y := Nat.le_add_right _ _
      _ < (q + 1) * (v0 * b + v1 + 1) := hlt
      _ ≤ (q + 1) * (v0 * b + b) := Nat.mul_le_mul_left _ (by omega)
      _ = (q * v0 + (q + v0 + 1)) * b := by ring
  exact Nat.lt_of_mul_lt_mul_right h

theorem guess_eq_of_one_word (hf : 0 < f) (hy : y < b) : (f * x + f * y / b) / (f * v0) = x / v0 := by
  rw [← Nat.div_div_eq_div_mul, Nat.mul_add_div hf, Nat.div_eq_of_lt (factor_mul_div_lt hf hy), add_zero]

end guess

end MySQLServer.Lib.LongDivision
