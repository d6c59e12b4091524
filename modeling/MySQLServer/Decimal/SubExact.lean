import MySQLServer.Decimal.AddExact

/-! # Subtraction is exact

The comparison at the start of `do_sub` finds out which operand is greater without its sign
(`compareOperands_spec`), and the words that `do_sub` writes are those of the difference
(`subWords_spec`). -/

namespace MySQLServer.Decimal

open Lib List

/-! ### Loops -/

variable {carry : ℕ} {xs ys : List ℕ}

theorem sub_ripples : Ripples digBase (-1) sub := by
  intro x y c hx hy hc
  unfold sub
  simp only
  split
  case isTrue h =>
    omega
  case isFalse h =>
    simp only
    omega

theorem subLoop_eq (xs ys : List ℕ) (carry : ℕ) : subLoop xs ys carry = ripple sub xs ys carry := by
  fun_induction ripple sub xs ys carry with
  | case1 x xs y ys carry rest r ih => rw [subLoop, ih]
  | case2 xs ys carry hne =>
    rw [subLoop]
    exact hne

theorem sub_zero_zero {x : ℕ} : sub x 0 0 = (x, 0) := by simp [sub]

/-- The words before the point that only one operand has. -/
theorem borrowLoop_eq (ws : List ℕ) (carry : ℕ) :
    borrowLoop ws carry = ripple sub ws (replicate ws.length 0) carry := by
  induction ws with
  | nil => rfl
  | cons w ws ih =>
    rw [borrowLoop, length_cons, replicate_succ, ripple, ih]
    split
    case isTrue => rfl
    case isFalse h => rw [not_not.mp h, sub_zero_zero]

/-! ### The words of the difference -/

section words
variable {buf1 buf2 : List ℕ} {intg1 intg2 m1 m2 frac0 : ℕ} {frac1 frac2 : ℤ}

theorem subWords_words (hw1 : Words digBase (buf1.take m1)) (hw2 : Words digBase (buf2.take m2))
    (h1 : (intg1 + frac1).toNat ≤ m1) (h2 : (intg2 + frac2).toNat ≤ m2) (h3 : intg1 - intg2 ≤ m1) :
    Words digBase (subWords buf1 intg1 frac1 buf2 intg2 frac2 frac0) := by
  have hz := words_replicate_zero digBase_pos
  have hl : Words digBase (subLow buf1 intg1 frac1 buf2 intg2 frac2 frac0).1 ∧
      (subLow buf1 intg1 frac1 buf2 intg2 frac2 frac0).2 ≤ 1 := by
    unfold subLow
    split
    · exact ⟨words_append.mpr ⟨words_segment hw1 h1, hz _⟩, Nat.zero_le 1⟩
    · simp only [subLoop_eq]
      obtain ⟨hw, hc⟩ := sub_ripples.words (hz _)
        (words_segment (i := (intg2 + frac1).toNat) hw2 h2) (Nat.zero_le 1)
      exact ⟨words_append.mpr ⟨hw, hz _⟩, hc⟩
  unfold subWords
  simp only [subLoop_eq, borrowLoop_eq]
  generalize subLow buf1 intg1 frac1 buf2 intg2 frac2 frac0 = part1 at *
  have hp2 := sub_ripples.words
    (words_segment (i := intg1 - intg2) (j := (intg1 + min frac1 frac2).toNat) hw1 (by omega))
    (words_segment (i := 0) (j := (intg2 + min frac1 frac2).toNat) hw2 (by omega)) hl.2
  refine words_append.mpr ⟨words_append.mpr ⟨?_, hp2.1⟩, hl.1⟩
  exact (sub_ripples.words (words_segment hw1 h3) (hz _) hp2.2).1

section
variable (h1 : Starts buf1 (intg1 + frac1).toNat) (h2 : Starts buf2 (intg2 + frac2).toNat) (hf1 : frac1 ≤ frac0)
  (hf2 : frac2 ≤ frac0)
include h1 h2 hf1 hf2

/-- The words after the point that only one operand has. -/
theorem subLow_eq (hm1 : 0 ≤ intg1 + min frac1 frac2) (hm2 : 0 ≤ intg2 + min frac1 frac2) :
    subLow buf1 intg1 frac1 buf2 intg2 frac2 frac0 = ripple sub
      (segment buf1 (intg1 + min frac1 frac2).toNat (intg1 + frac1).toNat ++ replicate (frac0 - frac1).toNat 0)
      (segment buf2 (intg2 + min frac1 frac2).toNat (intg2 + frac2).toNat ++ replicate (frac0 - frac2).toNat 0) 0 := by
  have hzero : ∀ ws : List ℕ, ripple sub ws (replicate ws.length 0) 0 = (ws, 0) :=
    fun ws => ripple_zero fun x _ => sub_zero_zero
  have hempty : ∀ (ws : List ℕ) (i : ℕ), segment ws i i = [] := fun ws i => drop_take_self
  obtain ⟨hl1, -⟩ := h1.segment (intg1 + min frac1 frac2).toNat le_rfl
  obtain ⟨hl2, -⟩ := h2.segment (intg2 + min frac1 frac2).toNat le_rfl
  unfold subLow
  rcases lt_or_ge frac2 frac1 with h | h
  · rw [min_eq_right h.le] at *
    rw [if_pos h, hempty, nil_append, ← hzero, length_append, hl1, length_replicate]
    congr 2
    omega
  · rw [min_eq_left h] at *
    rw [if_neg (by omega), hempty, nil_append,
      show (frac0 - frac1).toNat = (intg2 + frac2).toNat - (intg2 + frac1).toNat + (frac0 - frac2).toNat by omega,
      replicate_add, ripple_append (by rw [length_replicate, hl2])]
    have hz := hzero (replicate (frac0 - frac2).toNat 0)
    rw [length_replicate] at hz
    simp only [hz, subLoop_eq, hl2]

/-- The parts are one subtraction of the words with zeros around them. -/
theorem subWords_eq (hintg : intg2 ≤ intg1) (hmin : 0 ≤ intg2 + min frac1 frac2) :
    subWords buf1 intg1 frac1 buf2 intg2 frac2 frac0 =
      (ripple sub (padded 0 (buf1.take (intg1 + frac1).toNat) (frac0 - frac1).toNat)
        (padded (intg1 - intg2) (buf2.take (intg2 + frac2).toNat) (frac0 - frac2).toNat) 0).1 := by
  have hl := subLow_eq h1 h2 hf1 hf2 (by omega) hmin
  generalize hm : min frac1 frac2 = m at *
  obtain ⟨hl1, -⟩ := h1.segment (intg1 - intg2) (show (intg1 + m).toNat ≤ (intg1 + frac1).toNat by omega)
  obtain ⟨hl2, -⟩ := h2.segment 0 (show (intg2 + m).toNat ≤ (intg2 + frac2).toNat by omega)
  obtain ⟨hl3, -⟩ := h1.segment 0 (show intg1 - intg2 ≤ (intg1 + frac1).toNat by omega)
  rw [padded, padded, replicate_zero, nil_append, take_eq_append (show intg1 - intg2 ≤ (intg1 + frac1).toNat by omega),
    ← segment_append (show intg1 - intg2 ≤ (intg1 + m).toNat by omega) (by omega),
    take_eq_append (show (intg2 + m).toNat ≤ (intg2 + frac2).toNat by omega), append_assoc, append_assoc,
    append_assoc, ripple_append (by rw [hl3, length_replicate]; omega), ripple_append (by omega), ← hl,
    ← append_assoc]
  unfold subWords
  simp only [subLoop_eq, borrowLoop_eq, hm, hl3, Nat.sub_zero]

/-- The words are those of the difference, with a carry if the second number is greater. -/
theorem subWords_spec (hintg : intg2 ≤ intg1) (hm : 0 ≤ intg2 + min frac1 frac2) :
    (subWords buf1 intg1 frac1 buf2 intg2 frac2 frac0).length = intg1 + frac0 ∧
      ∃ carry, value digBase (subWords buf1 intg1 frac1 buf2 intg2 frac2 frac0) +
        value digBase (buf2.take (intg2 + frac2).toNat) * digBase ^ (frac0 - frac2).toNat =
      value digBase (buf1.take (intg1 + frac1).toNat) * digBase ^ (frac0 - frac1).toNat +
        carry * digBase ^ (intg1 + frac0) := by
  have hlen : (padded 0 (buf1.take (intg1 + frac1).toNat) (frac0 - frac1).toNat).length = intg1 + frac0 := by
    rw [length_padded, length_take_of_le h1.le]
    omega
  have hl2 : (padded (intg1 - intg2) (buf2.take (intg2 + frac2).toNat) (frac0 - frac2).toNat).length =
      intg1 + frac0 := by
    rw [length_padded, length_take_of_le h2.le]
    omega
  obtain ⟨hl, hv⟩ := sub_ripples.value (hlen.trans hl2.symm) (h1.words.padded _ _ digBase_pos)
    (h2.words.padded _ _ digBase_pos) (Nat.zero_le 1)
  rw [subWords_eq h1 h2 hf1 hf2 hintg hm]
  generalize ripple sub _ _ 0 = r at *
  refine ⟨hl.trans hlen, r.2, ?_⟩
  rw [value_padded, value_padded, hlen] at hv
  push_cast at hv
  zify
  linear_combination hv

end

end words

/-! ### The comparison -/

/-- The number of the words if the point is before them. -/
def fraction (ws : List ℕ) : ℚ := value digBase ws / digBase ^ ws.length

theorem fraction_cons_lt {u v : ℕ} {us vs : List ℕ} (h : u + fraction us < v + fraction vs) :
    fraction (u :: us) < fraction (v :: vs) := by
  have hp : (0 : ℚ) < digBase := by exact_mod_cast digBase_pos
  have hc : ∀ (w : ℕ) (ws : List ℕ), fraction (w :: ws) = (w + fraction ws) / digBase := by
    intro w ws
    unfold fraction
    rw [value_cons, length_cons, pow_succ]
    push_cast
    field_simp
  rw [hc, hc]
  exact div_lt_div_of_pos_right h hp

theorem fraction_lt_one (h : Words digBase xs) : fraction xs < 1 :=
  (div_lt_one (digBase_pow_pos _)).mpr (by exact_mod_cast h.value_lt)

theorem fraction_pos (hne : xs ≠ []) (hl : xs.getLast? ≠ some 0) : 0 < fraction xs :=
  div_pos (Nat.cast_pos.mpr (value_pos_of_getLast? hne hl)) (digBase_pow_pos _)

/-- The comparison of words without zeros at their ends is the one of the numbers. -/
theorem compareLoop_spec (hx : Words digBase xs) (hy : Words digBase ys)
    (hx0 : xs.getLast? ≠ some 0) (hy0 : ys.getLast? ≠ some 0) : match compareLoop xs ys with
    | none => xs = ys
    | some true => fraction xs < fraction ys
    | some false => fraction ys < fraction xs := by
  induction xs generalizing ys with
  | nil =>
    cases ys with
    | nil => rfl
    | cons y ys => simpa [compareLoop, fraction] using fraction_pos (cons_ne_nil y ys) hy0
  | cons x xs ih =>
    cases ys with
    | nil => simpa [compareLoop, fraction] using fraction_pos (cons_ne_nil x xs) hx0
    | cons y ys =>
      -- The greater of two different words decides.
      have hw : ∀ {u v : ℕ} {us vs : List ℕ}, Words digBase us → u < v →
          fraction (u :: us) < fraction (v :: vs) := by
        intro u v us vs hus huv
        have hlt := fraction_lt_one hus
        have hle : 0 ≤ fraction vs := div_nonneg (Nat.cast_nonneg _) (digBase_pow_pos _).le
        have huv' : (u : ℚ) + 1 ≤ v := by exact_mod_cast huv
        exact fraction_cons_lt (by linarith)
      rw [words_cons] at hx hy
      rw [compareLoop]
      by_cases hxy : x = y
      · rw [if_pos hxy]
        have hr := ih hx.2 hy.2 (fun h => hx0 (by rw [getLast?_cons, h]; rfl))
          (fun h => hy0 (by rw [getLast?_cons, h]; rfl))
        subst hxy
        cases hc : compareLoop xs ys with
        | none =>
          rw [hc] at hr
          exact congrArg _ hr
        | some c =>
          rw [hc] at hr
          cases c with
          | true | false => exact fraction_cons_lt ((add_lt_add_iff_left _).mpr hr)
      · rw [if_neg hxy]
        rcases lt_or_gt_of_ne hxy with h | h
        · rw [decide_eq_true h]
          exact hw hx.2 h
        · rw [decide_eq_false (by omega)]
          exact hw hy.2 h

namespace Operand
variable {o : Operand} {d : DecimalT}

/-- What is known of an operand with the number of `d`. -/
structure Ok (o : Operand) (d : DecimalT) : Prop where
  dec : o.dec = d
  start : o.start + o.intg = roundUp d.intg
  nonneg : 0 ≤ o.intg + o.frac
  frac_le : o.frac ≤ roundUp d.frac
  mag : d.mag = value digBase o.words * digBase ^ (roundUp d.frac - o.frac).toNat

theorem length_leadingZeros_le (d : DecimalT) :
    ((d.buf.take (roundUp d.intg)).takeWhile (· == 0)).length ≤ min (roundUp d.intg) d.buf.length := by
  rw [← length_take]
  exact IsPrefix.length_le <| takeWhile_prefix _

theorem init_ok (d : DecimalT) : (init d).Ok d where
  dec := rfl
  start := by
    have hle := length_leadingZeros_le d
    simp only [init]
    omega
  nonneg := by
    simp only [init]
    omega
  frac_le := le_rfl
  mag := by
    have hle := length_leadingZeros_le d
    have hs : ((d.buf.take (roundUp d.intg)).takeWhile (· == 0)).length ≤
        (d.words.takeWhile (· == 0)).length := by
      rw [← DecimalT.take_words (Nat.le_add_right _ _)]
      nth_rewrite 2 [← take_append_drop (roundUp d.intg) d.words]
      rw [takeWhile_append]
      split
      · rw [length_append]
        omega
      · exact le_rfl
    simp only [init, words, buf, sub_self, Int.toNat_zero, pow_zero, mul_one]
    have hc : (((roundUp d.intg - ((d.buf.take (roundUp d.intg)).takeWhile (· == 0)).length : ℕ) : ℤ) +
        (roundUp d.frac : ℤ)).toNat = roundUp d.intg + roundUp d.frac -
          ((d.buf.take (roundUp d.intg)).takeWhile (· == 0)).length := by omega
    rw [hc, ← drop_take]
    exact (value_drop_zeros hs).symm

theorem pow_le_mag (h : d.WF) (hp : 0 < (init d).intg) : digBase ^ ((init d).intg - 1 + roundUp d.frac) ≤ d.mag := by
  have hf := h.fits
  unfold DecimalT.len at hf
  have ht := DecimalT.take_words (d := d) (Nat.le_add_right (roundUp d.intg) (roundUp d.frac))
  have hl : (d.buf.take (roundUp d.intg)).length = roundUp d.intg := by
    rw [length_take]
    omega
  simp only [init] at hp ⊢
  have hle := @pow_le_value digBase (d.buf.take (roundUp d.intg)) (by omega)
  have hs := value_take_add_drop digBase d.words (roundUp d.intg)
  rw [ht, h.length_words, Nat.add_sub_cancel_left] at hs
  rw [hl] at hle
  have hm := Nat.mul_le_mul_right (digBase ^ roundUp d.frac) hle
  unfold DecimalT.mag
  rw [pow_add]
  omega

theorem take_words {n : ℕ} (hn : n ≤ (o.intg + o.frac).toNat) : o.words.take n = o.buf.take n := by
  unfold words
  rw [take_take, min_eq_left hn]

theorem Ok.length_words (h : o.Ok d) (hd : d.WF) : o.words.length = (o.intg + o.frac).toNat := by
  have hf := hd.fits
  have hfr := h.frac_le
  have hs := h.start
  unfold DecimalT.len at hf
  unfold words buf
  rw [length_take, length_drop, h.dec]
  omega

theorem Ok.words_take (h : o.Ok d) (hd : d.WF) {n : ℕ} (hn : n ≤ o.intg + roundUp d.frac) :
    Words digBase (o.buf.take n) := by
  have hs := h.start
  have hw := (hd.words_take (n := o.start + n) (by omega)).drop o.start
  rw [drop_take, Nat.add_sub_cancel_left] at hw
  unfold buf
  rw [h.dec]
  exact hw

theorem Ok.words_words (h : o.Ok d) (hd : d.WF) : Words digBase o.words := by
  have hf := h.frac_le
  exact h.words_take hd (by omega)

theorem Ok.trim (h : o.Ok d) (hd : d.WF) : o.trim.Ok d ∧ o.trim.words = o.words.rdropWhile (· == 0) := by
  have hl := h.length_words hd
  have hp := rdropWhile_prefix (· == 0) o.words
  have hle := hp.length_le
  have hn := h.nonneg
  have hf := h.frac_le
  have hc : (o.trim.intg + o.trim.frac).toNat = (o.words.rdropWhile (· == 0)).length := by
    simp only [Operand.trim]
    omega
  have hw : o.trim.words = o.words.rdropWhile (· == 0) := by
    have ht : o.trim.words = o.buf.take (o.words.rdropWhile (· == 0)).length := by
      nth_rewrite 1 [words]
      rw [hc]
      rfl
    rw [ht, ← take_words (by omega)]
    exact (List.prefix_iff_eq_take.mp hp).symm
  refine ⟨⟨h.dec, h.start, ?_, ?_, ?_⟩, hw⟩
  · simp only [Operand.trim]
    omega
  · simp only [Operand.trim]
    omega
  · have hexp : (roundUp d.frac - o.trim.frac).toNat =
        o.words.length - (o.words.rdropWhile (· == 0)).length + (roundUp d.frac - o.frac).toNat := by
      simp only [Operand.trim]
      omega
    rw [hw, hexp, pow_add, ← mul_assoc, ← value_rdropWhile_zero]
    exact h.mag

/-- Cutting the number leaves the first words of the operand. -/
theorem Ok.cutMag_eq (h : o.Ok d) (hd : d.WF) (k : ℕ) :
    d.cutMag k = value digBase (o.buf.take (o.intg + min o.frac k).toNat) * digBase ^ (k - min o.frac k).toNat := by
  have hf := h.frac_le
  unfold DecimalT.cutMag
  rw [h.mag]
  rcases le_total o.frac k with hk | hk
  · have hexp : (roundUp d.frac - o.frac).toNat + k = (k - o.frac).toNat + roundUp d.frac := by omega
    rw [min_eq_left hk, mul_assoc, ← pow_add, hexp, pow_add, ← mul_assoc, Nat.mul_div_cancel _ (pow_pos digBase_pos _)]
    rfl
  · have hexp : roundUp d.frac = (o.frac - k).toNat + ((roundUp d.frac - o.frac).toNat + k) := by omega
    have ht := take_words (o := o) (n := (o.intg + (k : ℤ)).toNat) (by omega)
    have hw := h.words_words hd
    have hl : o.words.length - (o.intg + (k : ℤ)).toNat = (o.frac - k).toNat := by
      rw [h.length_words hd]
      omega
    rw [min_eq_right hk, sub_self, Int.toNat_zero, pow_zero, mul_one, ← ht, hw.value_take, hl, mul_assoc, ← pow_add]
    nth_rewrite 2 [hexp]
    rw [pow_add digBase (o.frac - k).toNat, Nat.mul_div_mul_right _ _ (pow_pos digBase_pos _)]

theorem Ok.abs_eq (h : o.Ok d) (hd : d.WF) : d.abs = fraction o.words * digBase ^ o.intg := by
  have hf := h.frac_le
  have hn := h.nonneg
  have hexp : (roundUp d.frac - o.frac).toNat + o.words.length = roundUp d.frac + o.intg := by
    rw [h.length_words hd]
    omega
  have hp : (digBase : ℚ) ^ (roundUp d.frac - o.frac).toNat * digBase ^ o.words.length =
      digBase ^ roundUp d.frac * digBase ^ o.intg := by
    rw [← pow_add, ← pow_add, hexp]
  have hpos := digBase_pow_pos o.words.length
  have hp' := digBase_pow_pos (roundUp d.frac)
  unfold DecimalT.abs fraction
  rw [h.mag]
  push_cast
  field_simp
  linear_combination (value digBase o.words : ℚ) * hp

theorem Ok.abs_lt (h : o.Ok d) (hd : d.WF) : d.abs < digBase ^ o.intg := by
  rw [h.abs_eq hd]
  exact mul_lt_of_lt_one_left (digBase_pow_pos o.intg) (fraction_lt_one (h.words_words hd))

theorem pow_le_abs (h : d.WF) (hp : 0 < (init d).intg) : (digBase : ℚ) ^ ((init d).intg - 1) ≤ d.abs := by
  have hle : (digBase : ℚ) ^ ((init d).intg - 1 + roundUp d.frac) ≤ d.mag := by
    exact_mod_cast pow_le_mag h hp
  unfold DecimalT.abs
  rw [le_div_iff₀ (digBase_pow_pos _), ← pow_add]
  exact hle

end Operand

/-- The operands of a comparison, and what it says. -/
structure Compared (from1 from2 : DecimalT) (c : Operand × Operand × Option Bool) : Prop where
  ok1 : c.1.Ok from1
  ok2 : c.2.1.Ok from2
  nonneg1 : 0 ≤ c.2.1.intg + c.1.frac
  nonneg2 : 0 ≤ c.1.intg + c.2.1.frac
  equal : c.2.2 = none → from1.abs = from2.abs
  less : c.2.2 = some true → from1.abs < from2.abs ∧ c.1.intg ≤ c.2.1.intg
  greater : c.2.2 = some false → from2.abs < from1.abs ∧ c.2.1.intg ≤ c.1.intg

theorem abs_lt_of_intg_lt {a b : DecimalT} (ha : a.WF) (hb : b.WF)
    (h : (Operand.init a).intg < (Operand.init b).intg) : a.abs < b.abs := by
  have hlt := (Operand.init_ok a).abs_lt ha
  have hle := Operand.pow_le_abs hb (by omega)
  have hm : (digBase : ℚ) ^ (Operand.init a).intg ≤ digBase ^ ((Operand.init b).intg - 1) := by
    apply pow_le_pow_right₀
    · exact_mod_cast digBase_pos
    · omega
  linarith

/-- The comparison is the one of the numbers without their signs. -/
theorem compareOperands_spec {from1 from2 : DecimalT} (h1 : from1.WF) (h2 : from2.WF) :
    Compared from1 from2 (compareOperands from1 from2) := by
  have ok1 := Operand.init_ok from1
  have ok2 := Operand.init_ok from2
  have hf1 : 0 ≤ (Operand.init from1).frac := Int.natCast_nonneg _
  have hf2 : 0 ≤ (Operand.init from2).frac := Int.natCast_nonneg _
  unfold compareOperands
  rcases lt_trichotomy (Operand.init from1).intg (Operand.init from2).intg with h | h | h
  · rw [if_pos h]
    exact ⟨ok1, ok2, by simp only; omega, by simp only; omega, nofun,
      fun _ => ⟨abs_lt_of_intg_lt h1 h2 h, h.le⟩, nofun⟩
  · rw [if_neg (by omega), if_pos h.symm]
    obtain ⟨t1, w1⟩ := ok1.trim h1
    obtain ⟨t2, w2⟩ := ok2.trim h2
    have n1 := t1.nonneg
    have n2 := t2.nonneg
    have hintg : (Operand.init from1).trim.intg = (Operand.init from2).trim.intg := h
    have hl := compareLoop_spec (t1.words_words h1) (t2.words_words h2)
      (by rw [w1]; exact getLast?_rdropWhile_zero _) (by rw [w2]; exact getLast?_rdropWhile_zero _)
    have ha1 := t1.abs_eq h1
    have ha2 := t2.abs_eq h2
    refine ⟨t1, t2, by simp only; omega, by simp only; omega, fun hc => ?_, fun hc => ⟨?_, hintg.le⟩,
      fun hc => ⟨?_, hintg.ge⟩⟩ <;> dsimp only at hc <;> rw [hc] at hl <;> rw [ha1, ha2, hintg]
    · rw [hl]
    · exact mul_lt_mul_of_pos_right hl (digBase_pow_pos _)
    · exact mul_lt_mul_of_pos_right hl (digBase_pow_pos _)
  · rw [if_neg (by omega), if_neg (by omega)]
    exact ⟨ok1, ok2, by simp only; omega, by simp only; omega, nofun, nofun,
      fun _ => ⟨abs_lt_of_intg_lt h2 h1 h, h.le⟩⟩

/-! ### `do_sub` -/

section doSub
variable {from1 from2 a b : DecimalT} {oa ob : Operand}

variable {dest : DecimalT}

/-- The words that are written if there is no overflow. -/
theorem subWords_computes (ha : a.WF) (hb : b.WF) (hoa : oa.Ok a) (hob : ob.Ok b)
    (hle : b.abs ≤ a.abs) (hintg : ob.intg ≤ oa.intg) (hnonneg : 0 ≤ ob.intg + oa.frac)
    {error : DecErr} {k : ℕ} (hkept : Kept from1 from2 error k)
    (hfa : a.frac ≤ max from1.frac from2.frac) (hfb : b.frac ≤ max from1.frac from2.frac)
    (hd : 0 < dest.len) (hfit : oa.intg + k ≤ dest.len) {out : List ℕ} {sign : Bool}
    (hout : subWords oa.buf oa.intg (min oa.frac k) ob.buf ob.intg (min ob.frac k) k = out) :
    Computes from1 from2 (error,
      { intg := oa.intg * digPerDec1
        frac := keptFrac from1 from2 error k
        sign := sign
        buf := replicate (oa.intg + k - out.length) 0 ++ out.drop (out.length - (oa.intg + k)) ++
          dest.buf.drop (oa.intg + k) }) sign k (a.cutMag k - b.cutMag k) := by
  have hnb := hob.nonneg
  have hfra := hoa.frac_le
  have hfrb := hob.frac_le
  have hla := hoa.length_words ha
  have hlb := hob.length_words hb
  unfold Operand.words at hla hlb
  rw [length_take] at hla hlb
  have hcuta := hoa.cutMag_eq ha k
  have hcutb := hob.cutMag_eq hb k
  have hka := min_le_right oa.frac (k : ℤ)
  have hkb := min_le_right ob.frac (k : ℤ)
  have hfrac1 := min_le_left oa.frac (k : ℤ)
  have hfrac2 := min_le_left ob.frac (k : ℤ)
  have hmin : 0 ≤ (ob.intg : ℤ) + min (min oa.frac k) (min ob.frac k) := by
    rw [add_min]
    omega
  generalize min oa.frac (k : ℤ) = fa at *
  generalize min ob.frac (k : ℤ) = fb at *
  have hwa := hoa.words_take ha (n := (oa.intg + fa).toNat) (by omega)
  have hwb := hob.words_take hb (n := (ob.intg + fb).toNat) (by omega)
  obtain ⟨hlen, carry, hval⟩ := subWords_spec ⟨by omega, hwa⟩ ⟨by omega, hwb⟩ hka hkb hintg hmin
  have hwords : Words digBase (subWords oa.buf oa.intg fa ob.buf ob.intg fb k) :=
    subWords_words (hoa.words_take ha le_rfl) (hob.words_take hb le_rfl) (by omega) (by omega) (by omega)
  rw [← hcuta, ← hcutb] at hval
  rw [hout] at hlen hval hwords
  have hcut := DecimalT.cutMag_mono hle k
  have hlt := hwords.value_lt
  -- The greater number is the first one, so that no carry is left.
  have hcarry : carry = 0 := by
    by_contra hc
    have hpow : digBase ^ (oa.intg + k) ≤ carry * digBase ^ (oa.intg + k) :=
      Nat.le_mul_of_pos_left _ (by omega)
    rw [hlen] at hlt
    omega
  rw [hcarry, zero_mul, add_zero] at hval
  rw [hlen, Nat.sub_self, replicate_zero, nil_append, drop_zero]
  apply hkept.computes
  · rw [length_append, length_drop, hlen]
    unfold DecimalT.len at hd hfit
    omega
  · exact hlen
  · exact hwords
  · omega
  · exact Nat.dvd_sub (hkept.dvd ha hfa) (hkept.dvd hb hfb)

/-- After an overflow. -/
theorem subWords_overflow (ha : a.WF) (hb : b.WF) (hoa : oa.Ok a) (hob : ob.Ok b) {n : ℕ}
    (hn : n ≤ oa.intg) {out rest : List ℕ} {frac : ℕ} {sign : Bool}
    (hout : subWords oa.buf n (min oa.frac (0 : ℕ)) ob.buf (min ob.intg n) (min ob.frac (0 : ℕ)) 0 = out) :
    Words digBase (⟨n * digPerDec1, min frac (0 * digPerDec1), sign,
      replicate (n + 0 - out.length) 0 ++ out.drop (out.length - (n + 0)) ++ rest⟩ : DecimalT).words := by
  have hw : Words digBase (subWords oa.buf n (min oa.frac (0 : ℕ)) ob.buf (min ob.intg n)
      (min ob.frac (0 : ℕ)) 0) :=
    subWords_words (hoa.words_take ha le_rfl) (hob.words_take hb le_rfl) (by omega) (by omega) (by omega)
  rw [hout] at hw
  have hl : (replicate (n + 0 - out.length) 0 ++ out.drop (out.length - (n + 0))).length =
      roundUp (n * digPerDec1) + roundUp (min frac (0 * digPerDec1)) := by
    rw [length_append, length_replicate, length_drop, roundUp_mul, zero_mul, Nat.min_zero]
    rw [show roundUp 0 = 0 from rfl]
    omega
  rw [DecimalT.words_append hl]
  exact words_append.mpr ⟨words_replicate_zero digBase_pos _, hw.drop _⟩

/-- What `do_sub` does with the greater operand `a` and the other one `b`. -/
def subResult (from1 from2 dest : DecimalT) (oa ob : Operand) (sign : Bool) : DecErr × DecimalT :=
  let r := fixIntgFracError dest.len oa.intg (max (roundUp from1.frac) (roundUp from2.frac))
  let intg1 := r.1
  let frac0 := r.2.1
  let error := r.2.2
  let out :=
    if error ≠ .ok then
      subWords oa.buf intg1 (min oa.frac frac0) ob.buf (min ob.intg intg1) (min ob.frac frac0) frac0
    else subWords oa.buf intg1 oa.frac ob.buf ob.intg ob.frac frac0
  (error,
    { intg := intg1 * digPerDec1
      frac := keptFrac from1 from2 error frac0
      sign := sign
      buf := replicate (intg1 + frac0 - out.length) 0 ++ out.drop (out.length - (intg1 + frac0)) ++
        dest.buf.drop (intg1 + frac0) })

theorem doSub_eq (from1 from2 dest : DecimalT) : doSub from1 from2 dest =
    match (compareOperands from1 from2).2.2 with
    | none => (.ok, decimalMakeZero dest)
    | some true => subResult from1 from2 dest (compareOperands from1 from2).2.1
        (compareOperands from1 from2).1 (!from1.sign)
    | some false => subResult from1 from2 dest (compareOperands from1 from2).1
        (compareOperands from1 from2).2.1 from1.sign := by
  unfold doSub subResult keptFrac
  obtain ⟨o1, o2, c⟩ := compareOperands from1 from2
  cases c with
  | none => rfl
  | some c => cases c <;> rfl

theorem subResult_spec (ha : a.WF) (hb : b.WF) (hoa : oa.Ok a) (hob : ob.Ok b) (hle : b.abs ≤ a.abs)
    (hintg : ob.intg ≤ oa.intg) (hn : 0 ≤ ob.intg + oa.frac)
    (hfa : a.frac ≤ max from1.frac from2.frac) (hfb : b.frac ≤ max from1.frac from2.frac)
    (hd : 0 < dest.len) (sign : Bool) : (subResult from1 from2 dest oa ob sign).1 = .overflow ∧
        Words digBase (subResult from1 from2 dest oa ob sign).2.words ∨
      ∃ k, Computes from1 from2 (subResult from1 from2 dest oa ob sign) sign k (a.cutMag k - b.cutMag k) := by
  have hfra := hoa.frac_le
  have hfrb := hob.frac_le
  have hra := roundUp_mono hfa
  have hrb := roundUp_mono hfb
  rw [roundUp_max] at hra hrb
  unfold subResult
  obtain ⟨hfit, hf⟩ | ⟨hfit, hm, hf⟩ | ⟨hover, hf⟩ := fixIntgFracError_cases dest.len oa.intg
    (max (roundUp from1.frac) (roundUp from2.frac))
  · right
    have hk : Kept from1 from2 .ok (max (roundUp from1.frac) (roundUp from2.frac)) :=
      ⟨fun _ => rfl, nofun⟩
    rw [hf]
    simp only [ne_eq, not_true_eq_false, if_false]
    refine ⟨_, subWords_computes ha hb hoa hob hle hintg hn hk hfa hfb hd hfit ?_⟩
    rw [min_eq_left (by omega), min_eq_left (by omega)]
  · right
    have hk : Kept from1 from2 .truncated (dest.len - oa.intg) :=
      ⟨nofun, fun _ => ⟨rfl, by omega⟩⟩
    rw [hf]
    simp only [ne_eq, reduceCtorEq, not_false_eq_true, if_true]
    refine ⟨_, subWords_computes ha hb hoa hob hle hintg hn hk hfa hfb hd (by omega) ?_⟩
    rw [min_eq_left hintg]
  · left
    rw [hf]
    simp only [ne_eq, reduceCtorEq, not_false_eq_true, if_true]
    refine ⟨trivial, ?_⟩
    unfold keptFrac
    rw [if_pos nofun]
    exact subWords_overflow ha hb hoa hob hover.le rfl

/-- `do_sub` subtracts the smaller number without its sign from the greater one, each of them cut to the
words that are kept. -/
theorem doSub_spec (h1 : from1.WF) (h2 : from2.WF) (hd : 0 < dest.len) :
    from1.abs = from2.abs ∧ doSub from1 from2 dest = (.ok, decimalMakeZero dest) ∨
      (doSub from1 from2 dest).1 = .overflow ∧ Words digBase (doSub from1 from2 dest).2.words ∨
      (∃ k, from2.abs < from1.abs ∧ Computes from1 from2 (doSub from1 from2 dest) from1.sign k
        (from1.cutMag k - from2.cutMag k)) ∨
      ∃ k, from1.abs < from2.abs ∧ Computes from1 from2 (doSub from1 from2 dest) (!from1.sign) k
        (from2.cutMag k - from1.cutMag k) := by
  have hc := compareOperands_spec h1 h2
  rw [doSub_eq]
  cases hcmp : (compareOperands from1 from2).2.2 with
  | none => exact .inl ⟨hc.equal hcmp, rfl⟩
  | some c =>
    cases c with
    | true =>
      obtain ⟨hlt, hin⟩ := hc.less hcmp
      obtain h | ⟨k, h⟩ := subResult_spec h2 h1 hc.ok2 hc.ok1 hlt.le hin hc.nonneg2
        (le_max_right _ _) (le_max_left _ _) hd (!from1.sign)
      · exact .inr (.inl h)
      · exact .inr (.inr (.inr ⟨k, hlt, h⟩))
    | false =>
      obtain ⟨hlt, hin⟩ := hc.greater hcmp
      obtain h | ⟨k, h⟩ := subResult_spec h1 h2 hc.ok1 hc.ok2 hlt.le hin hc.nonneg1
        (le_max_left _ _) (le_max_right _ _) hd from1.sign
      · exact .inr (.inl h)
      · exact .inr (.inr (.inl ⟨k, hlt, h⟩))

end doSub

/-! ### The interface -/

/-- The result is the sum of two numbers: exactly if there is no error, and with each number cut to the
words that are kept if the result is truncated. -/
structure AddsTo (r : DecErr × DecimalT) (x y : ℚ) : Prop where
  ok : r.1 = .ok → r.2.WF ∧ r.2.toRat = x + y
  truncated : r.1 = .truncated → r.2.toRat = cut (roundUp r.2.frac) x + cut (roundUp r.2.frac) y
  words : Words digBase r.2.words

/-- The number with the sign `sign`. -/
def signed (sign : Bool) (x : ℚ) : ℚ := if sign then -x else x

theorem signed_not (sign : Bool) (x : ℚ) : signed (!sign) x = -signed sign x := by
  cases sign <;> simp [signed]

theorem signed_sub (sign : Bool) (x y : ℚ) : signed sign (x - y) = signed sign x - signed sign y := by
  cases sign <;> simp [signed]
  ring

theorem cut_signed (k : ℕ) (sign : Bool) (x : ℚ) : cut k (signed sign x) = signed sign (cut k x) := by
  cases sign with
  | false => rfl
  | true => exact cut_neg k x

section interface
variable {from1 from2 : DecimalT} {r : DecErr × DecimalT} {sign : Bool} {k m : ℕ}

theorem Computes.toRat (h : Computes from1 from2 r sign k m) : r.2.toRat = signed sign (m / digBase ^ k) := by
  unfold DecimalT.toRat DecimalT.abs signed
  rw [h.sign, h.mag, h.frac]

theorem cutMag_div {d : DecimalT} (hk : roundUp d.frac ≤ k) : (d.cutMag k : ℚ) / digBase ^ k = d.abs := by
  have hp := digBase_pow_pos k
  have hp' := digBase_pow_pos (roundUp d.frac)
  have hpow : (digBase : ℚ) ^ k = digBase ^ (k - roundUp d.frac) * digBase ^ roundUp d.frac := by
    rw [← pow_add, Nat.sub_add_cancel hk]
  unfold DecimalT.abs
  rw [DecimalT.cutMag_of_le hk, div_eq_div_iff hp.ne' hp'.ne', hpow]
  push_cast
  ring

theorem Computes.addsTo (h : Computes from1 from2 r sign k m) {x y : ℚ}
    (hc : signed sign (m / digBase ^ k) = cut k x + cut k y)
    (hx : max (roundUp from1.frac) (roundUp from2.frac) ≤ k → cut k x = x ∧ cut k y = y) : AddsTo r x y where
  ok hok := by
    obtain ⟨hx, hy⟩ := hx (h.kept.ok hok).ge
    refine ⟨h.wf, ?_⟩
    rw [h.toRat, hc, hx, hy]
  truncated _ := by rw [h.toRat, hc, h.frac]
  words := h.wf.words

theorem addsTo_of_overflow (h : r.1 = .overflow) (hw : Words digBase r.2.words) {x y : ℚ} : AddsTo r x y where
  ok hok := by
    rw [h] at hok
    cases hok
  truncated ht := by
    rw [h] at ht
    cases ht
  words := hw

theorem cut_toRat_of_le {d : DecimalT} (hk : roundUp d.frac ≤ k) : cut k d.toRat = d.toRat := by
  have habs : cut k d.abs = d.abs := by rw [d.cut_abs, cutMag_div hk]
  have h := cut_signed k d.sign d.abs
  rw [habs] at h
  exact h

theorem doAdd_addsTo (h1 : from1.WF) (h2 : from2.WF) {dest : DecimalT} (hd : 0 < dest.len) :
    AddsTo (doAdd from1 from2 dest) from1.toRat (signed from1.sign from2.abs) := by
  obtain ⟨hov, hw⟩ | ⟨k, h⟩ := doAdd_spec h1 h2 hd
  · exact addsTo_of_overflow hov hw
  · refine h.addsTo ?_ fun hk => ⟨cut_toRat_of_le (by omega), ?_⟩
    · have hl : cut k from1.toRat = signed from1.sign (cut k from1.abs) := cut_signed k _ _
      rw [hl, cut_signed, from1.cut_abs, from2.cut_abs, Nat.cast_add, add_div]
      unfold signed
      split <;> ring
    · rw [cut_signed, from2.cut_abs, cutMag_div (by omega)]

theorem doSub_addsTo (h1 : from1.WF) (h2 : from2.WF) {dest : DecimalT} (hd : 0 < dest.len) :
    AddsTo (doSub from1 from2 dest) from1.toRat (signed (!from1.sign) from2.abs) := by
  have hl : ∀ k, cut k from1.toRat = signed from1.sign (cut k from1.abs) := fun k => cut_signed k _ _
  have hr : ∀ k, max (roundUp from1.frac) (roundUp from2.frac) ≤ k → cut k from1.toRat = from1.toRat ∧
        cut k (signed (!from1.sign) from2.abs) = signed (!from1.sign) from2.abs := by
    intro k hk
    refine ⟨cut_toRat_of_le (by omega), ?_⟩
    rw [cut_signed, from2.cut_abs, cutMag_div (by omega)]
  obtain ⟨heq, hz⟩ | ⟨hover, hw⟩ | ⟨k, hlt, h⟩ | ⟨k, hlt, h⟩ := doSub_spec h1 h2 hd
  · rw [hz]
    refine ⟨fun _ => ⟨DecimalT.decimalMakeZero_wf dest, ?_⟩, nofun, (DecimalT.decimalMakeZero_wf dest).words⟩
    rw [DecimalT.decimalMakeZero_toRat, signed_not, ← heq]
    exact (add_neg_cancel _).symm
  · exact addsTo_of_overflow hover hw
  · refine h.addsTo ?_ (hr k)
    rw [hl, cut_signed, from1.cut_abs, from2.cut_abs, signed_not,
      Nat.cast_sub (DecimalT.cutMag_mono hlt.le k), sub_div, signed_sub]
    ring
  · refine h.addsTo ?_ (hr k)
    rw [hl, cut_signed, from1.cut_abs, from2.cut_abs, signed_not,
      Nat.cast_sub (DecimalT.cutMag_mono hlt.le k), sub_div, signed_not, signed_sub]
    ring

/-- **Addition and subtraction are exact.**  Without an error, the result is well-formed and it is the sum
or the difference; if it is truncated, it is the one of the two numbers cut to the words that are kept.
Its words are always less than `DIG_BASE`. -/
theorem decimalAdd_decimalSub_exact (h1 : from1.WF) (h2 : from2.WF) {dest : DecimalT} (hd : 0 < dest.len) :
    AddsTo (decimalAdd from1 from2 dest) from1.toRat from2.toRat ∧
      AddsTo (decimalSub from1 from2 dest) from1.toRat (-from2.toRat) := by
  have hadd := doAdd_addsTo h1 h2 hd
  have hsub := doSub_addsTo h1 h2 hd
  have hr : from2.toRat = signed from2.sign from2.abs := rfl
  unfold decimalAdd decimalSub
  rw [hr]
  by_cases hs : from1.sign = from2.sign
  · rw [if_pos hs, if_pos hs, ← signed_not, ← hs]
    exact ⟨hadd, hsub⟩
  · have hn : from2.sign = !from1.sign := by
      cases h : from1.sign <;> cases h' : from2.sign <;> simp_all
    rw [if_neg hs, if_neg hs, ← signed_not, hn, Bool.not_not]
    exact ⟨hsub, hadd⟩

end interface

/-- `1.5`. -/
def oneAndHalf : DecimalT := ⟨1, 1, false, [1, 500000000]⟩

theorem oneAndHalf_wf : oneAndHalf.WF := ⟨by decide, by decide, by decide, by decide, by decide⟩

theorem decimalAdd_decimalSub_exact_oneAndHalf : oneAndHalf.WF ∧
    AddsTo (decimalAdd oneAndHalf oneAndHalf ⟨0, 0, false, [0, 0]⟩) oneAndHalf.toRat oneAndHalf.toRat ∧
    AddsTo (decimalSub oneAndHalf oneAndHalf ⟨0, 0, false, [0, 0]⟩) oneAndHalf.toRat (-oneAndHalf.toRat) :=
  ⟨oneAndHalf_wf, decimalAdd_decimalSub_exact oneAndHalf_wf oneAndHalf_wf (by decide)⟩

/-- In a buffer of one word, `1.5 + 1.5` is truncated to 2, and not to 3: the operands are cut before the
addition. -/
theorem decimalAdd_cuts_operands : (decimalAdd oneAndHalf oneAndHalf ⟨0, 0, false, [0]⟩).1 = .truncated ∧
      (decimalAdd oneAndHalf oneAndHalf ⟨0, 0, false, [0]⟩).2.toRat ≠
        cut (roundUp (decimalAdd oneAndHalf oneAndHalf ⟨0, 0, false, [0]⟩).2.frac)
          (oneAndHalf.toRat + oneAndHalf.toRat) := by
  have hr : decimalAdd oneAndHalf oneAndHalf ⟨0, 0, false, [0]⟩ = (.truncated, ⟨9, 0, false, [2]⟩) := by
    decide
  have hone : oneAndHalf.toRat = 3 / 2 := by
    norm_num [oneAndHalf, DecimalT.toRat, DecimalT.abs, DecimalT.mag, DecimalT.words, roundUp,
      digPerDec1, digBase, value_cons]
  have ht : (⟨9, 0, false, [2]⟩ : DecimalT).toRat = 2 := by
    norm_num [DecimalT.toRat, DecimalT.abs, DecimalT.mag, DecimalT.words, roundUp, digPerDec1, digBase, value_cons]
  refine ⟨by rw [hr], ?_⟩
  rw [hr, hone]
  simp only [ht]
  norm_num [cut, roundUp, digPerDec1]

end MySQLServer.Decimal
