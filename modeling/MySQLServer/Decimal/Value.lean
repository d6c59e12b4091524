import MySQLServer.Decimal.Basic

/-! # The number that a `decimal_t` stands for

A `decimal_t` is well-formed exactly if its words are less than `DIG_BASE` and its number without the
sign, in units of the last word, is less than `10^intg` units of the point and a multiple of the unit of
the last digit (`WF.mag_lt`, `WF.dvd_mag`, `WF.of_words`). -/

namespace MySQLServer.Decimal

open Lib List

theorem digBase_pow (n : ℕ) : digBase ^ n = 10 ^ (digPerDec1 * n) := by
  rw [digBase_eq, pow_mul]

theorem roundUp_le {x n : ℕ} : roundUp x ≤ n ↔ x ≤ n * digPerDec1 := by
  rw [roundUp_eq]
  unfold digPerDec1
  omega

theorem le_roundUp_mul (x : ℕ) : x ≤ roundUp x * digPerDec1 := roundUp_le.mp le_rfl

theorem roundUp_mono {x y : ℕ} (h : x ≤ y) : roundUp x ≤ roundUp y :=
  roundUp_le.mpr (h.trans (le_roundUp_mul y))

theorem roundUp_max (x y : ℕ) : roundUp (max x y) = max (roundUp x) (roundUp y) := by
  rcases le_total x y with h | h
  · rw [max_eq_right h, max_eq_right (roundUp_mono h)]
  · rw [max_eq_left h, max_eq_left (roundUp_mono h)]

theorem roundUp_eq_zero {x : ℕ} : roundUp x = 0 ↔ x = 0 := by
  rw [roundUp_eq]
  omega

theorem roundUp_mul_add (n x : ℕ) : roundUp (n * digPerDec1 + x) = n + roundUp x := by
  rw [roundUp_eq, roundUp_eq]
  unfold digPerDec1
  omega

theorem roundUp_eq_succ {x : ℕ} (h : 0 < x) : roundUp x = roundUp (x - digPerDec1) + 1 := by
  rw [roundUp_eq, roundUp_eq]
  unfold digPerDec1
  omega

/-- The digits of the words that are not used are behind the others. -/
theorem digBase_pow_roundUp (x : ℕ) : digBase ^ roundUp x = 10 ^ x * 10 ^ (digPerDec1 * roundUp x - x) := by
  rw [digBase_pow, ← pow_add, Nat.add_sub_cancel' (mul_comm _ digPerDec1 ▸ le_roundUp_mul x)]

theorem digBase_pow_pos (n : ℕ) : (0 : ℚ) < (digBase : ℚ) ^ n := by
  apply pow_pos
  exact_mod_cast digBase_pos

namespace DecimalT
variable {d : DecimalT}

theorem abs_nonneg (d : DecimalT) : 0 ≤ d.abs := by
  exact div_nonneg (Nat.cast_nonneg _) (digBase_pow_pos _).le

theorem length_words (h : roundUp d.intg + roundUp d.frac ≤ d.len) :
    d.words.length = roundUp d.intg + roundUp d.frac := by
  unfold words
  rw [length_take]
  unfold len at h
  omega

theorem WF.length_words (h : d.WF) : d.words.length = roundUp d.intg + roundUp d.frac :=
  DecimalT.length_words h.fits

theorem take_words {n : ℕ} (hn : n ≤ roundUp d.intg + roundUp d.frac) : d.words.take n = d.buf.take n := by
  unfold words
  rw [take_take, Nat.min_eq_left hn]

theorem WF.words_take (h : d.WF) {n : ℕ} (hn : n ≤ roundUp d.intg + roundUp d.frac) : Words digBase (d.buf.take n) := by
  rw [← take_words hn]
  exact h.words.take n

/-- The first digits are before the point. -/
theorem WF.mag_lt (h : d.WF) : d.mag < 10 ^ d.intg * digBase ^ roundUp d.frac := by
  unfold mag
  have hlen := h.length_words
  by_cases hm : d.intg % digPerDec1 = 0
  · have hlt := h.words.value_lt
    have hintg : d.intg = digPerDec1 * roundUp d.intg := by
      rw [roundUp_eq]
      unfold digPerDec1 at hm ⊢
      omega
    rw [hlen, pow_add] at hlt
    have hp : 10 ^ d.intg = digBase ^ roundUp d.intg := by
      rw [digBase_pow, ← hintg]
    rw [hp]
    exact hlt
  · obtain ⟨n, hn⟩ : ∃ n, roundUp d.intg = n + 1 := by
      refine ⟨d.intg / digPerDec1, ?_⟩
      rw [roundUp_eq]
      unfold digPerDec1 at hm ⊢
      omega
    have hl := h.lead hm
    have hf := h.fits
    have hw := h.words
    unfold DecimalT.words at hw ⊢
    have hs : roundUp d.intg + roundUp d.frac = n + roundUp d.frac + 1 := by omega
    rw [hs] at hw hf ⊢
    have hlt := hw.value_lt_head hf
    have hintg : d.intg = d.intg % digPerDec1 + digPerDec1 * n := by
      rw [roundUp_eq] at hn
      unfold digPerDec1 at hm ⊢
      omega
    calc value digBase (d.buf.take (n + roundUp d.frac + 1))
        < (d.buf.headD 0 + 1) * digBase ^ (n + roundUp d.frac) := hlt
      _ ≤ 10 ^ (d.intg % digPerDec1) * digBase ^ (n + roundUp d.frac) := Nat.mul_le_mul_right _ hl
      _ = 10 ^ d.intg * digBase ^ roundUp d.frac := by
          rw [pow_add digBase, ← mul_assoc, digBase_pow n, ← pow_add, ← hintg]

theorem mag_eq (h : roundUp d.intg + roundUp d.frac ≤ d.len) :
    d.mag = value digBase (d.buf.take (roundUp d.intg)) * digBase ^ roundUp d.frac +
      value digBase ((d.buf.drop (roundUp d.intg)).take (roundUp d.frac)) := by
  have hs := value_take_add_drop digBase d.words (roundUp d.intg)
  rw [take_words (Nat.le_add_right _ _), length_words h, Nat.add_sub_cancel_left] at hs
  unfold mag
  rw [hs]
  unfold words
  rw [drop_take, Nat.add_sub_cancel_left]

/-- The words before the point. -/
theorem WF.intg_lt (h : d.WF) : value digBase (d.buf.take (roundUp d.intg)) < 10 ^ d.intg := by
  have hlt := h.mag_lt
  rw [mag_eq h.fits] at hlt
  exact Nat.lt_of_mul_lt_mul_right (lt_of_le_of_lt (Nat.le_add_right _ _) hlt)

/-- The last digits are after the point. -/
theorem WF.dvd_mag (h : d.WF) : 10 ^ (digPerDec1 * roundUp d.frac - d.frac) ∣ d.mag := by
  by_cases hm : d.frac % digPerDec1 = 0
  · have hz : digPerDec1 * roundUp d.frac - d.frac = 0 := by
      rw [roundUp_eq]
      unfold digPerDec1 at hm ⊢
      omega
    rw [hz, pow_zero]
    exact one_dvd _
  · obtain ⟨n, hn⟩ : ∃ n, roundUp d.intg + roundUp d.frac = n + 1 := by
      refine ⟨roundUp d.intg + d.frac / digPerDec1, ?_⟩
      rw [roundUp_eq d.frac]
      unfold digPerDec1 at hm ⊢
      omega
    have hexp : digPerDec1 * roundUp d.frac - d.frac = digPerDec1 - d.frac % digPerDec1 := by
      rw [roundUp_eq]
      unfold digPerDec1 at hm ⊢
      omega
    have ht := h.tail hm
    have hf := h.fits
    rw [hn] at ht hf
    unfold mag DecimalT.words
    rw [hexp, hn, take_add_one, getElem?_eq_getElem hf, Option.toList_some, value_append,
      length_singleton, pow_one, value_singleton]
    rw [Nat.add_sub_cancel, getD_eq_getElem?_getD, getElem?_eq_getElem hf, Option.getD_some] at ht
    have hb : 10 ^ (digPerDec1 - d.frac % digPerDec1) ∣ digBase := by
      rw [digBase_eq]
      exact pow_dvd_pow 10 (Nat.sub_le _ _)
    exact dvd_add (hb.mul_left _) ht

/-- A number with the words `ws`. -/
theorem words_append {intg frac : ℕ} {sign : Bool} {ws rest : List ℕ} (hl : ws.length = roundUp intg + roundUp frac) :
    (⟨intg, frac, sign, ws ++ rest⟩ : DecimalT).words = ws := by
  unfold words
  rw [← hl, take_left]

/-- Conversely, these conditions make a number well-formed. -/
theorem WF.of_words {intg frac : ℕ} {sign : Bool} {ws rest : List ℕ}
    (hlen : ws.length = roundUp intg + roundUp frac) (hp : 0 < (ws ++ rest).length)
    (hw : Words digBase ws) (hl : value digBase ws < 10 ^ intg * digBase ^ roundUp frac)
    (hd : 10 ^ (digPerDec1 * roundUp frac - frac) ∣ value digBase ws) : WF ⟨intg, frac, sign, ws ++ rest⟩ where
  len_pos := hp
  fits := by
    simp only [len, length_append]
    omega
  words := by
    rw [words_append hlen]
    exact hw
  lead hmod := by
    simp only at hmod ⊢
    cases ws with
    | nil =>
      rw [length_nil, roundUp_eq intg] at hlen
      unfold digPerDec1 at hmod
      omega
    | cons w ws =>
      rw [cons_append, headD_cons]
      have hr : ws.length + 1 = roundUp intg + roundUp frac := hlen
      have hintg : intg = intg % digPerDec1 + digPerDec1 * (roundUp intg - 1) := by
        rw [roundUp_eq]
        unfold digPerDec1 at hmod ⊢
        omega
      have hone : 1 ≤ roundUp intg := by
        rw [roundUp_eq]
        omega
      have hs : ws.length = roundUp intg - 1 + roundUp frac := by omega
      have hpow : 10 ^ intg * digBase ^ roundUp frac =
          10 ^ (intg % digPerDec1) * digBase ^ ws.length := by
        rw [hs, pow_add digBase, ← mul_assoc, digBase_pow (roundUp intg - 1), ← pow_add, ← hintg]
      rw [value_cons, hpow] at hl
      exact Nat.lt_of_mul_lt_mul_right (lt_of_le_of_lt (Nat.le_add_right _ _) hl)
  tail hmod := by
    simp only at hmod ⊢
    rcases eq_nil_or_concat' ws with rfl | ⟨us, w, rfl⟩
    · rw [length_nil, roundUp_eq frac] at hlen
      unfold digPerDec1 at hmod
      omega
    · have hlast : roundUp intg + roundUp frac - 1 = us.length := by
        rw [← hlen, length_append, length_singleton, Nat.add_sub_cancel]
      have hexp : digPerDec1 * roundUp frac - frac = digPerDec1 - frac % digPerDec1 := by
        rw [roundUp_eq]
        unfold digPerDec1 at hmod ⊢
        omega
      have hb : 10 ^ (digPerDec1 - frac % digPerDec1) ∣ digBase := by
        rw [digBase_eq]
        exact pow_dvd_pow 10 (Nat.sub_le _ _)
      rw [hexp, value_append, length_singleton, pow_one, value_singleton] at hd
      have hg : (us ++ [w] ++ rest).getD us.length 0 = w := by
        simp [getD_eq_getElem?_getD]
      rw [hlast, hg]
      exact (Nat.dvd_add_right (hb.mul_left _)).mp hd

/-- A number whose first word has all its digits. -/
theorem of_whole {n frac : ℕ} {ws : List ℕ} (hl : ws.length = n + roundUp frac) (hw : Words digBase ws)
    (sign : Bool) (rest : List ℕ) : mag ⟨n * digPerDec1, frac, sign, ws ++ rest⟩ = value digBase ws ∧
      (0 < (ws ++ rest).length → 10 ^ (digPerDec1 * roundUp frac - frac) ∣ value digBase ws →
        WF ⟨n * digPerDec1, frac, sign, ws ++ rest⟩) := by
  have hlt := hw.value_lt
  rw [hl, pow_add, digBase_pow n, mul_comm digPerDec1] at hlt
  rw [← roundUp_mul n] at hl
  exact ⟨congrArg _ (words_append hl), fun hp => WF.of_words hl hp hw hlt⟩

theorem decimalMakeZero_wf (dest : DecimalT) : (decimalMakeZero dest).WF :=
  @WF.of_words 1 0 false [0] _ rfl (by simp) (by decide) (by decide) (dvd_zero _)

theorem decimalMakeZero_mag (dest : DecimalT) : (decimalMakeZero dest).mag = 0 := by
  unfold mag
  rw [show (decimalMakeZero dest).words = [0] from @words_append 1 0 false [0] _ rfl]
  rfl

theorem decimalMakeZero_toRat (dest : DecimalT) : (decimalMakeZero dest).toRat = 0 := by
  unfold toRat abs
  rw [decimalMakeZero_mag]
  simp [decimalMakeZero]

/-! ### Cutting digits off -/

/-- The number without its sign, cut to `k` words after the point, in units of the last one. -/
def cutMag (d : DecimalT) (k : ℕ) : ℕ := d.mag * digBase ^ k / digBase ^ roundUp d.frac

theorem cutMag_of_le {k : ℕ} (hk : roundUp d.frac ≤ k) : d.cutMag k = d.mag * digBase ^ (k - roundUp d.frac) := by
  have hp : digBase ^ k = digBase ^ (k - roundUp d.frac) * digBase ^ roundUp d.frac := by
    rw [← pow_add, Nat.sub_add_cancel hk]
  unfold cutMag
  rw [hp, ← mul_assoc, Nat.mul_div_cancel _ (pow_pos digBase_pos _)]

theorem cutMag_eq_floor (d : DecimalT) (k : ℕ) : d.cutMag k = ⌊d.abs * digBase ^ k⌋₊ := by
  unfold cutMag abs
  have h : (d.mag : ℚ) / digBase ^ roundUp d.frac * digBase ^ k =
      ((d.mag * digBase ^ k : ℕ) : ℚ) / ((digBase ^ roundUp d.frac : ℕ) : ℚ) := by
    push_cast
    ring
  rw [h, Nat.floor_div_eq_div]

theorem cutMag_mono {a b : DecimalT} (h : a.abs ≤ b.abs) (k : ℕ) : a.cutMag k ≤ b.cutMag k := by
  rw [cutMag_eq_floor, cutMag_eq_floor]
  exact Nat.floor_mono (mul_le_mul_of_nonneg_right h (digBase_pow_pos k).le)

/-- Cutting a number leaves its first words. -/
theorem WF.cutMag_eq (h : d.WF) (k : ℕ) :
    d.cutMag k = value digBase (d.buf.take (roundUp d.intg + min (roundUp d.frac) k)) *
      digBase ^ (k - min (roundUp d.frac) k) := by
  rcases le_total (roundUp d.frac) k with hk | hk
  · rw [min_eq_left hk, cutMag_of_le hk]
    rfl
  · have hp : digBase ^ roundUp d.frac = digBase ^ (roundUp d.frac - k) * digBase ^ k := by
      rw [← pow_add, Nat.sub_add_cancel hk]
    have ht : d.words.take (roundUp d.intg + k) = d.buf.take (roundUp d.intg + k) :=
      take_words (by omega)
    have hl : d.words.length - (roundUp d.intg + k) = roundUp d.frac - k := by
      rw [h.length_words]
      omega
    rw [min_eq_right hk, Nat.sub_self, pow_zero, mul_one, ← ht, h.words.value_take, hl]
    unfold cutMag
    rw [hp, Nat.mul_div_mul_right _ _ (pow_pos digBase_pos k)]
    rfl

theorem WF.cutMag_lt (h : d.WF) (k : ℕ) : d.cutMag k < digBase ^ (roundUp d.intg + k) := by
  unfold cutMag
  rw [Nat.div_lt_iff_lt_mul (pow_pos digBase_pos _), ← pow_add]
  have hlt := h.words.value_lt
  rw [h.length_words] at hlt
  calc d.mag * digBase ^ k < digBase ^ (roundUp d.intg + roundUp d.frac) * digBase ^ k :=
        Nat.mul_lt_mul_of_pos_right hlt (pow_pos digBase_pos k)
    _ = digBase ^ (roundUp d.intg + k + roundUp d.frac) := by
        rw [← pow_add]
        congr 1
        omega

/-- The first word tells how great the number can be. -/
theorem WF.cutMag_lt_head (h : d.WF) {k n : ℕ} (hn : roundUp d.intg + min (roundUp d.frac) k = n + 1) :
    d.cutMag k < (d.buf.headD 0 + 1) * digBase ^ (roundUp d.intg + k - 1) := by
  have hf := h.fits
  unfold len at hf
  have hw : Words digBase (d.buf.take (n + 1)) := h.words_take (by omega)
  have hlt := hw.value_lt_head (by omega)
  have hexp : roundUp d.intg + k - 1 = n + (k - min (roundUp d.frac) k) := by omega
  rw [h.cutMag_eq, hn, hexp, pow_add, ← mul_assoc]
  exact Nat.mul_lt_mul_of_pos_right hlt (pow_pos digBase_pos _)

end DecimalT

/-- A number cut to `k` words after the point. -/
def cut (k : ℕ) (x : ℚ) : ℚ :=
  (if 0 ≤ x then (⌊x * digBase ^ k⌋ : ℚ) else ⌈x * digBase ^ k⌉) / digBase ^ k

theorem cut_neg (k : ℕ) (x : ℚ) : cut k (-x) = -cut k x := by
  unfold cut
  rcases lt_trichotomy x 0 with h | rfl | h
  · rw [if_pos (by linarith), if_neg (by linarith), neg_mul, Int.floor_neg]
    push_cast
    ring
  · simp
  · rw [if_neg (by linarith), if_pos h.le, neg_mul, Int.ceil_neg]
    push_cast
    ring

theorem DecimalT.cut_abs (d : DecimalT) (k : ℕ) : cut k d.abs = d.cutMag k / digBase ^ k := by
  have hn : 0 ≤ d.abs * digBase ^ k := mul_nonneg d.abs_nonneg (digBase_pow_pos k).le
  unfold cut
  rw [if_pos d.abs_nonneg, cutMag_eq_floor, ← Int.natCast_floor_eq_floor hn, Int.cast_natCast]

end MySQLServer.Decimal
