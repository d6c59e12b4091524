import MySQLServer.Decimal.SubExact
import MySQLServer.Decimal.DivSetup

/-! # The result of a division

In a buffer that is long enough, `decimal_div` is the quotient of its operands, cut after the words that it
computes (`decimalDiv_exact`). -/

namespace MySQLServer.Decimal

open Lib List

/-- The words of a quotient after the point: `ROUND_UP(frac1+frac2+scale_incr)`, where the digits that the
words of the operands already have more than the operands are subtracted from `scaleIncr`. -/
def quotFrac (from1 from2 : DecimalT) (scaleIncr : ℕ) : ℕ :=
  let frac1 := roundUp from1.frac * digPerDec1
  let frac2 := roundUp from2.frac * digPerDec1
  roundUp (frac1 + frac2 + (scaleIncr - (frac1 - from1.frac + (frac2 - from2.frac))))

section result
variable {from1 from2 dest : DecimalT} {u : DivSetup}

/-- The words that are written: those of the quotient, and zeroes behind them. -/
theorem SetupSpec.out_words (h : SetupSpec from1 from2 u) {len : ℕ} (hlen : u.intg0 + u.frac0 ≤ len) :
    ∃ ws n, replicate (min u.lead len) 0 ++
        (divLoop u.start2 (u.intg0 + u.frac0 - min u.lead len) u.init).1 = ws ++ replicate n 0 ∧
      ws.length = u.intg0 + u.frac0 ∧ Words digBase ws ∧
      value digBase ws = ⌊from1.abs / from2.abs * digBase ^ u.frac0⌋₊ := by
  have hintg := h.intg0
  have hlead := h.lead
  have hr := h.room
  have hz := words_replicate_zero digBase_pos
  rw [h.floor (le_refl u.frac0)]
  by_cases hn : quotWords from1 from2 + u.frac0 < 0
  · refine ⟨replicate (u.intg0 + u.frac0) 0, min u.lead len - (u.intg0 + u.frac0), ?_, length_replicate, hz _, ?_⟩
    · rw [show u.intg0 + u.frac0 - min u.lead len = 0 by omega, divLoop, append_nil,
        replicate_append_replicate]
      congr 1
      omega
    · rw [Int.toNat_of_nonpos hn.le, value_replicate_zero]
      rfl
  · have hc : u.intg0 + u.frac0 - min u.lead len = (quotWords from1 from2 + u.frac0).toNat := by omega
    rw [← hc]
    obtain ⟨hl, hw, -⟩ := divLoop_spec (k := u.intg0 + u.frac0 - min u.lead len) h.divisor h.rem (by omega)
    refine ⟨_, 0, (append_nil _).symm, ?_, words_append.mpr ⟨hz _, hw⟩, ?_⟩
    · rw [length_append, length_replicate, hl]
      omega
    · rw [value_append, value_replicate_zero, zero_mul, zero_add]

theorem SetupSpec.divResult_spec (h : SetupSpec from1 from2 u) (hd : 0 < dest.len)
    (hlen : u.intg0 + u.frac0 ≤ dest.len) :
    (divResult from1 from2 dest u).1 = .ok ∧ (divResult from1 from2 dest u).2.WF ∧
      (divResult from1 from2 dest u).2.frac = u.frac0 * digPerDec1 ∧
      (divResult from1 from2 dest u).2.sign = (from1.sign != from2.sign) ∧
      (divResult from1 from2 dest u).2.mag = ⌊from1.abs / from2.abs * digBase ^ u.frac0⌋₊ := by
  have hf : fixIntgFracError dest.len u.intg0 u.frac0 = (u.intg0, u.frac0, .ok) := by
    exact if_neg (by omega)
  obtain ⟨ws, n, hout, hl, hw, hv⟩ := h.out_words hlen
  nth_rewrite 1 [← roundUp_mul u.frac0] at hl
  obtain ⟨hm, hwf⟩ := DecimalT.of_whole hl hw (from1.sign != from2.sign)
    (replicate n 0 ++ dest.buf.drop (ws ++ replicate n 0).length)
  rw [roundUp_mul, mul_comm, Nat.sub_self, pow_zero] at hwf
  unfold divResult divCount
  simp only [hf]
  rw [hout, append_assoc]
  refine ⟨trivial, hwf ?_ (one_dvd _), trivial, trivial, hm.trans hv⟩
  unfold DecimalT.len at hd
  simp only [length_append, length_drop]
  omega

theorem cut_of_nonneg {x : ℚ} (hx : 0 ≤ x) (k : ℕ) : cut k x = (⌊x * digBase ^ k⌋₊ : ℚ) / digBase ^ k := by
  unfold cut
  rw [if_pos hx, ← Int.natCast_floor_eq_floor (mul_nonneg hx (digBase_pow_pos k).le), Int.cast_natCast]

theorem DecimalT.mag_eq_zero {d : DecimalT} : d.mag = 0 ↔ d.toRat = 0 := by
  have hp := (digBase_pow_pos (roundUp d.frac)).ne'
  have habs : d.abs = 0 ↔ d.mag = 0 := by
    unfold abs
    rw [div_eq_zero_iff, or_iff_left hp, Nat.cast_eq_zero]
  unfold toRat
  rw [← habs]
  split
  · rw [neg_eq_zero]
  · rfl

/-- What is proved of a division.  If the dividend is 0, no guess is made and the result is 0 without a
sign. -/
structure Divides (from1 from2 dest : DecimalT) (scaleIncr : ℕ) : Prop where
  ok : (decimalDiv from1 from2 dest scaleIncr).1 = .ok
  wf : (decimalDiv from1 from2 dest scaleIncr).2.WF
  toRat : (decimalDiv from1 from2 dest scaleIncr).2.toRat =
    signed (from1.sign != from2.sign) (cut (quotFrac from1 from2 scaleIncr) (from1.abs / from2.abs))
  sign : from1.toRat ≠ 0 → (decimalDiv from1 from2 dest scaleIncr).2.sign = (from1.sign != from2.sign)
  guess : from1.toRat ≠ 0 → ∀ i < divCount (divSetup from1 from2 scaleIncr) dest.len,
    GuessOk (divSetup from1 from2 scaleIncr).start2
      (divLoop (divSetup from1 from2 scaleIncr).start2 i (divSetup from1 from2 scaleIncr).init).2

theorem SetupSpec.count_le (h : SetupSpec from1 from2 u) {len : ℕ} (hlen : u.intg0 + u.frac0 ≤ len) :
    divCount u len = 0 ∨ u.start2.length + divCount u len ≤ u.init.start1.length := by
  have hf : fixIntgFracError len u.intg0 u.frac0 = (u.intg0, u.frac0, .ok) := by
    exact if_neg (by omega)
  have hr := h.room
  have hin := h.intg0
  have hl := h.lead
  unfold divCount
  simp only [hf]
  omega

/-- **The quotient.**  If the result has room for it, `decimal_div` computes the quotient of its operands,
truncated toward zero after the words that it has after the point, and all its guesses are right. -/
theorem decimalDiv_exact (h1 : from1.WF) (h2 : from2.WF) (hne : from2.toRat ≠ 0) (hd : 0 < dest.len)
    (scaleIncr : ℕ) (hfix : from1.toRat ≠ 0 → (fixIntgFracError dest.len (divSetup from1 from2 scaleIncr).intg0
        (divSetup from1 from2 scaleIncr).frac0).2.2 = .ok) : Divides from1 from2 dest scaleIncr := by
  have hm2 : from2.mag ≠ 0 := fun h => hne (DecimalT.mag_eq_zero.mp h)
  have hdiv : (leadingDigits from2).1 ≠ 0 := fun h => hm2 ((leadingDigits_eq_zero h2).mp h)
  by_cases hz : from1.toRat = 0
  · have hm1 := DecimalT.mag_eq_zero.mpr hz
    have hr : decimalDiv from1 from2 dest scaleIncr = (.ok, decimalMakeZero dest) := by
      unfold decimalDiv doDivMod
      rw [if_neg hdiv, if_pos ((leadingDigits_eq_zero h1).mpr hm1)]
    have habs : from1.abs = 0 := by
      unfold DecimalT.abs
      rw [hm1, Nat.cast_zero, zero_div]
    refine ⟨?_, ?_, ?_, fun h => absurd hz h, fun h => absurd hz h⟩
    · rw [hr]
    · rw [hr]
      exact DecimalT.decimalMakeZero_wf dest
    · rw [hr, DecimalT.decimalMakeZero_toRat, habs, zero_div, cut_of_nonneg le_rfl, zero_mul, Nat.floor_zero,
        Nat.cast_zero, zero_div]
      cases from1.sign != from2.sign <;> simp [signed]
  · have hm1 : from1.mag ≠ 0 := fun h => hz (DecimalT.mag_eq_zero.mp h)
    have hspec := divSetup_spec h1 h2 hm1 hm2 scaleIncr
    set u := divSetup from1 from2 scaleIncr
    have hr : decimalDiv from1 from2 dest scaleIncr = divResult from1 from2 dest u := by
      unfold decimalDiv doDivMod
      rw [if_neg hdiv, if_neg fun h => hm1 ((leadingDigits_eq_zero h1).mp h)]
      rfl
    have hfrac : u.frac0 = quotFrac from1 from2 scaleIncr := rfl
    have hl : u.intg0 + u.frac0 ≤ dest.len := by
      have hok := hfix hz
      obtain ⟨hle, -⟩ | ⟨-, -, heq⟩ | ⟨-, heq⟩ := fixIntgFracError_cases dest.len u.intg0 u.frac0
      · exact hle
      · rw [heq] at hok
        cases hok
      · rw [heq] at hok
        cases hok
    obtain ⟨hok, hwf, hf, hs, hm⟩ := hspec.divResult_spec hd hl
    have hq : 0 ≤ from1.abs / from2.abs := div_nonneg from1.abs_nonneg from2.abs_nonneg
    refine ⟨?_, ?_, ?_, fun _ => ?_, fun _ i hi => ?_⟩
    · rw [hr, hok]
    · rw [hr]
      exact hwf
    · rw [hr, cut_of_nonneg hq, ← hfrac, ← hm, ← hs]
      unfold DecimalT.toRat DecimalT.abs signed
      rw [hf, roundUp_mul]
    · rw [hr, hs]
    · obtain hc | hc := hspec.count_le hl
      · exact absurd hi (hc ▸ Nat.not_lt_zero i)
      · obtain ⟨-, -, -, -, -, hg⟩ := divLoop_spec hspec.divisor hspec.rem hc
        exact hg i hi

end result

/-- 1.5 divided by itself. -/
theorem decimalDiv_exact_oneAndHalf : oneAndHalf.WF ∧ Divides oneAndHalf oneAndHalf ⟨0, 0, false, [0, 0, 0, 0]⟩ 4 :=
  ⟨oneAndHalf_wf, decimalDiv_exact oneAndHalf_wf oneAndHalf_wf
    (fun h => absurd (DecimalT.mag_eq_zero.mpr h) (by decide)) (by decide) 4 (fun _ => by decide)⟩

end MySQLServer.Decimal
