import MySQLServer.Decimal.BinOrder

/-! # Reading a decimal number back

`bin2decimal` reads the digits that `decimal2bin` has stored (`readDecimal_spec`), so that the number is the
same. -/

namespace MySQLServer.Decimal

open Lib List Option

/-! ### Signed numbers -/

/-- A signed number that has been inverted together with its sign. -/
theorem miSintKorr_invert {neg : Bool} {n w : ℕ} {rest : List ℕ} (hn : 0 < n) (hn4 : n ≤ 4) (hw : 2 * w < 256 ^ n) :
    miSintKorr n ((fixedWords 256 n w ++ rest).map (invert neg)) ^^^ maskOf neg = BitVec.ofNat 32 w := by
  have hp : 256 ^ n = 2 ^ (8 * n) := by
    rw [pow_mul]
    norm_num
  have hlt : w < 2 ^ (8 * n) := by omega
  have ht : ((fixedWords 256 n w ++ rest).map (invert neg)).take n = (fixedWords 256 n w).map (invert neg) := by
    rw [map_append, take_append_of_le_length (by simp), take_of_length_le (by simp)]
  have hm : (BitVec.ofNat (8 * n) w).msb = false := by
    rw [BitVec.msb_eq_false_iff_two_mul_lt, BitVec.toNat_ofNat, Nat.mod_eq_of_lt hlt, ← hp]
    exact hw
  have hext : (BitVec.ofNat (8 * n) w).signExtend 32 = BitVec.ofNat 32 w := by
    rw [BitVec.signExtend_eq_setWidth_of_msb_false hm]
    apply BitVec.eq_of_toNat_eq
    rw [BitVec.toNat_setWidth, BitVec.toNat_ofNat, BitVec.toNat_ofNat, Nat.mod_eq_of_lt hlt]
  unfold miSintKorr
  rw [ht]
  cases neg with
  | false =>
    have hid : (fixedWords 256 n w).map (invert false) = fixedWords 256 n w := List.map_id _
    rw [hid, value_fixedWords_of_lt (by omega), hext]
    exact BitVec.xor_zero
  | true =>
    have hv : value 256 ((fixedWords 256 n w).map (invert true)) = 2 ^ (8 * n) - 1 - w := by
      have hc := value_map_compl (words_fixedWords (show 0 < 256 by decide) n w)
      rw [value_fixedWords_of_lt (by omega), length_fixedWords, hp] at hc
      change value 256 ((fixedWords 256 n w).map (256 - 1 - ·)) = _
      omega
    have hnot : BitVec.ofNat (8 * n) (2 ^ (8 * n) - 1 - w) = ~~~ BitVec.ofNat (8 * n) w := by
      apply BitVec.eq_of_toNat_eq
      rw [BitVec.toNat_not, BitVec.toNat_ofNat, BitVec.toNat_ofNat, Nat.mod_eq_of_lt hlt, Nat.mod_eq_of_lt (by omega)]
    rw [hv, hnot, BitVec.signExtend_not (by omega), hext, show maskOf true = BitVec.allOnes 32 from rfl,
      BitVec.xor_allOnes, BitVec.not_not]

theorem toNat_miSintKorr {neg : Bool} {n w : ℕ} {rest : List ℕ} (hn : 0 < n) (hn4 : n ≤ 4) (hw : 2 * w < 256 ^ n) :
    (miSintKorr n ((fixedWords 256 n w ++ rest).map (invert neg)) ^^^ maskOf neg).toNat = w := by
  have hp : 256 ^ n ≤ 256 ^ 4 := Nat.pow_le_pow_right (by decide) hn4
  rw [miSintKorr_invert hn hn4 hw, BitVec.toNat_ofNat, Nat.mod_eq_of_lt (by omega)]

theorem drop_map_fixedWords {neg : Bool} {n w : ℕ} {rest : List ℕ} :
    ((fixedWords 256 n w ++ rest).map (invert neg)).drop n = rest.map (invert neg) := by
  rw [map_append, drop_append_of_le_length (by simp), drop_of_length_le (by simp),
    nil_append]

/-! ### The loops -/

theorem not_gt_digMax {w : ℕ} (h : w < digBase) : ¬ w > digMax := by
  unfold digMax
  omega

section loops
variable {neg : Bool} {ws rest : List ℕ}

theorem toNat_miSintKorr_four {w : ℕ} (h : w < digBase) :
    (miSintKorr 4 ((fixedWords 256 4 w ++ rest).map (invert neg)) ^^^ maskOf neg).toNat = w := by
  apply toNat_miSintKorr (by decide) le_rfl
  unfold digBase at h
  omega

theorem readFrac_spec (hw : Words digBase ws) (buf : List ℕ) :
    readFrac (maskOf neg) ws.length ((ws.flatMap (fixedWords 256 4) ++ rest).map (invert neg)) buf =
      some (buf ++ ws, rest.map (invert neg)) := by
  induction ws generalizing buf with
  | nil => simp [readFrac]
  | cons w ws ih =>
    rw [words_cons] at hw
    rw [length_cons, readFrac, flatMap_cons, append_assoc]
    simp only [toNat_miSintKorr_four hw.1, drop_map_fixedWords]
    rw [if_neg (not_gt_digMax hw.1), ih hw.2, append_assoc]
    rfl

theorem readIntg_of_ne_nil (hw : Words digBase ws) {intg : ℕ} {buf : List ℕ} (hne : buf ≠ []) :
    readIntg (maskOf neg) ws.length ((ws.flatMap (fixedWords 256 4) ++ rest).map (invert neg)) intg buf =
      some (intg, buf ++ ws, rest.map (invert neg)) := by
  induction ws generalizing buf with
  | nil => simp [readIntg]
  | cons w ws ih =>
    rw [words_cons] at hw
    rw [length_cons, readIntg, flatMap_cons, append_assoc]
    simp only [toNat_miSintKorr_four hw.1, drop_map_fixedWords]
    rw [if_neg (not_gt_digMax hw.1), if_pos (.inl hne), ih hw.2 (by simp), append_assoc]
    rfl

theorem readIntg_nil (hw : Words digBase ws) :
    ∃ us, readIntg (maskOf neg) ws.length ((ws.flatMap (fixedWords 256 4) ++ rest).map (invert neg))
        (ws.length * digPerDec1) [] = some (us.length * digPerDec1, us, rest.map (invert neg)) ∧
      value digBase us = value digBase ws := by
  induction ws with
  | nil => exact ⟨[], by simp [readIntg], rfl⟩
  | cons w ws ih =>
    rw [words_cons] at hw
    rw [length_cons, readIntg, flatMap_cons, append_assoc]
    simp only [toNat_miSintKorr_four hw.1, drop_map_fixedWords]
    rw [if_neg (not_gt_digMax hw.1)]
    by_cases hz : w = 0
    · obtain ⟨us, hr, hv⟩ := ih hw.2
      refine ⟨us, ?_, by rw [hv, value_cons, hz, zero_mul, zero_add]⟩
      rw [if_neg (by simp [hz]), Nat.succ_mul, Nat.add_sub_cancel, hr]
    · refine ⟨w :: ws, ?_, rfl⟩
      rw [if_pos (.inr hz), readIntg_of_ne_nil hw.2 (by simp)]
      rfl

/-- The words before the point: the first digits and the full words. -/
theorem readFirst_readIntg {x first : ℕ} (hx : x < digPerDec1) (hf : first < 10 ^ x) (hw : Words digBase ws) :
    ∃ intg us, (readFirst (maskOf neg) x ((fixedWords 256 (dig2bytes x) first ++
          (ws.flatMap (fixedWords 256 4) ++ rest)).map (invert neg)) (ws.length * digPerDec1 + x)).bind
        (fun r => readIntg (maskOf neg) ws.length r.2.2 r.1 r.2.1) = some (intg, us, rest.map (invert neg)) ∧
      us.length = roundUp intg ∧ value digBase us = value digBase (first :: ws) := by
  obtain ⟨us, hread, hv⟩ := @readIntg_nil neg ws rest hw
  have hr : us.length = roundUp (us.length * digPerDec1) := (roundUp_mul _).symm
  unfold readFirst
  by_cases hx0 : x = 0
  · have hz : first = 0 := by
      rw [hx0, pow_zero] at hf
      omega
    rw [if_neg (by simpa using hx0), hx0, hz]
    exact ⟨_, us, hread, hr, by rw [hv, value_cons, zero_mul, zero_add]⟩
  · have hb := (pow_le_dig2bytes (hx.trans (Nat.lt_succ_self _))).resolve_right hx0
    have hp := dig2bytes_pos hx0 (hx.trans (Nat.lt_succ_self _))
    have hs : 2 * first < 256 ^ dig2bytes x := by omega
    have hfour : 256 ^ dig2bytes x ≤ 256 ^ 4 := Nat.pow_le_pow_right (by decide) (dig2bytes_le x)
    rw [if_pos (by simpa using hx0)]
    simp only [miSintKorr_invert hp (dig2bytes_le x) hs, drop_map_fixedWords]
    have hn : (BitVec.ofNat 32 first).toNat = first := by
      rw [BitVec.toNat_ofNat, Nat.mod_eq_of_lt (by omega)]
    have hm : (BitVec.ofNat 32 first).msb = false := by
      rw [BitVec.msb_eq_false_iff_two_mul_lt, hn]
      omega
    have hext : ((BitVec.ofNat 32 first).signExtend 64).toNat = first := by
      rw [BitVec.signExtend_eq_setWidth_of_msb_false hm, BitVec.toNat_setWidth, hn, Nat.mod_eq_of_lt (by omega)]
    have hc : ¬ first ≥ powers10 (x + 1) := by
      unfold powers10
      rw [pow_succ]
      omega
    rw [hext, if_neg hc, hn]
    by_cases hz : first = 0
    · rw [if_neg (by simpa using hz), Nat.add_sub_cancel, hz]
      exact ⟨_, us, hread, hr, by rw [hv, value_cons, zero_mul, zero_add]⟩
    · rw [if_pos hz]
      refine ⟨_, _, readIntg_of_ne_nil hw (by simp), ?_, rfl⟩
      rw [length_append, length_singleton, roundUp_eq]
      unfold digPerDec1 at hx ⊢
      omega

theorem readLast_spec {x last : ℕ} (hx : x < digPerDec1) (hl : last < 10 ^ x) (buf : List ℕ) :
    ∃ us, readLast (maskOf neg) x ((fixedWords 256 (dig2bytes x) last).map (invert neg)) buf = some (buf ++ us) ∧
      us.length = (if x > 0 then 1 else 0) ∧
      value digBase us * 10 ^ x = last * digBase ^ us.length := by
  unfold readLast
  by_cases hx0 : x = 0
  · have hz : last = 0 := by
      rw [hx0, pow_zero] at hl
      omega
    refine ⟨[], ?_, ?_, ?_⟩
    · rw [if_neg (by simpa using hx0), append_nil]
    · rw [if_neg (by omega), length_nil]
    · rw [hz, value_nil, zero_mul, zero_mul]
  · have hbytes := (pow_le_dig2bytes (hx.trans (Nat.lt_succ_self _))).resolve_right hx0
    have hp := dig2bytes_pos hx0 (hx.trans (Nat.lt_succ_self _))
    have hk := @miSintKorr_invert neg (dig2bytes x) last [] hp (dig2bytes_le x) (by omega)
    rw [append_nil] at hk
    have hb : digBase = 10 ^ x * 10 ^ (digPerDec1 - x) := by
      rw [digBase_eq, ← pow_add, Nat.add_sub_cancel' hx.le]
    have hlt : last * 10 ^ (digPerDec1 - x) < digBase := by
      rw [hb]
      exact Nat.mul_lt_mul_of_pos_right hl (pow_pos (by decide) _)
    have hm : (BitVec.ofNat 32 last * BitVec.ofNat 32 (powers10 (digPerDec1 - x))).toNat =
        last * 10 ^ (digPerDec1 - x) := by
      rw [← BitVec.ofNat_mul, BitVec.toNat_ofNat]
      exact Nat.mod_eq_of_lt (hlt.trans (by decide))
    refine ⟨[last * 10 ^ (digPerDec1 - x)], ?_, ?_, ?_⟩
    · rw [if_pos hx0]
      simp only [hk, hm]
      rw [if_neg (not_gt_digMax hlt)]
    · rw [if_pos (by omega), length_singleton]
    · rw [value_singleton, length_singleton, pow_one, hb]
      ring

end loops

variable {precision scale : ℕ}

theorem readDecimal_spec (g : Packed precision scale) (neg : Bool) :
    ∃ intg ws, readDecimal (maskOf neg) ((precision - scale) / digPerDec1)
        ((precision - scale) % digPerDec1) (scale / digPerDec1) (scale % digPerDec1)
        (g.bytes.map (invert neg)) = some (intg, ws) ∧ ws.length = roundUp intg + roundUp scale ∧
      value digBase ws * 10 ^ scale = g.num * digBase ^ roundUp scale := by
  have hm : ∀ x, x % digPerDec1 < digPerDec1 := fun x => Nat.mod_lt _ (by decide)
  obtain ⟨intg, us, hin, hlen, hval⟩ := @readFirst_readIntg neg g.intg
    (g.frac.flatMap (fixedWords 256 4) ++ fixedWords 256 (dig2bytes (scale % digPerDec1)) g.last) _ g.first
    (hm (precision - scale)) g.first_lt g.words_intg
  obtain ⟨vs, hl, hv, hvv⟩ := @readLast_spec neg _ g.last (hm scale) g.last_lt (us ++ g.frac)
  have hr : scale / digPerDec1 + vs.length = roundUp scale := by
    rw [hv]
    exact partWords_eq scale
  refine ⟨intg, us ++ g.frac ++ vs, ?_, ?_, ?_⟩
  · unfold readDecimal Packed.bytes
    simp only [bind_eq_bind]
    rw [append_assoc, append_assoc, ← bind_assoc, ← g.length_intg, hin, bind_some,
      ← g.length_frac, readFrac_spec g.words_frac, bind_some, hl, bind_some]
  · rw [length_append, length_append, hlen, g.length_frac, add_assoc, hr]
  · unfold Packed.num Packed.words
    rw [← hr, value_append, value_append, hval, ← cons_append, value_append, g.length_frac, pow_add,
      pow_eq_mod_mul scale]
    linear_combination digBase ^ (scale / digPerDec1) * hvv

/-! ### `bin2decimal` -/

theorem flipFirst_flipFirst (bytes : List ℕ) : flipFirst (flipFirst bytes) = bytes := by
  cases bytes with
  | nil => rfl
  | cons b bytes => rw [flipFirst, flipFirst, Nat.xor_assoc, Nat.xor_self, Nat.xor_zero]

theorem mask_image (g : Packed precision scale) (neg : Bool) (hp : 0 < precision) :
    (if (g.image neg).headD 0 &&& 0x80 ≠ 0 then 0 else -1) = maskOf neg := by
  have hl := g.length_bytes
  have hpos := @decimalBinSize_pos precision scale hp
  have hc := g.firstBitClear_bytes
  unfold Packed.image
  cases hby : g.bytes with
  | nil =>
    rw [hby, length_nil] at hl
    omega
  | cons b bytes =>
    rw [hby] at hc
    have hb := hc.head_lt
    have hs : ∀ b < 128, (b ^^^ 0x80) &&& 0x80 ≠ 0 := by decide +kernel
    have hn : ∀ b < 128, ((255 - b) ^^^ 0x80) &&& 0x80 = 0 := by decide +kernel
    cases neg with
    | false => exact if_pos (hs b hb)
    | true => exact if_neg (not_not.mpr (hn b hb))

/-- `bin2decimal` reads the number that is stored. -/
theorem bin2decimal_image (g : Packed precision scale) (neg : Bool)
    (hp : 0 < precision) {dest : DecimalT} (hl : decimalSize precision scale ≤ dest.len) :
    (bin2decimal (g.image neg) dest precision scale).1 = .ok ∧
      (bin2decimal (g.image neg) dest precision scale).2.abs * 10 ^ scale = g.num ∧
      ((bin2decimal (g.image neg) dest precision scale).2.sign = neg ∨ g.num = 0) := by
  obtain ⟨intg, ws, hr, hw, hv⟩ := readDecimal_spec g neg
  have himage : (g.image neg).length = decimalBinSize precision scale := by
    rw [Packed.image, length_flipFirst, length_map, g.length_bytes]
  have hc : flipFirst ((g.image neg).take (decimalBinSize precision scale)) = g.bytes.map (invert neg) := by
    rw [take_of_length_le himage.le, Packed.image, flipFirst_flipFirst]
  have hf : fixIntgFracError dest.len (roundUp (precision - scale)) (roundUp scale) =
      (roundUp (precision - scale), roundUp scale, .ok) := by
    unfold fixIntgFracError
    rw [if_neg]
    exact Nat.not_lt.mpr hl
  unfold bin2decimal
  simp only [sub_div_mul, mask_image g neg hp, hc, partWords_eq, hf, ne_eq, not_true_eq_false, false_and,
    if_false, hr, Nat.div_add_mod']
  have hwords : (⟨intg, scale, decide (¬ maskOf neg = 0), ws ++ dest.buf.drop ws.length⟩ : DecimalT).mag =
      value digBase ws := by
    unfold DecimalT.mag
    rw [DecimalT.words_append hw]
  have hs : decide (¬ maskOf neg = 0) = neg := by cases neg <;> rfl
  have hcast : (value digBase ws : ℚ) * 10 ^ scale = g.num * digBase ^ roundUp scale := by
    exact_mod_cast hv
  refine ⟨trivial, ?_⟩
  split
  -- No digits: the number is 0.
  case isTrue h =>
    have hn : g.num = 0 := by
      rw [h.1, h.2] at hw
      rw [List.length_eq_zero_iff.mp hw, value_nil, zero_mul] at hv
      exact (Nat.mul_eq_zero.mp hv.symm).resolve_right (pow_pos digBase_pos _).ne'
    refine ⟨?_, .inr hn⟩
    unfold DecimalT.abs
    rw [DecimalT.decimalMakeZero_mag, hn, Nat.cast_zero, zero_div, zero_mul]
  case isFalse =>
    refine ⟨?_, .inl hs⟩
    unfold DecimalT.abs
    rw [hwords, div_mul_eq_mul_div, div_eq_iff (digBase_pow_pos _).ne', hcast]

/-- **The round trip.**  A number that fits into the column is stored without an error in the bytes of the
column, and the same number is read back. -/
theorem bin2decimal_decimal2bin {d dest : DecimalT} {precision scale : ℕ} (h : d.WF)
    (hp : 0 < precision) (hfits : FitsColumn d precision scale) (hlen : decimalSize precision scale ≤ dest.len) :
    (decimal2bin d precision scale).1 = .ok ∧
      (decimal2bin d precision scale).2.length = decimalBinSize precision scale ∧
      (bin2decimal (decimal2bin d precision scale).2 dest precision scale).1 = .ok ∧
      (bin2decimal (decimal2bin d precision scale).2 dest precision scale).2.toRat = d.toRat ∧
      (d.toRat ≠ 0 → (bin2decimal (decimal2bin d precision scale).2 dest precision scale).2.sign = d.sign) := by
  obtain ⟨g, neg, hg, hn, hb⟩ := decimal2bin_spec h hfits.intg hfits.frac
  obtain ⟨hok, habs, hsign⟩ := bin2decimal_image g neg hp hlen
  rw [hb]
  generalize bin2decimal (g.image neg) dest precision scale = r at *
  have ht : (0 : ℚ) < 10 ^ scale := by positivity
  have ha' : r.2.abs = d.abs := mul_right_cancel₀ ht.ne' (habs.trans hg)
  have hsame : r.2.sign = d.sign ∨ d.abs = 0 := by
    obtain hs | hz := hsign
    · obtain hs' | ⟨-, hz⟩ := hn
      · exact .inl (hs.trans hs')
      · exact .inr hz
    · rw [hz, Nat.cast_zero] at hg
      exact .inr ((mul_eq_zero.mp hg.symm).resolve_right ht.ne')
  refine ⟨rfl, ?_, hok, ?_, fun hne => ?_⟩
  · rw [Packed.image, length_flipFirst, length_map, g.length_bytes]
  · unfold DecimalT.toRat
    rw [ha']
    obtain hs | hz := hsame
    · rw [hs]
    · rw [hz]
      simp
  · refine hsame.resolve_right fun hz => hne ?_
    unfold DecimalT.toRat
    rw [hz]
    simp

theorem bin2decimal_decimal2bin_oneAndHalf : oneAndHalf.WF ∧ FitsColumn oneAndHalf 3 1 ∧
    (bin2decimal (decimal2bin oneAndHalf 3 1).2 oneAndHalf 3 1).2.toRat = oneAndHalf.toRat :=
  ⟨oneAndHalf_wf, oneAndHalf_fitsColumn, (bin2decimal_decimal2bin oneAndHalf_wf (by decide)
    oneAndHalf_fitsColumn (by decide)).2.2.2.1⟩

end MySQLServer.Decimal
