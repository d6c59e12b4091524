import Mathlib.Data.Sign.Basic
import MySQLServer.Decimal.SubExact
import MySQLServer.Decimal.Packed

/-! # The order of decimal numbers

An index compares the bytes of its keys.  `memcmp` compares the numbers that the bytes are in base 256
(`sign_memcmp`), these are in the order of the digits (`Packed.num_lt_iff`), and both agree with
`decimal_cmp`. -/

namespace MySQLServer.Decimal

open Lib List

/-! ### `memcmp` -/

theorem sign_memcmp {xs ys : List ℕ} {n : ℕ} (hx : Words 256 xs) (hy : Words 256 ys)
    (hxn : xs.length = n) (hyn : ys.length = n) : (memcmp xs ys n).sign = ((value 256 xs : ℤ) - value 256 ys).sign := by
  induction n generalizing xs ys with
  | zero =>
    rw [List.length_eq_zero_iff.mp hxn, List.length_eq_zero_iff.mp hyn]
    rfl
  | succ n ih =>
    obtain ⟨x, xs, rfl⟩ := exists_cons_of_length_eq_add_one hxn
    obtain ⟨y, ys, rfl⟩ := exists_cons_of_length_eq_add_one hyn
    rw [words_cons] at hx hy
    rw [length_cons] at hxn hyn
    have hxn' : xs.length = n := by omega
    have hyn' : ys.length = n := by omega
    have hlx := hx.2.value_lt
    have hly := hy.2.value_lt
    rw [memcmp, value_cons, value_cons, hxn', hyn']
    rw [hxn'] at hlx
    rw [hyn'] at hly
    by_cases hxy : x = y
    · rw [if_neg (by simpa using hxy), ih hx.2 hy.2 hxn' hyn', hxy]
      congr 1
      push_cast
      ring
    · rw [if_pos hxy]
      rcases Nat.lt_or_gt_of_ne hxy with h | h
      · have hm := Nat.mul_le_mul_right (256 ^ n) h
        rw [Nat.succ_mul] at hm
        rw [Int.sign_eq_neg_one_of_neg (by omega), Int.sign_eq_neg_one_of_neg (by omega)]
      · have hm := Nat.mul_le_mul_right (256 ^ n) h
        rw [Nat.succ_mul] at hm
        rw [Int.sign_eq_one_of_pos (by omega), Int.sign_eq_one_of_pos (by omega)]

/-! ### The bytes of the digits -/

/-- Bytes that are empty, or the first bit of which is not set. -/
def FirstBitClear (bytes : List ℕ) : Prop := bytes = [] ∨ 2 * value 256 bytes + 2 ≤ 256 ^ bytes.length

theorem FirstBitClear.append {us vs : List ℕ} (hu : FirstBitClear us) (hv : FirstBitClear vs)
    (hw : Words 256 vs) : FirstBitClear (us ++ vs) := by
  obtain rfl | hu := hu
  · exact hv
  · have hlt := hw.value_lt
    have hm := Nat.mul_le_mul_right (256 ^ vs.length) hu
    refine .inr ?_
    rw [value_append, length_append, pow_add]
    rw [Nat.add_mul] at hm
    have has : 2 * value 256 us * 256 ^ vs.length = 2 * (value 256 us * 256 ^ vs.length) := by ring
    omega

variable {bytes : List ℕ}

theorem FirstBitClear.head_lt {b : ℕ} (h : FirstBitClear (b :: bytes)) : b < 128 := by
  have hle := h.resolve_left (cons_ne_nil _ _)
  rw [value_cons, length_cons, pow_succ] at hle
  by_contra hb
  have hm := Nat.mul_le_mul_right (256 ^ bytes.length) (Nat.not_lt.mp hb)
  omega

theorem firstBitClear_fixedWords {x w : ℕ} (hx : x < digPerDec1 + 1) (hw : w < 10 ^ x) :
    FirstBitClear (fixedWords 256 (dig2bytes x) w) := by
  obtain h | rfl := pow_le_dig2bytes hx
  · refine .inr ?_
    rw [value_fixedWords_of_lt (by omega), length_fixedWords]
    omega
  · exact .inl rfl

theorem firstBitClear_flatMap {ws : List ℕ} (h : Words digBase ws) : FirstBitClear (ws.flatMap (fixedWords 256 4)) := by
  induction ws with
  | nil => exact .inl rfl
  | cons w ws ih =>
    rw [words_cons] at h
    rw [flatMap_cons]
    have hw : FirstBitClear (fixedWords 256 4 w) :=
      firstBitClear_fixedWords (Nat.lt_succ_self digPerDec1) (digBase_eq ▸ h.1)
    exact hw.append (ih h.2) (words_flatMap_fixedWords (by decide) _ _)

namespace Packed
variable {precision scale : ℕ} (g g' : Packed precision scale)

theorem length_bytes : g.bytes.length = decimalBinSize precision scale := by
  unfold bytes
  rw [decimalBinSize_eq]
  unfold partSize
  simp only [length_append, length_fixedWords, length_flatMap_fixedWords, g.length_intg, g.length_frac]
  ring

theorem words_bytes : Words 256 g.bytes := by
  unfold bytes
  have hb : 0 < 256 := by decide
  simp only [words_append, words_fixedWords hb, words_flatMap_fixedWords hb, and_self]

theorem firstBitClear_bytes : FirstBitClear g.bytes := by
  have hb : 0 < 256 := by decide
  have hm := mod_digPerDec1_lt
  refine (((firstBitClear_fixedWords (hm _) g.first_lt).append (firstBitClear_flatMap g.words_intg) ?_).append
    (firstBitClear_flatMap g.words_frac) ?_).append (firstBitClear_fixedWords (hm _) g.last_lt) ?_
  · exact words_flatMap_fixedWords hb _ _
  · exact words_flatMap_fixedWords hb _ _
  · exact words_fixedWords hb _ _

theorem value_bytes : value 256 g.bytes = value (256 ^ 4) g.words * 256 ^ dig2bytes (scale % digPerDec1) + g.last := by
  have hm := mod_digPerDec1_lt
  unfold bytes words
  rw [value_append, length_fixedWords, value_fixedWords_of_lt (lt_dig2bytes (hm _) g.last_lt),
    append_assoc, ← flatMap_append, value_append,
    value_fixedWords_of_lt (lt_dig2bytes (hm _) g.first_lt), value_cons, length_flatMap_fixedWords,
    value_flatMap_fixedWords (lt_of_words (Lib.words_append.mpr ⟨g.words_intg, g.words_frac⟩)),
    mul_comm _ 4, pow_mul]

theorem words_words : Words digBase g.words := by
  refine words_cons.mpr ⟨g.first_lt.trans_le ?_, Lib.words_append.mpr ⟨g.words_intg, g.words_frac⟩⟩
  rw [digBase_eq]
  exact Nat.pow_le_pow_right (by decide) (Nat.mod_lt _ (by decide)).le

theorem length_words : g.words.length = 1 + (precision - scale) / digPerDec1 + scale / digPerDec1 := by
  unfold words
  rw [length_cons, length_append, g.length_intg, g.length_frac]
  ring

/-- The order of two numbers with a part before `m` and one after it. -/
theorem mul_add_lt_iff {m x x' y y' : ℕ} (hy : y < m) (hy' : y' < m) :
    x * m + y < x' * m + y' ↔ x < x' ∨ x = x' ∧ y < y' := by
  rcases lt_trichotomy x x' with h | rfl | h
  · have hm := Nat.mul_le_mul_right m h
    rw [Nat.succ_mul] at hm
    omega
  · simp
  · have hm := Nat.mul_le_mul_right m h
    rw [Nat.succ_mul] at hm
    omega

/-- The bytes are in the order of the digits. -/
theorem num_lt_iff : g.num < g'.num ↔ value 256 g.bytes < value 256 g'.bytes := by
  have hm := mod_digPerDec1_lt scale
  have hl := g.length_words.trans g'.length_words.symm
  have hlt := g.words_words.value_lt_iff (show digBase ≤ 256 ^ 4 by decide) g'.words_words hl
  have hgt := g'.words_words.value_lt_iff (show digBase ≤ 256 ^ 4 by decide) g.words_words hl.symm
  have heq : value digBase g.words = value digBase g'.words ↔
      value (256 ^ 4) g.words = value (256 ^ 4) g'.words := by omega
  rw [value_bytes, value_bytes, num, num, mul_add_lt_iff g.last_lt g'.last_lt,
    mul_add_lt_iff (lt_dig2bytes hm g.last_lt) (lt_dig2bytes hm g'.last_lt), hlt, heq]

end Packed

/-! ### The first bit -/

theorem words_flipFirst (h : Words 256 bytes) : Words 256 (flipFirst bytes) := by
  cases bytes with
  | nil => exact h
  | cons b bytes =>
    rw [words_cons] at h
    have hx : ∀ b < 256, b ^^^ 0x80 < 256 := by decide +kernel
    exact words_cons.mpr ⟨hx b h.1, h.2⟩

@[simp] theorem length_flipFirst (bytes : List ℕ) : (flipFirst bytes).length = bytes.length := by
  cases bytes <;> rfl

theorem words_map_invert (neg : Bool) (h : Words 256 bytes) : Words 256 (bytes.map (invert neg)) := by
  intro x hx
  obtain ⟨b, hb, rfl⟩ := List.mem_map.mp hx
  have hlt := h b hb
  unfold invert
  split <;> omega

/-- With its first bit inverted, the number is in the upper half if it is not negative, and in the lower
half, from the other end, if it is. -/
theorem value_flipFirst (h : Words 256 bytes) (hc : FirstBitClear bytes) (hne : bytes ≠ []) :
    value 256 (flipFirst (bytes.map (invert false))) = 128 * 256 ^ (bytes.length - 1) + value 256 bytes ∧
      value 256 (flipFirst (bytes.map (invert true))) + value 256 bytes + 1 = 128 * 256 ^ (bytes.length - 1) := by
  cases bytes with
  | nil => exact absurd rfl hne
  | cons b bytes =>
    rw [words_cons] at h
    have hb := hc.head_lt
    have hs : ∀ b < 128, b ^^^ 0x80 = b + 128 := by decide +kernel
    have hc : ∀ b < 128, (255 - b) ^^^ 0x80 = 127 - b := by decide +kernel
    have hid : bytes.map (invert false) = bytes := map_id bytes
    have hcm : value 256 (bytes.map (invert true)) + value 256 bytes + 1 = 256 ^ bytes.length :=
      value_map_compl h.2
    rw [map_cons, map_cons, flipFirst, flipFirst, hid, value_cons, value_cons, value_cons,
      length_map, length_cons, Nat.add_sub_cancel]
    refine ⟨?_, ?_⟩
    · rw [show invert false b = b from rfl, hs b hb]
      ring
    · rw [show invert true b = 255 - b from rfl, hc b hb]
      have hsum : 127 - b + b = 127 := by omega
      linear_combination hcm + 256 ^ bytes.length * hsum

/-! ### The three orders -/

/-- A number that is not `-0`. -/
def NotNegZero (d : DecimalT) : Prop := ¬ (d.sign = true ∧ d.toRat = 0)

/-- A number that a column of type `DECIMAL(precision, scale)` has room for. -/
structure FitsColumn (d : DecimalT) (precision scale : ℕ) : Prop where
  intg : d.abs < 10 ^ (precision - scale)
  frac : d.frac ≤ scale

section order
variable {a b : DecimalT}

theorem NotNegZero.toRat_neg (h : NotNegZero a) (hs : a.sign = true) : a.toRat < 0 := by
  have hne : a.toRat ≠ 0 := fun hz => h ⟨hs, hz⟩
  have hn := a.abs_nonneg
  unfold DecimalT.toRat at hne ⊢
  rw [if_pos hs] at hne ⊢
  exact lt_of_le_of_ne (by linarith) hne

theorem toRat_nonneg (hs : a.sign = false) : 0 ≤ a.toRat := by
  unfold DecimalT.toRat
  rw [if_neg (by simp [hs])]
  exact a.abs_nonneg

theorem toRat_lt_of_abs_lt (hs : a.sign = b.sign) (h : a.abs < b.abs) :
    if a.sign then b.toRat < a.toRat else a.toRat < b.toRat := by
  unfold DecimalT.toRat
  rw [← hs]
  split
  · linarith
  · exact h

/-- `decimal_cmp` compares the numbers. -/
theorem decimalCmp_spec (ha : a.WF) (hb : b.WF) (hza : NotNegZero a) (hzb : NotNegZero b) :
    decimalCmp a b = (SignType.sign (a.toRat - b.toRat) : ℤ) := by
  have hc := compareOperands_spec ha hb
  unfold decimalCmp
  by_cases hs : a.sign = b.sign
  · rw [if_pos hs]
    unfold doSubCmp
    cases h : (compareOperands a b).2.2 with
    | none =>
      have heq : a.toRat = b.toRat := by
        unfold DecimalT.toRat
        rw [hs, hc.equal h]
      simp [heq]
    | some carry =>
      cases carry with
      | true =>
        have hlt := toRat_lt_of_abs_lt hs (hc.less h).1
        cases hsign : a.sign with
        | true =>
          rw [hsign, if_pos rfl] at hlt
          rw [sign_pos (by linarith)]
          rfl
        | false =>
          rw [hsign, if_neg (by simp)] at hlt
          rw [sign_neg (by linarith)]
          rfl
      | false =>
        have hlt := toRat_lt_of_abs_lt hs.symm (hc.greater h).1
        rw [← hs] at hlt
        cases hsign : a.sign with
        | true =>
          rw [hsign, if_pos rfl] at hlt
          rw [sign_neg (by linarith)]
          rfl
        | false =>
          rw [hsign, if_neg (by simp)] at hlt
          rw [sign_pos (by linarith)]
          rfl
  · rw [if_neg hs]
    cases hsa : a.sign with
    | true =>
      have hsb : b.sign = false := by
        rw [hsa] at hs
        simpa using hs
      have hneg := hza.toRat_neg hsa
      have hn := toRat_nonneg hsb
      rw [hsb, sign_neg (by linarith)]
      rfl
    | false =>
      have hsb : b.sign = true := by
        rw [hsa] at hs
        simpa using hs
      have hneg := hzb.toRat_neg hsb
      have hn := toRat_nonneg hsa
      rw [hsb, sign_pos (by linarith)]
      rfl

/-- The difference of the bytes has the sign of the difference of the digits. -/
theorem Packed.sign_value_sub {precision scale : ℕ} (g g' : Packed precision scale) :
    ((value 256 g.bytes : ℤ) - value 256 g'.bytes).sign = (SignType.sign ((g.num : ℚ) - g'.num) : ℤ) := by
  have h := g.num_lt_iff g'
  have h' := g'.num_lt_iff g
  rcases lt_trichotomy g.num g'.num with hlt | heq | hgt
  · have hc : (g.num : ℚ) < g'.num := by exact_mod_cast hlt
    have hb := h.mp hlt
    rw [Int.sign_eq_neg_one_of_neg (by omega), sign_neg (by linarith)]
    rfl
  · have hb : value 256 g.bytes = value 256 g'.bytes := by omega
    rw [heq, hb, sub_self, sub_self, sign_zero]
    rfl
  · have hc : (g'.num : ℚ) < g.num := by exact_mod_cast hgt
    rw [Int.sign_eq_one_of_pos (by omega), sign_pos (by linarith)]
    rfl

theorem decimalBinSize_pos {precision scale : ℕ} (hp : 0 < precision) : 0 < decimalBinSize precision scale := by
  rw [decimalBinSize_eq]
  by_contra h
  have hin := eq_zero_of_partSize (x := precision - scale) (by omega)
  have hf := eq_zero_of_partSize (x := scale) (by omega)
  omega

theorem NotNegZero.neg_eq_sign {neg : Bool} (hz : NotNegZero a)
    (h : neg = a.sign ∨ neg = false ∧ a.abs = 0) : neg = a.sign := by
  obtain h | ⟨rfl, habs⟩ := h
  · exact h
  · cases hs : a.sign with
    | false => rfl
    | true =>
      refine absurd ⟨hs, ?_⟩ hz
      unfold DecimalT.toRat
      rw [habs]
      simp

/-- **The order of the keys.**  `memcmp` of the bytes and `decimal_cmp` both give the order of the
numbers. -/
theorem sign_memcmp_decimal2bin {precision scale : ℕ} (ha : a.WF) (hb : b.WF) (hp : 0 < precision)
    (hfa : FitsColumn a precision scale) (hfb : FitsColumn b precision scale) (hza : NotNegZero a)
    (hzb : NotNegZero b) : (memcmp (decimal2bin a precision scale).2 (decimal2bin b precision scale).2
        (decimalBinSize precision scale)).sign = decimalCmp a b ∧
      decimalCmp a b = (SignType.sign (a.toRat - b.toRat) : ℤ) := by
  rw [decimalCmp_spec ha hb hza hzb]
  refine ⟨?_, rfl⟩
  obtain ⟨g, neg, hg, hn, hbin⟩ := decimal2bin_spec ha hfa.intg hfa.frac
  obtain ⟨g', neg', hg', hn', hb'⟩ := decimal2bin_spec hb hfb.intg hfb.frac
  rw [hza.neg_eq_sign hn] at hbin
  rw [hzb.neg_eq_sign hn'] at hb'
  have hne : ∀ g : Packed precision scale, g.bytes ≠ [] := by
    intro g h
    have hl := g.length_bytes
    have hpos := @decimalBinSize_pos precision scale hp
    rw [h, length_nil] at hl
    omega
  have himage : ∀ (g : Packed precision scale) (neg : Bool), Words 256 (g.image neg) ∧
      (g.image neg).length = decimalBinSize precision scale := fun g neg =>
    ⟨words_flipFirst (words_map_invert neg g.words_bytes), by
      rw [Packed.image, length_flipFirst, length_map, g.length_bytes]⟩
  rw [hbin, hb', sign_memcmp (himage _ _).1 (himage _ _).1 (himage _ _).2 (himage _ _).2]
  obtain ⟨hpos, hm⟩ := value_flipFirst g.words_bytes g.firstBitClear_bytes (hne g)
  obtain ⟨hp', hm'⟩ := value_flipFirst g'.words_bytes g'.firstBitClear_bytes (hne g')
  rw [g.length_bytes] at hpos hm
  rw [g'.length_bytes] at hp' hm'
  unfold Packed.image
  have hsign : ∀ x y : ℚ, (SignType.sign (x * 10 ^ scale - y * 10 ^ scale) : ℤ) = SignType.sign (x - y) := by
    intro x y
    have ht : (0 : ℚ) < 10 ^ scale := by positivity
    rw [← sub_mul, sign_mul, sign_pos ht, mul_one]
  have hs := g.sign_value_sub g'
  have hs' := g'.sign_value_sub g
  rw [hg, hg', hsign] at hs hs'
  cases hsa : a.sign with
  | false =>
    cases hsb : b.sign with
    | false =>
      have hr : a.toRat = a.abs ∧ b.toRat = b.abs := by simp [DecimalT.toRat, hsa, hsb]
      rw [hr.1, hr.2, ← hs, hpos, hp']
      congr 1
      push_cast
      ring
    | true =>
      have hlt := hzb.toRat_neg hsb
      have hle := toRat_nonneg hsa
      rw [Int.sign_eq_one_of_pos (by omega), sign_pos (by linarith)]
      rfl
  | true =>
    cases hsb : b.sign with
    | false =>
      have hlt := hza.toRat_neg hsa
      have hle := toRat_nonneg hsb
      rw [Int.sign_eq_neg_one_of_neg (by omega), sign_neg (by linarith)]
      rfl
    | true =>
      have hr : a.toRat - b.toRat = b.abs - a.abs := by
        simp only [DecimalT.toRat, hsa, hsb, if_true]
        ring
      rw [hr, ← hs']
      congr 1
      omega

end order

/-- `-1.5`. -/
def minusOneAndHalf : DecimalT := { oneAndHalf with sign := true }

theorem minusOneAndHalf_wf : minusOneAndHalf.WF := ⟨by decide, by decide, by decide, by decide, by decide⟩

theorem oneAndHalf_abs : oneAndHalf.abs = 3 / 2 := by
  norm_num [oneAndHalf, DecimalT.abs, DecimalT.mag, DecimalT.words, roundUp, digPerDec1, digBase, value_cons]

theorem oneAndHalf_fitsColumn : FitsColumn oneAndHalf 3 1 where
  intg := by norm_num [oneAndHalf_abs]
  frac := by decide

theorem minusOneAndHalf_fitsColumn : FitsColumn minusOneAndHalf 3 1 where
  __ := oneAndHalf_fitsColumn

theorem sign_memcmp_decimal2bin_oneAndHalf : oneAndHalf.WF ∧ minusOneAndHalf.WF ∧
    (memcmp (decimal2bin oneAndHalf 3 1).2 (decimal2bin minusOneAndHalf 3 1).2 (decimalBinSize 3 1)).sign =
      decimalCmp oneAndHalf minusOneAndHalf ∧
    decimalCmp oneAndHalf minusOneAndHalf = (SignType.sign (oneAndHalf.toRat - minusOneAndHalf.toRat) : ℤ) := by
  have hm : minusOneAndHalf.toRat = -(3 / 2) := by
    rw [← oneAndHalf_abs]
    rfl
  refine ⟨oneAndHalf_wf, minusOneAndHalf_wf, sign_memcmp_decimal2bin oneAndHalf_wf minusOneAndHalf_wf
    (by decide) oneAndHalf_fitsColumn minusOneAndHalf_fitsColumn ?_ ?_⟩
  · rintro ⟨h, -⟩
    cases h
  · rintro ⟨-, h⟩
    rw [hm] at h
    norm_num at h

end MySQLServer.Decimal
