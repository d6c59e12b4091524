import MySQLServer.Decimal.SubExact
import MySQLServer.Decimal.Mul

/-! # Multiplication is exact

The loops add the product of the words that are used to the result, and no product is written outside the
result (`mulLoop_adds`).  If the result fits, all words are used; if it is truncated, the last words of both
operands are left out, also before the point, and what is lost is bounded as the caller expects only if
these words are small (`decimalMul_within_iff`). -/

namespace MySQLServer.Decimal

open Lib List

/-! ### Loops -/

/-- The words `acc`, from right to left, and what the loops make of them when they add `m`. -/
structure MulAdds (acc : List ℕ) (m : ℕ) (r : List ℕ × MulEnd) : Prop where
  length : r.1.length = acc.length
  words : Words digBase r.1
  done : r.2 = .done → Nat.ofDigits digBase r.1 = Nat.ofDigits digBase acc + m
  overflow : r.2 ≠ .done → r.2 = .overflow ∧ digBase ^ acc.length ≤ Nat.ofDigits digBase acc + m

section loops
variable {acc : List ℕ} {m : ℕ} {r : List ℕ × MulEnd}

theorem MulAdds.cons (h : MulAdds acc m r) {a a' m' : ℕ} (ha : a' < digBase)
    (hs : a' + m * digBase = a + m') : MulAdds (a :: acc) m' (a' :: r.1, r.2) where
  length := by rw [length_cons, h.length, length_cons]
  words := words_cons.mpr ⟨ha, h.words⟩
  done hd := by
    rw [Nat.ofDigits_cons, Nat.ofDigits_cons, h.done hd]
    linear_combination hs
  overflow hd := by
    obtain ⟨ho, hle⟩ := h.overflow hd
    refine ⟨ho, ?_⟩
    have hm := Nat.mul_le_mul_left digBase hle
    rw [Nat.ofDigits_cons, length_cons, pow_succ']
    rw [Nat.mul_add] at hm
    have hc := mul_comm m digBase
    omega

theorem MulAdds.of_zero (hw : Words digBase acc) : MulAdds acc 0 (acc, .done) :=
  ⟨rfl, hw, fun _ => rfl, fun h => absurd rfl h⟩

variable {carry : ℕ}

theorem mulCarryLoop_adds (hw : Words digBase acc) (hc : carry ≤ 1) : MulAdds acc carry (mulCarryLoop acc carry) := by
  induction acc generalizing carry with
  | nil =>
    rw [mulCarryLoop]
    split
    case isTrue h => exact ⟨rfl, Words.nil, nofun, fun _ => ⟨rfl, by simp; omega⟩⟩
    case isFalse h =>
      have hz : carry = 0 := by omega
      rw [hz]
      exact MulAdds.of_zero Words.nil
  | cons a acc ih =>
    rw [words_cons] at hw
    obtain ⟨hlt, hle, hs⟩ := add_spec hw.1 digBase_pos hc
    rw [mulCarryLoop]
    split
    case isTrue => exact (ih hw.2 hle).cons hlt hs
    case isFalse h =>
      have hz : carry = 0 := by omega
      rw [hz]
      exact MulAdds.of_zero (words_cons.mpr hw)

theorem add2_spec {x y carry : ℕ} (hx : x < digBase) (hy : y < digBase) (hc : carry < digBase) :
    (add2 x y carry).1 < digBase ∧ (add2 x y carry).1 + (add2 x y carry).2 * digBase = x + y + carry := by
  unfold add2
  simp only
  by_cases h : x + y + carry ≥ digBase
  · rw [if_pos h]
    split <;> simp only <;> omega
  · rw [if_neg h]
    simp only
    rw [if_neg h]
    omega

theorem mulCarry_adds (hw : Words digBase acc) (hc : carry < digBase) : MulAdds acc carry (mulCarry acc carry) := by
  cases carry with
  | zero =>
    rw [mulCarry]
    exact MulAdds.of_zero hw
  | succ carry =>
    cases acc with
    | nil => exact ⟨rfl, Words.nil, nofun, fun _ => ⟨rfl, by simp⟩⟩
    | cons a acc =>
      rw [words_cons] at hw
      obtain ⟨hlt, hs⟩ := add2_spec hw.1 digBase_pos hc
      have hle : (add2 a 0 (carry + 1)).2 ≤ 1 := by
        by_contra hgt
        have hm := Nat.mul_le_mul_right digBase (show 2 ≤ (add2 a 0 (carry + 1)).2 by omega)
        omega
      rw [mulCarry]
      exact (mulCarryLoop_adds hw.2 hle).cons hlt hs

/-- The inner loop adds a product. -/
theorem mulRow_adds {x : ℕ} (hx : x < digBase) {ys : List ℕ} (hys : Words digBase ys)
    (hw : Words digBase acc) (hl : ys.length ≤ acc.length) (hc : carry < digBase) :
    MulAdds acc (x * Nat.ofDigits digBase ys + carry) (mulRow x ys acc carry) := by
  induction ys generalizing acc carry with
  | nil =>
    rw [mulRow, Nat.ofDigits_nil, mul_zero, zero_add]
    exact mulCarry_adds hw hc
  | cons y ys ih =>
    cases acc with
    | nil => simp at hl
    | cons a acc =>
      rw [words_cons] at hys hw
      have hlo : x * y - x * y / digBase * digBase < digBase ∧
          x * y - x * y / digBase * digBase + x * y / digBase * digBase = x * y := by
        have hd := Nat.div_add_mod' (x * y) digBase
        have hm := Nat.mod_lt (x * y) digBase_pos
        omega
      obtain ⟨hlt, hs⟩ := add2_spec hw.1 hlo.1 hc
      rw [mulRow]
      generalize add2 a (x * y - x * y / digBase * digBase) carry = r at *
      have ht : r.1 + (r.2 + x * y / digBase) * digBase = a + x * y + carry := by
        rw [add_mul]
        omega
      have hcarry : r.2 + x * y / digBase < digBase := by
        have hxy : x * y ≤ (digBase - 1) * (digBase - 1) :=
          Nat.mul_le_mul (by omega) (by omega)
        by_contra hge
        rw [not_lt] at hge
        have hmul := Nat.mul_le_mul_right digBase hge
        have hb : (digBase - 1) * (digBase - 1) + (digBase - 1) + digBase = digBase * digBase := by
          decide
        omega
      refine (ih hys.2 hw.2 (by simpa using hl) hcarry).cons hlt ?_
      rw [Nat.ofDigits_cons]
      linear_combination ht

/-- The outer loop adds the product of the operands. -/
theorem mulLoop_adds {xs ys : List ℕ} (hxs : Words digBase xs) (hys : Words digBase ys) (hw : Words digBase acc)
    (hlen : xs ≠ [] → ys ≠ [] → xs.length + ys.length ≤ acc.length + 1) :
    MulAdds acc (Nat.ofDigits digBase xs * Nat.ofDigits digBase ys) (mulLoop xs ys acc) := by
  induction xs generalizing acc with
  | nil =>
    rw [mulLoop, Nat.ofDigits_nil, zero_mul]
    exact MulAdds.of_zero hw
  | cons x xs ih =>
    rw [words_cons] at hxs
    have hr : ys.length ≤ acc.length := by
      cases ys with
      | nil => exact Nat.zero_le _
      | cons y ys =>
        have h := hlen (cons_ne_nil _ _) (cons_ne_nil _ _)
        simp only [length_cons] at h ⊢
        omega
    have hadds := mulRow_adds hxs.1 hys hw hr digBase_pos
    rw [add_zero] at hadds
    rw [mulLoop]
    generalize mulRow x ys acc 0 = row at *
    obtain ⟨ws, e⟩ := row
    rw [Nat.ofDigits_cons, add_mul]
    split
    case isTrue he =>
      obtain ⟨ho, hle⟩ := hadds.overflow he
      exact ⟨hadds.length, hadds.words, fun hd => absurd hd he, fun _ => ⟨ho, by omega⟩⟩
    case isFalse he =>
      have hdone := hadds.done (by simpa using he)
      have hl := hadds.length
      have hwords := hadds.words
      cases ws with
      | nil =>
        have hacc : acc = [] := eq_nil_of_length_eq_zero hl.symm
        have hn : ys = [] := eq_nil_of_length_eq_zero (by rw [hacc] at hr; simpa using hr)
        have h := ih hxs.2 hw fun _ hne => absurd hn hne
        rw [hacc] at h ⊢
        rw [hn] at h ⊢
        simpa using h
      | cons a rest =>
        rw [words_cons] at hwords
        rw [length_cons] at hl
        have h := ih hxs.2 hwords.2 fun h1 h2 => by
          have h := hlen (cons_ne_nil _ _) h2
          rw [length_cons] at h
          omega
        rw [Nat.ofDigits_cons] at hdone
        refine ⟨?_, words_cons.mpr ⟨hwords.1, h.words⟩, fun hd => ?_, fun hd => ?_⟩
        · rw [length_cons, h.length, hl]
        · rw [Nat.ofDigits_cons, h.done hd]
          linear_combination hdone
        · obtain ⟨ho, hle⟩ := h.overflow hd
          refine ⟨ho, ?_⟩
          have hm := Nat.mul_le_mul_left digBase hle
          rw [← hl, pow_succ']
          rw [Nat.mul_add, ← mul_assoc] at hm
          omega

end loops

/-! ### The words that are used -/

variable {s : MulSizes}

section sizes
variable {from1 from2 : DecimalT} {len : ℕ}

/-- How many of the `n` last words that are left out are words of the first operand, and of the second
one. -/
def mulDropped (from1 from2 : DecimalT) (n : ℕ) : ℕ × ℕ :=
  if roundUp from1.frac ≤ roundUp from2.frac then (n / 2, n - n / 2) else (n - n / 2, n / 2)

/-- The product of the operands without the words that are left out. -/
def keptProduct (from1 from2 : DecimalT) (n : ℕ) : ℕ :=
  from1.mag / digBase ^ (mulDropped from1 from2 n).1 * (from2.mag / digBase ^ (mulDropped from1 from2 n).2)

theorem mulDropped_add (from1 from2 : DecimalT) (n : ℕ) :
    (mulDropped from1 from2 n).1 + (mulDropped from1 from2 n).2 = n := by
  unfold mulDropped
  split <;> simp only <;> omega

/-- The numbers of words if there is no overflow. -/
structure MulFits (from1 from2 : DecimalT) (s : MulSizes) (n : ℕ) : Prop where
  intg0 : s.intg0 = roundUp (from1.intg + from2.intg)
  frac0 : s.frac0 + n = roundUp from1.frac + roundUp from2.frac
  intg1 : s.intg1 = roundUp from1.intg
  intg2 : s.intg2 = roundUp from2.intg
  frac1 : s.frac1 = roundUp from1.frac - (mulDropped from1 from2 n).1
  frac2 : s.frac2 = roundUp from2.frac - (mulDropped from1 from2 n).2

theorem roundUp_add (x y : ℕ) :
    roundUp (x + y) ≤ roundUp x + roundUp y ∧ roundUp x + roundUp y ≤ roundUp (x + y) + 1 := by
  rw [roundUp_eq, roundUp_eq, roundUp_eq]
  omega

/-- The words that are used are words of the operands, and their products have room in the result. -/
structure MulRoom (from1 from2 : DecimalT) (s : MulSizes) : Prop where
  room : s.intg1 + s.frac1 + (s.intg2 + s.frac2) ≤ s.intg0 + s.frac0 + 1
  intg1 : s.intg1 ≤ roundUp from1.intg
  intg2 : s.intg2 ≤ roundUp from2.intg
  frac1 : s.frac1 ≤ roundUp from1.frac
  frac2 : s.frac2 ≤ roundUp from2.frac

theorem MulFits.room {n : ℕ} (h : MulFits from1 from2 s n) : MulRoom from1 from2 s := by
  have hs := (roundUp_add from1.intg from2.intg).2
  have hd := mulDropped_add from1 from2 n
  have hf := h.frac0
  constructor <;> simp only [h.intg1, h.intg2, h.frac1, h.frac2, h.intg0] <;> omega

variable {d : DecimalT}

theorem mulOperand_words (h : d.WF) {intg frac : ℤ} (hf : frac ≤ roundUp d.frac) :
    Words digBase (mulOperand d intg frac) :=
  words_segment h.words (by omega)

theorem length_mulOperand (h : d.WF) {intg frac : ℤ} (hi : intg ≤ roundUp d.intg)
    (hf : frac ≤ roundUp d.frac) (hne : mulOperand d intg frac ≠ []) :
    ((mulOperand d intg frac).length : ℤ) = intg + frac := by
  have hft := h.fits
  unfold DecimalT.len at hft
  have hl : (mulOperand d intg frac).length =
      (roundUp d.intg + frac).toNat - (roundUp d.intg - intg).toNat := length_segment (by omega)
  have hp := List.length_pos_iff.mpr hne
  omega

theorem MulRoom.adds (h : MulRoom from1 from2 s) (h1 : from1.WF) (h2 : from2.WF) :
    MulAdds (replicate (s.intg0 + s.frac0) 0)
      (value digBase (mulOperand from1 s.intg1 s.frac1) * value digBase (mulOperand from2 s.intg2 s.frac2))
      (mulWords from1 from2 s) := by
  have hrev : ∀ {ws : List ℕ}, Words digBase ws → Words digBase ws.reverse :=
    fun h w hw => h w (List.mem_reverse.mp hw)
  refine mulLoop_adds (hrev (mulOperand_words h1 h.frac1)) (hrev (mulOperand_words h2 h.frac2))
    (words_replicate_zero digBase_pos _) fun hn1 hn2 => ?_
  rw [ne_eq, reverse_eq_nil_iff] at hn1 hn2
  have hl1 := length_mulOperand h1 h.intg1 h.frac1 hn1
  have hl2 := length_mulOperand h2 h.intg2 h.frac2 hn2
  have hr := h.room
  rw [length_reverse, length_reverse, length_replicate]
  omega

theorem value_mulOperand (h : d.WF) (n : ℕ) :
    value digBase (mulOperand d (roundUp d.intg) (roundUp d.frac - n)) = d.mag / digBase ^ n := by
  have hc : (roundUp d.intg + ((roundUp d.frac : ℤ) - n)).toNat = d.words.length - n := by
    rw [h.length_words]
    omega
  unfold mulOperand
  rw [sub_self, Int.toNat_zero, segment_zero, hc, ← DecimalT.take_words (by omega)]
  exact h.words.value_take_sub digBase_pos n

theorem div_mul_div_mul_le (a b x y : ℕ) : a / x * (b / y) * (x * y) ≤ a * b := by
  calc a / x * (b / y) * (x * y) = a / x * x * (b / y * y) := by ring
    _ ≤ a * b := Nat.mul_le_mul (Nat.div_mul_le_self _ _) (Nat.div_mul_le_self _ _)

/-- If there is no overflow, the loops find room for all carries. -/
theorem MulFits.mulWords {n : ℕ} (h : MulFits from1 from2 s n) (h1 : from1.WF) (h2 : from2.WF) :
    (mulWords from1 from2 s).2 = .done ∧
      value digBase (mulWords from1 from2 s).1.reverse = keptProduct from1 from2 n := by
  have hadds := h.room.adds h1 h2
  have hdrop := mulDropped_add from1 from2 n
  rw [h.intg1, h.intg2, h.frac1, h.frac2, value_mulOperand h1, value_mulOperand h2] at hadds
  unfold keptProduct
  generalize hd1 : (mulDropped from1 from2 n).1 = d1 at *
  generalize hd2 : (mulDropped from1 from2 n).2 = d2 at *
  have hz : Nat.ofDigits digBase (replicate (s.intg0 + s.frac0) 0) = 0 := by
    rw [← reverse_replicate]
    exact value_replicate_zero _
  -- The product is less than the base to the number of words.
  have hlt : from1.mag / digBase ^ d1 * (from2.mag / digBase ^ d2) < digBase ^ (s.intg0 + s.frac0) := by
    have ht : 10 ^ (from1.intg + from2.intg) ≤ digBase ^ s.intg0 := by
      rw [h.intg0, digBase_pow, mul_comm]
      exact Nat.pow_le_pow_right (by decide) (le_roundUp_mul _)
    have hexp : roundUp from1.frac + roundUp from2.frac = s.frac0 + (d1 + d2) := by
      rw [← h.frac0]
      omega
    apply Nat.lt_of_mul_lt_mul_right (a := digBase ^ (d1 + d2))
    calc from1.mag / digBase ^ d1 * (from2.mag / digBase ^ d2) * digBase ^ (d1 + d2)
        ≤ from1.mag * from2.mag := by
          rw [pow_add]
          exact div_mul_div_mul_le _ _ _ _
      _ < 10 ^ from1.intg * digBase ^ roundUp from1.frac * (10 ^ from2.intg * digBase ^ roundUp from2.frac) :=
          Nat.mul_lt_mul'' h1.mag_lt h2.mag_lt
      _ = 10 ^ (from1.intg + from2.intg) * digBase ^ (roundUp from1.frac + roundUp from2.frac) := by
          rw [pow_add, pow_add]
          ring
      _ ≤ digBase ^ s.intg0 * digBase ^ (roundUp from1.frac + roundUp from2.frac) :=
          Nat.mul_le_mul_right _ ht
      _ = _ := by rw [hexp, ← pow_add, ← pow_add, ← add_assoc]
  have hd : (Decimal.mulWords from1 from2 s).2 = .done := by
    by_contra hne
    have hle := (hadds.overflow hne).2
    rw [hz, zero_add, length_replicate] at hle
    omega
  refine ⟨hd, ?_⟩
  unfold value
  rw [reverse_reverse, hadds.done hd, hz, zero_add]

end sizes

/-! ### The checks at the end -/

theorem mulIsZero_iff (ws rest : List ℕ) :
    mulIsZero ws.length (ws ++ rest) = true ↔ ws ≠ [] ∧ value digBase ws = 0 := by
  induction ws with
  | nil =>
    have hf : ∀ rest : List ℕ, mulIsZero 0 rest = false := by
      intro rest
      induction rest with
      | nil => rfl
      | cons w rest ih => simp [mulIsZero, ih]
    simp [hf]
  | cons w ws ih =>
    have hp := pow_pos digBase_pos ws.length
    rw [cons_append, mulIsZero, value_cons, length_cons]
    by_cases hw : w = 0
    · rw [if_neg (by simpa using hw), hw, zero_mul, zero_add]
      cases ws with
      | nil => simp
      | cons v vs =>
        rw [if_neg (by simp), Nat.add_sub_cancel, ih]
        simp
    · rw [if_pos hw]
      have hne : w * digBase ^ ws.length ≠ 0 := Nat.mul_ne_zero hw hp.ne'
      simp only [Bool.false_eq_true, false_iff, not_and]
      intro _
      omega

theorem mulSkip_le (ws : List ℕ) (n : ℕ) : mulSkip ws (n * digPerDec1) ≤ n - 1 ∧
      mulSkip ws (n * digPerDec1) ≤ (ws.takeWhile (· == 0)).length := by
  induction ws generalizing n with
  | nil => exact ⟨Nat.zero_le _, Nat.zero_le _⟩
  | cons w ws ih =>
    rw [mulSkip]
    split
    case isTrue h =>
      have hn : 1 < n := by
        by_contra hc
        have hle := Nat.mul_le_mul_right digPerDec1 (show n ≤ 1 by omega)
        omega
      have hs : n * digPerDec1 - digPerDec1 = (n - 1) * digPerDec1 := by
        rw [Nat.sub_mul, one_mul]
      obtain ⟨h1, h2⟩ := ih (n - 1)
      rw [hs, takeWhile_cons_of_pos (by simpa using h.1), length_cons]
      omega
    case isFalse => exact ⟨Nat.zero_le _, Nat.zero_le _⟩

/-- Moving the words leaves out zeros only. -/
theorem mulMove_spec {prod : DecimalT} {ws rest : List ℕ} {intg0 : ℕ} (hbuf : prod.buf = ws ++ rest)
    (hintg : prod.intg = intg0 * digPerDec1) (hl : intg0 + roundUp prod.frac = ws.length) :
    ∃ k us vs, k ≤ intg0 ∧ us.length = k + roundUp prod.frac ∧ value digBase us = value digBase ws ∧
      (∀ w ∈ us, w ∈ ws) ∧ (us ++ vs).length = prod.len ∧
      mulMove prod intg0 = ⟨k * digPerDec1, prod.frac, prod.sign, us ++ vs⟩ := by
  obtain ⟨hle, hz⟩ := mulSkip_le prod.buf intg0
  rw [← hintg] at hle hz
  unfold mulMove DecimalT.len
  simp only
  generalize mulSkip prod.buf prod.intg = sk at *
  have hk : prod.intg - sk * digPerDec1 = (intg0 - sk) * digPerDec1 := by rw [hintg, Nat.sub_mul]
  have hs : sk ≤ (ws.takeWhile (· == 0)).length := by
    rw [hbuf, takeWhile_append] at hz
    split at hz
    case isTrue h => omega
    case isFalse h => exact hz
  refine ⟨intg0 - sk, ws.drop sk, if 0 < sk then prod.buf.drop (ws.length - sk) else rest, by omega, ?_,
    value_drop_zeros hs, fun w hw => mem_of_mem_drop hw, ?_, ?_⟩
  · rw [length_drop]
    omega
  · rw [length_append, length_drop]
    have hb : prod.buf.length = ws.length + rest.length := by rw [hbuf, length_append]
    split
    · rw [length_drop]
      omega
    · omega
  · rw [hk]
    congr 1
    by_cases hp : 0 < sk
    · have hseg : segment prod.buf sk (sk + (intg0 + roundUp prod.frac - sk)) = ws.drop sk := by
        unfold segment
        rw [hl, show sk + (ws.length - sk) = ws.length by omega, hbuf, take_left]
      rw [if_pos hp, if_pos hp, hseg, hl]
    · have hsk : sk = 0 := by omega
      rw [if_neg hp, if_neg hp, hsk, drop_zero, hbuf]

/-! ### `decimal_mul` -/

/-- What is known of a result with the product `m` in units of its word `frac0` after the point. -/
structure MulResult (from1 from2 : DecimalT) (s : MulSizes) (frac m : ℕ) (r : DecimalT) : Prop where
  abs : r.abs = m / digBase ^ s.frac0
  wf : 10 ^ (digPerDec1 * roundUp frac - frac) ∣ m / digBase ^ (s.frac0 - roundUp frac) → r.WF
  sign : r.sign = (from1.sign != from2.sign) ∨ m = 0
  frac : r.frac = frac ∨ m = 0
  not_neg_zero : 0 < s.intg0 + s.frac0 → ¬ (r.sign = true ∧ m = 0)

section result
variable {from1 from2 dest : DecimalT}

theorem MulFits.result {n : ℕ} (hs : mulSizes from1 from2 dest.len = s) (h : MulFits from1 from2 s n)
    (h1 : from1.WF) (h2 : from2.WF) (hd : 0 < dest.len) (hlen : s.intg0 + s.frac0 ≤ dest.len)
    (hfrac : roundUp (mulProduct from1 from2 dest).frac ≤ s.frac0)
    (hdvd : digBase ^ (s.frac0 - roundUp (mulProduct from1 from2 dest).frac) ∣ keptProduct from1 from2 n) :
    (decimalMul from1 from2 dest).1 = s.error ∧
      MulResult from1 from2 s (mulProduct from1 from2 dest).frac (keptProduct from1 from2 n)
        (decimalMul from1 from2 dest).2 := by
  obtain ⟨hdone, hval⟩ := h.mulWords h1 h2
  have hadds := h.room.adds h1 h2
  have hwl := hadds.length
  have hww : Words digBase (Decimal.mulWords from1 from2 s).1.reverse :=
    fun w hw => hadds.words w (List.mem_reverse.mp hw)
  rw [length_replicate, ← length_reverse] at hwl
  have hbuf : (mulProduct from1 from2 dest).buf =
      (Decimal.mulWords from1 from2 s).1.reverse ++ dest.buf.drop (s.intg0 + s.frac0) := by rw [← hs]; rfl
  have hsign : (mulProduct from1 from2 dest).sign = (from1.sign != from2.sign) := rfl
  have hintg : (mulProduct from1 from2 dest).intg = s.intg0 * digPerDec1 := by rw [← hs]; rfl
  unfold decimalMul
  simp only [hs, hdone, ne_eq, not_true_eq_false, if_false]
  rw [← hval] at hdvd ⊢
  generalize (Decimal.mulWords from1 from2 s).1.reverse = ws at *
  generalize mulProduct from1 from2 dest = prod at *
  have hzero := mulIsZero_iff ws (dest.buf.drop (s.intg0 + s.frac0))
  rw [hwl, ← hbuf] at hzero
  split
  -- The product is `-0`, and the result is 0.
  case isTrue hc =>
    rw [Bool.and_eq_true] at hc
    have hm := (hzero.mp hc.2).2
    have hmove : mulMove (decimalMakeZero prod) s.intg0 = decimalMakeZero prod := rfl
    refine ⟨rfl, ?_⟩
    simp only [hmove]
    refine ⟨?_, fun _ => DecimalT.decimalMakeZero_wf prod, .inr hm, .inr hm, fun _ h => ?_⟩
    · unfold DecimalT.abs
      rw [DecimalT.decimalMakeZero_mag, hm, Nat.cast_zero, zero_div, zero_div]
    · cases h.1
  case isFalse hc =>
    have hsplit : prod.buf = ws.take (s.intg0 + roundUp prod.frac) ++
        (ws.drop (s.intg0 + roundUp prod.frac) ++ dest.buf.drop (s.intg0 + s.frac0)) := by
      rw [← append_assoc, take_append_drop, hbuf]
    have htake : (ws.take (s.intg0 + roundUp prod.frac)).length = s.intg0 + roundUp prod.frac := by
      rw [length_take]
      omega
    have hquot := hww.value_take (s.intg0 + roundUp prod.frac)
    have hexp : ws.length - (s.intg0 + roundUp prod.frac) = s.frac0 - roundUp prod.frac := by omega
    rw [hexp] at hquot
    have hlenp : prod.len = ws.length + (dest.len - (s.intg0 + s.frac0)) := by
      unfold DecimalT.len at *
      rw [hbuf, length_append, length_drop]
    obtain ⟨k, us, vs, hk, hus, hv, hmem, hbl, hmove⟩ := mulMove_spec hsplit hintg htake.symm
    have huw : Words digBase us := fun w hw => (hww.take _) w (hmem w hw)
    obtain ⟨hmag, hwf⟩ := DecimalT.of_whole hus huw prod.sign vs
    refine ⟨rfl, ?_⟩
    simp only [hmove]
    rw [hv, hquot] at hmag hwf
    refine ⟨?_, hwf (by omega), .inl hsign, .inl rfl, fun hn h => ?_⟩
    · obtain ⟨t, ht⟩ := hdvd
      have hpos := digBase_pow_pos s.frac0
      have hpos' := digBase_pow_pos (roundUp prod.frac)
      rw [ht, Nat.mul_div_cancel_left _ (pow_pos digBase_pos _)] at hmag
      unfold DecimalT.abs
      rw [hmag, ht, div_eq_div_iff hpos'.ne' hpos.ne']
      push_cast
      have hpow' : (digBase : ℚ) ^ s.frac0 = digBase ^ (s.frac0 - roundUp prod.frac) *
          digBase ^ roundUp prod.frac := by rw [← pow_add, Nat.sub_add_cancel hfrac]
      rw [hpow']
      ring
    · apply hc
      rw [Bool.and_eq_true, hzero]
      exact ⟨h.1, List.length_pos_iff.mp (by omega), h.2⟩

theorem abs_mul_abs : from1.abs * from2.abs =
    ((from1.mag * from2.mag : ℕ) : ℚ) / digBase ^ (roundUp from1.frac + roundUp from2.frac) := by
  unfold DecimalT.abs
  rw [pow_add, div_mul_div_comm]
  push_cast
  rfl

theorem toRat_mul_toRat : from1.toRat * from2.toRat = signed (from1.sign != from2.sign) (from1.abs * from2.abs) := by
  unfold DecimalT.toRat signed
  cases from1.sign <;> cases from2.sign <;> simp

theorem toRat_mul_toRat_eq_zero : from1.toRat * from2.toRat = 0 ↔ from1.mag * from2.mag = 0 := by
  have hp := digBase_pow_pos (roundUp from1.frac + roundUp from2.frac)
  have hs : ∀ (s : Bool) (x : ℚ), signed s x = 0 ↔ x = 0 := by
    intro s x
    unfold signed
    split <;> simp
  rw [toRat_mul_toRat, hs, abs_mul_abs, div_eq_zero_iff, or_iff_left hp.ne', Nat.cast_eq_zero]

/-- The product has no digits after the last one: the words that its digits do not need are zeros, and so
are the digits at the end of the last word. -/
theorem dvd_mag_mul_mag (h1 : from1.WF) (h2 : from2.WF) :
    digBase ^ (roundUp from1.frac + roundUp from2.frac - roundUp (from1.frac + from2.frac)) *
        10 ^ (digPerDec1 * roundUp (from1.frac + from2.frac) - (from1.frac + from2.frac)) ∣ from1.mag * from2.mag := by
  have hl1 := le_roundUp_mul from1.frac
  have hl2 := le_roundUp_mul from2.frac
  have hle := le_roundUp_mul (from1.frac + from2.frac)
  have hs := Nat.mul_le_mul_right digPerDec1 (roundUp_add from1.frac from2.frac).1
  have hexp : digPerDec1 * (roundUp from1.frac + roundUp from2.frac - roundUp (from1.frac + from2.frac)) +
      (digPerDec1 * roundUp (from1.frac + from2.frac) - (from1.frac + from2.frac)) =
      digPerDec1 * roundUp from1.frac - from1.frac + (digPerDec1 * roundUp from2.frac - from2.frac) := by
    rw [Nat.mul_sub]
    rw [mul_comm] at hl1 hl2 hle hs
    rw [mul_comm _ digPerDec1, mul_add] at hs
    rw [mul_add]
    omega
  rw [digBase_pow, ← pow_add, hexp, pow_add]
  exact mul_dvd_mul h1.dvd_mag h2.dvd_mag

/-- The result is the product, with the digits after the point of both operands. -/
def IsProduct (from1 from2 r : DecimalT) : Prop :=
  r.WF ∧ r.toRat = from1.toRat * from2.toRat ∧ (r.frac = from1.frac + from2.frac ∨ r.toRat = 0)

/-- In a buffer of `len` words there is room for `k` words after the point only, and `d.1` and `d.2` words
of the operands are left out. -/
def MulCut (from1 from2 : DecimalT) (len k : ℕ) (d : ℕ × ℕ) : Prop :=
  roundUp (from1.intg + from2.intg) + k = len ∧ k < roundUp from1.frac + roundUp from2.frac ∧
    d = mulDropped from1 from2 (roundUp from1.frac + roundUp from2.frac - k)

theorem MulResult.exact {r : DecimalT} (h1 : from1.WF) (h2 : from2.WF) (hf : MulFits from1 from2 s 0)
    (h : MulResult from1 from2 s (from1.frac + from2.frac) (from1.mag * from2.mag) r) :
    IsProduct from1 from2 r ∧
      (0 < from1.intg + from1.frac + from2.intg + from2.frac → ¬ (r.sign = true ∧ r.toRat = 0)) := by
  have hf0 : s.frac0 = roundUp from1.frac + roundUp from2.frac := hf.frac0
  have habs : r.abs = from1.abs * from2.abs := by rw [h.abs, hf0, ← abs_mul_abs]
  have hsigned : r.toRat = signed r.sign (from1.abs * from2.abs) := by
    rw [← habs]
    rfl
  have htoRat : r.toRat = from1.toRat * from2.toRat := by
    obtain hs | hm := h.sign
    · rw [hsigned, hs, toRat_mul_toRat]
    · rw [hsigned, toRat_mul_toRat_eq_zero.mpr hm, abs_mul_abs, hm, Nat.cast_zero, zero_div]
      cases r.sign <;> simp [signed]
  refine ⟨⟨h.wf ?_, htoRat, ?_⟩, fun hd hn => ?_⟩
  · obtain ⟨t, ht⟩ := dvd_mag_mul_mag h1 h2
    rw [hf0, ht, mul_assoc, Nat.mul_div_cancel_left _ (pow_pos digBase_pos _)]
    exact dvd_mul_right _ _
  · exact h.frac.imp_right fun hm => by rw [htoRat, toRat_mul_toRat_eq_zero.mpr hm]
  · have hz := toRat_mul_toRat_eq_zero.mp (htoRat.symm.trans hn.2)
    refine h.not_neg_zero ?_ ⟨hn.1, hz⟩
    rw [hf.intg0, hf0, roundUp_eq, roundUp_eq, roundUp_eq]
    omega

theorem MulCut.truncated {len k : ℕ} {d : ℕ × ℕ} (h : MulCut from1 from2 len k d) :
    (mulSizes from1 from2 len).error = .truncated := by
  have he : (mulSizes from1 from2 len).error =
      (fixIntgFracError len (roundUp (from1.intg + from2.intg)) (roundUp from1.frac + roundUp from2.frac)).2.2 := by
    unfold mulSizes
    simp only
    split_ifs <;> rfl
  obtain ⟨hk, hlt, -⟩ := h
  rw [he, fixIntgFracError, if_pos (by omega), if_neg (by omega)]

end result

end MySQLServer.Decimal
