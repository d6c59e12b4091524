import MySQLServer.Decimal.SubExact
import MySQLServer.Decimal.Leading
import MySQLServer.Decimal.Text

/-! # Printing and parsing

The digits of a text are a number in base ten (`Digits`).  `decimal2string` writes the digits of the number
that it prints, and `internal_str2dec` puts the digits that it reads into words; both keep the number
(`printIntg_digits`, `printFrac_digits`, `parseIntg_spec`, `parseFrac_spec`).  A number that is printed is
parsed as itself if the buffer has room for the `0` that is printed before the point of a number without
digits there (`string2decimal_decimal2string`). -/

namespace MySQLServer.Decimal

open Lib List

/-! ### Digits -/

/-- `cs` are the `n` digits of the number `v`, the first ones of which may be 0. -/
structure Digits (cs : List Char) (n v : ℕ) : Prop where
  length : cs.length = n
  digits : ∀ c ∈ cs, isDigit c = true
  value : value 10 (cs.map digitOf) = v

section digits
variable {cs ds : List Char} {n m v w : ℕ}

theorem Digits.nil : Digits [] 0 0 := ⟨rfl, nofun, rfl⟩

theorem Digits.append (h : Digits cs n v) (h' : Digits ds m w) : Digits (cs ++ ds) (n + m) (v * 10 ^ m + w) where
  length := by rw [length_append, h.length, h'.length]
  digits := by
    intro c hc
    exact (List.mem_append.mp hc).elim (h.digits c) (h'.digits c)
  value := by rw [map_append, value_append, h.value, h'.value, length_map, h'.length]

theorem digitChar_spec {y : ℕ} (hy : y < 10) : Digits [digitChar y] 1 y := by
  have h : ∀ y < 10, isDigit (digitChar y) = true ∧ digitOf (digitChar y) = y := by decide
  refine ⟨rfl, ?_, ?_⟩
  · intro c hc
    rw [List.mem_singleton.mp hc]
    exact (h y hy).1
  · rw [map_singleton, value_singleton]
    exact (h y hy).2

theorem Digits.lt (h : Digits cs n v) : v < 10 ^ n := by
  have hw : Words 10 (cs.map digitOf) := by
    intro x hx
    obtain ⟨c, hc, rfl⟩ := List.mem_map.mp hx
    have hd := h.digits c hc
    unfold isDigit at hd
    unfold digitOf
    rw [Bool.and_eq_true, decide_eq_true_eq, decide_eq_true_eq] at hd
    omega
  have hlt := hw.value_lt
  rw [h.value, length_map, h.length] at hlt
  exact hlt

end digits

/-! ### The digits that are printed -/

theorem printDown_digits (i x : ℕ) : Digits (printDown i x) i (x % 10 ^ i) := by
  induction i generalizing x with
  | zero =>
    rw [pow_zero, Nat.mod_one]
    exact Digits.nil
  | succ i ih =>
    have hl : x - x / 10 * 10 = x % 10 := by omega
    have h := (ih (x / 10)).append (digitChar_spec (Nat.mod_lt x (show 0 < 10 by decide)))
    have hv : x / 10 % 10 ^ i * 10 ^ 1 + x % 10 = x % 10 ^ (i + 1) := by
      rw [pow_one, pow_succ', Nat.mod_mul]
      ring
    rw [hv] at h
    rw [printDown, hl]
    exact h

theorem printUp_digits {i x : ℕ} (hi : i ≤ digPerDec1) (hx : x < digBase) :
    Digits (printUp i x) i (x / 10 ^ (digPerDec1 - i)) := by
  induction i generalizing x with
  | zero =>
    rw [Nat.sub_zero, ← digBase_eq, Nat.div_eq_of_lt hx]
    exact Digits.nil
  | succ i ih =>
    have hf : x / digMask < 10 := by
      unfold digMask digBase at *
      omega
    have hr : x - x / digMask * digMask = x % digMask := by
      rw [mul_comm]
      exact Nat.mod_eq_sub_mul_div.symm
    have hlt : x % digMask * 10 < digBase := by
      unfold digMask digBase
      omega
    have h := (digitChar_spec hf).append (ih (by omega) hlt)
    -- Nine digits are the first one and eight more.
    have hexp : digPerDec1 - i = digPerDec1 - (i + 1) + 1 := by omega
    have hp : digMask = 10 ^ i * 10 ^ (digPerDec1 - (i + 1)) := by
      rw [← pow_add, show i + (digPerDec1 - (i + 1)) = 8 by unfold digPerDec1 at *; omega]
      rfl
    have hv : x / digMask * 10 ^ i + x % digMask * 10 / 10 ^ (digPerDec1 - i) =
        x / 10 ^ (digPerDec1 - (i + 1)) := by
      rw [hexp, pow_succ', mul_comm (x % digMask), Nat.mul_div_mul_left _ _ (by decide)]
      have hpos := Nat.pow_pos (n := digPerDec1 - (i + 1)) (show 0 < 10 by decide)
      nth_rewrite 3 [← Nat.div_add_mod x digMask]
      rw [show digMask * (x / digMask) + x % digMask =
        10 ^ (digPerDec1 - (i + 1)) * (x / digMask * 10 ^ i) + x % digMask by rw [hp]; ring,
        Nat.mul_add_div hpos]
    rw [hv, Nat.add_comm 1 i] at h
    rw [printUp, hr]
    exact h

theorem printIntg_digits {ws : List ℕ} {intg : ℕ} (hl : ws.length = roundUp intg)
    (hw : Words digBase ws) (hlt : value digBase ws.reverse < 10 ^ intg) :
    Digits (printIntg ws intg) intg (value digBase ws.reverse) := by
  induction ws generalizing intg with
  | nil =>
    rw [roundUp_eq_zero.mp hl.symm]
    exact Digits.nil
  | cons x ws ih =>
    rw [words_cons] at hw
    have hp : intg > 0 := by
      rw [length_cons, roundUp_eq] at hl
      omega
    have hl' : ws.length = roundUp (intg - digPerDec1) := by
      rw [roundUp_eq_succ hp] at hl
      exact Nat.succ.inj hl
    rw [printIntg, if_pos hp]
    rw [reverse_cons, value_append, length_singleton, pow_one, value_singleton] at hlt ⊢
    rcases le_total digPerDec1 intg with hle | hle
    · have hexp : intg = intg - digPerDec1 + digPerDec1 := by omega
      have hlt' : value digBase ws.reverse < 10 ^ (intg - digPerDec1) := by
        rw [hexp, pow_add, ← digBase_eq] at hlt
        exact Nat.lt_of_mul_lt_mul_right (lt_of_le_of_lt (Nat.le_add_right _ _) hlt)
      have h := (ih hl' hw.2 hlt').append (printDown_digits digPerDec1 x)
      rw [← hexp, ← digBase_eq, Nat.mod_eq_of_lt hw.1] at h
      rw [min_eq_right hle]
      exact h
    · have hz : intg - digPerDec1 = 0 := by omega
      have hn : ws = [] := by
        rw [hz] at hl'
        exact List.length_eq_zero_iff.mp hl'
      have h := printDown_digits intg x
      rw [hn, reverse_nil, value_nil, zero_mul, zero_add] at hlt ⊢
      rw [Nat.mod_eq_of_lt hlt] at h
      rw [min_eq_left hle, printIntg, nil_append]
      exact h

theorem printFrac_digits {ws : List ℕ} {frac : ℕ} (hl : roundUp frac ≤ ws.length)
    (hw : Words digBase (ws.take (roundUp frac))) :
    Digits (printFrac ws frac) frac (value digBase (ws.take (roundUp frac)) /
      10 ^ (digPerDec1 * roundUp frac - frac)) := by
  induction ws generalizing frac with
  | nil =>
    rw [roundUp_eq_zero.mp (Nat.le_zero.mp hl)]
    exact Digits.nil
  | cons x ws ih =>
    rw [printFrac]
    by_cases hp : frac > 0
    · have hs := roundUp_eq_succ hp
      rw [hs, length_cons] at hl
      rw [hs, take_succ_cons, words_cons] at hw
      have hr := ih (by omega) hw.2
      have ht : (ws.take (roundUp (frac - digPerDec1))).length = roundUp (frac - digPerDec1) := by
        rw [length_take]
        omega
      rw [if_pos hp, hs, take_succ_cons, value_cons, ht]
      have h := (printUp_digits (min_le_right frac digPerDec1) hw.1).append hr
      rcases le_total digPerDec1 frac with hle | hle
      · have hexp : digPerDec1 * (roundUp (frac - digPerDec1) + 1) - frac =
            digPerDec1 * roundUp (frac - digPerDec1) - (frac - digPerDec1) := by
          rw [Nat.mul_succ]
          omega
        rw [min_eq_right hle, Nat.sub_self, pow_zero, Nat.div_one, Nat.add_sub_cancel' hle] at h
        rw [min_eq_right hle, hexp, digBase_pow_roundUp, ← mul_assoc, mul_comm (x * _),
          Nat.mul_add_div (Nat.pow_pos (by decide))]
        exact h
      · have hz : frac - digPerDec1 = 0 := by omega
        rw [min_eq_left hle, hz, show roundUp 0 = 0 from rfl, take_zero, value_nil,
          Nat.zero_div, add_zero, add_zero, pow_zero, mul_one] at h
        rw [min_eq_left hle, hz, show roundUp 0 = 0 from rfl, take_zero, value_nil, zero_add,
          mul_one, add_zero, pow_zero, mul_one]
        exact h
    · have hz : frac = 0 := by omega
      rw [if_neg hp, hz, show roundUp 0 = 0 from rfl, take_zero, value_nil, Nat.zero_div]
      exact Digits.nil

/-! ### The words that are parsed -/

theorem digitOf_lt {c : Char} (h : isDigit c = true) : digitOf c < 10 := by
  unfold isDigit at h
  rw [Bool.and_eq_true, decide_eq_true_eq, decide_eq_true_eq] at h
  unfold digitOf
  omega

/-- Some digits of a word are there already: `x` are the last `i` ones. -/
theorem parseIntg_spec {cs : List Char} (hc : ∀ c ∈ cs, isDigit c = true) {i x : ℕ} {ws : List ℕ}
    (hi : i < digPerDec1) (hx : x < 10 ^ i) (hw : Words digBase ws) :
    (parseIntg cs i x ws).length = roundUp (i + cs.length) + ws.length ∧ Words digBase (parseIntg cs i x ws) ∧
      value digBase (parseIntg cs i x ws) =
        (x + 10 ^ i * value 10 (cs.reverse.map digitOf)) * digBase ^ ws.length + value digBase ws := by
  induction cs generalizing i x ws with
  | nil =>
    have hlt : x < digBase := hx.trans_le (by
      rw [digBase_eq]
      exact Nat.pow_le_pow_right (by decide) hi.le)
    rw [parseIntg, length_nil, add_zero, reverse_nil, map_nil, value_nil, mul_zero, add_zero]
    by_cases h : i ≠ 0
    · have hround : roundUp i = 1 := by
        rw [roundUp_eq]
        unfold digPerDec1 at hi
        omega
      rw [if_pos h, length_cons, value_cons, hround, Nat.add_comm]
      exact ⟨rfl, words_cons.mpr ⟨hlt, hw⟩, rfl⟩
    · have hz : i = 0 := not_not.mp h
      rw [hz, pow_zero] at hx
      rw [if_neg h, hz, show x = 0 by omega, zero_mul, zero_add]
      exact ⟨(Nat.zero_add _).symm, hw, rfl⟩
  | cons c cs ih =>
    have hd := digitOf_lt (hc c mem_cons_self)
    have hr : ∀ c ∈ cs, isDigit c = true := fun c' h' => hc c' (mem_cons_of_mem _ h')
    have hx' : x + digitOf c * powers10 i < 10 ^ (i + 1) := by
      have hm := Nat.mul_le_mul_right (10 ^ i) hd
      rw [Nat.succ_mul] at hm
      unfold powers10
      rw [pow_succ']
      omega
    have hv : x + 10 ^ i * value 10 ((c :: cs).reverse.map digitOf) =
        x + digitOf c * powers10 i + 10 ^ (i + 1) * value 10 (cs.reverse.map digitOf) := by
      rw [reverse_cons, map_append, value_append, map_singleton, value_singleton, length_singleton, pow_succ]
      unfold powers10
      ring
    rw [parseIntg, hv]
    by_cases hf : i + 1 = digPerDec1
    · have hword : x + digitOf c * powers10 i < digBase := by
        rw [digBase_eq, ← hf]
        exact hx'
      obtain ⟨h1, h2, h3⟩ := ih hr (i := 0) (x := 0) (by decide) Nat.one_pos
        (words_cons.mpr ⟨hword, hw⟩)
      simp only [if_pos hf]
      refine ⟨?_, h2, ?_⟩
      · rw [h1, length_cons, length_cons, Nat.add_comm cs.length, ← Nat.add_assoc i, hf, zero_add,
          ← one_mul digPerDec1, roundUp_mul_add]
        omega
      · rw [h3, value_cons, length_cons, hf, ← digBase_eq, pow_succ]
        ring
    · obtain ⟨h1, h2, h3⟩ := ih hr (i := i + 1) (by omega) hx' hw
      simp only [if_neg hf]
      refine ⟨?_, h2, h3⟩
      rw [h1, length_cons, Nat.add_comm cs.length, Nat.add_assoc]

/-- Some digits of a word are there already: `x` are the first `i` ones. -/
theorem parseFrac_spec {cs : List Char} (hc : ∀ c ∈ cs, isDigit c = true) {i x : ℕ}
    (hi : i < digPerDec1) (hx : x < 10 ^ i) :
    (parseFrac cs i x).length = roundUp (i + cs.length) ∧ Words digBase (parseFrac cs i x) ∧
      value digBase (parseFrac cs i x) = (x * 10 ^ cs.length + value 10 (cs.map digitOf)) *
        10 ^ (digPerDec1 * roundUp (i + cs.length) - (i + cs.length)) := by
  induction cs generalizing i x with
  | nil =>
    rw [parseFrac, length_nil, add_zero, map_nil, value_nil, pow_zero, mul_one, add_zero]
    by_cases h : i ≠ 0
    · have hr : roundUp i = 1 := by
        rw [roundUp_eq]
        unfold digPerDec1 at hi
        omega
      have hw : x * powers10 (digPerDec1 - i) < digBase := by
        have hm := Nat.mul_lt_mul_of_pos_right hx (Nat.pow_pos (n := digPerDec1 - i) (show 0 < 10 by decide))
        rw [← pow_add, Nat.add_sub_cancel' hi.le, ← digBase_eq] at hm
        exact hm
      rw [if_pos h, hr, mul_one, value_singleton]
      exact ⟨rfl, words_cons.mpr ⟨hw, Words.nil⟩, rfl⟩
    · have hz : i = 0 := not_not.mp h
      rw [hz, pow_zero] at hx
      rw [if_neg h, hz, show x = 0 by omega, zero_mul]
      exact ⟨rfl, Words.nil, rfl⟩
  | cons c cs ih =>
    have hd := digitOf_lt (hc c mem_cons_self)
    have hrest : ∀ c ∈ cs, isDigit c = true := fun c' h' => hc c' (mem_cons_of_mem _ h')
    have hx' : digitOf c + x * 10 < 10 ^ (i + 1) := by
      rw [pow_succ]
      omega
    have hv : x * 10 ^ (c :: cs).length + value 10 ((c :: cs).map digitOf) =
        (digitOf c + x * 10) * 10 ^ cs.length + value 10 (cs.map digitOf) := by
      rw [map_cons, value_cons, length_cons, length_map, pow_succ]
      ring
    have hl : i + (c :: cs).length = i + 1 + cs.length := by
      rw [length_cons]
      omega
    rw [parseFrac, hv, hl]
    by_cases hf : i + 1 = digPerDec1
    · have hw : digitOf c + x * 10 < digBase := by
        rw [digBase_eq, ← hf]
        exact hx'
      obtain ⟨h1, h2, h3⟩ := ih hrest (i := 0) (x := 0) (by decide) Nat.one_pos
      rw [zero_add] at h1 h3
      have hr : roundUp (i + 1 + cs.length) = roundUp cs.length + 1 := by
        rw [hf, ← one_mul digPerDec1, roundUp_mul_add, Nat.add_comm]
      have hexp : digPerDec1 * (roundUp cs.length + 1) - (i + 1 + cs.length) =
          digPerDec1 * roundUp cs.length - cs.length := by
        rw [hf, Nat.mul_succ]
        omega
      simp only [if_pos hf]
      refine ⟨?_, words_cons.mpr ⟨hw, h2⟩, ?_⟩
      · rw [length_cons, h1, hr]
      · rw [value_cons, h1, h3, hr, hexp, zero_mul, zero_add, digBase_pow_roundUp]
        ring
    · obtain ⟨h1, h2, h3⟩ := ih hrest (i := i + 1) (by omega) hx'
      simp only [if_neg hf]
      exact ⟨h1, h2, h3⟩

/-! ### The round trip -/

/-- A text with digits before the point, and after it if there are any. -/
def numberText (sign : Bool) (ds fs : List Char) : List Char :=
  (if sign then ['-'] else []) ++ ds ++ if fs = [] then [] else '.' :: fs

section roundTrip
variable {d dest : DecimalT}

theorem DecimalT.WF.removeLeadingZeroes_le (h : d.WF) : (removeLeadingZeroes d).1 ≤ d.intg := by
  have hl := removeLeadingZeroes_spec h
  by_contra hlt
  have hle := hl.le (by omega)
  rw [← hl.value_take] at hle
  have hp := Nat.pow_le_pow_right (show 0 < 10 by decide)
    (show d.intg ≤ (removeLeadingZeroes d).1 - 1 by omega)
  have hb := h.intg_lt
  omega

variable {r : ℕ × List ℕ} {intg : ℕ} {buf0 : List ℕ}

theorem intg_digits (h : d.WF) (hl : Leading d.intg d.buf r)
    (hintg : intg = if r.1 + d.frac = 0 then 1 else r.1) (hb : buf0 = if r.1 + d.frac = 0 then [0] else r.2) :
    Digits (if intg ≠ 0 then printIntg (buf0.take (roundUp intg)).reverse intg else ['0'])
      (max r.1 1) (value digBase (d.buf.take (roundUp d.intg))) := by
  have hlt := hl.lt
  have hf := h.fits
  rw [hl.value_take]
  have hz : r.1 = 0 → value digBase (r.2.take (roundUp r.1)) = 0 := by
    intro hr
    rw [hr, pow_zero] at hlt
    rw [hr]
    omega
  by_cases hn : r.1 + d.frac = 0
  · rw [if_pos hn] at hintg hb
    have hr : r.1 = 0 := by omega
    rw [hz hr, hr, hintg, hb]
    exact digitChar_spec (show 0 < 10 by decide)
  · rw [if_neg hn] at hintg hb
    by_cases hr : r.1 = 0
    · rw [hz hr, hintg, hr, if_neg (by decide)]
      exact digitChar_spec (show 0 < 10 by decide)
    · have hlen : roundUp r.1 ≤ r.2.length := by
        refine hl.length ?_
        unfold DecimalT.len at hf
        omega
      have hwords := hl.words (h.words_take (Nat.le_add_right _ _))
      rw [hintg, hb, if_pos hr, max_eq_left (by omega)]
      have hd := @printIntg_digits (r.2.take (roundUp r.1)).reverse r.1 ?_ ?_ ?_
      · rw [reverse_reverse] at hd
        exact hd
      · rw [length_reverse, length_take, Nat.min_eq_left hlen]
      · exact fun w hw => hwords w (List.mem_reverse.mp hw)
      · rw [reverse_reverse]
        exact hlt

theorem frac_digits (h : d.WF) (hl : Leading d.intg d.buf r) (hfr : d.frac ≠ 0)
    (hin : intg = if r.1 + d.frac = 0 then 1 else r.1) (hb : buf0 = if r.1 + d.frac = 0 then [0] else r.2) :
    ∃ f, Digits (printFrac (buf0.drop (roundUp intg)) d.frac) d.frac f ∧
      f * 10 ^ (digPerDec1 * roundUp d.frac - d.frac) =
        value digBase ((d.buf.drop (roundUp d.intg)).take (roundUp d.frac)) := by
  have hf := h.fits
  unfold DecimalT.len at hf
  rw [if_neg (by omega)] at hin hb
  rw [hin, hb, ← hl.drop_eq]
  have hwr : Words digBase ((d.buf.drop (roundUp d.intg)).take (roundUp d.frac)) := by
    have hw := h.words.drop (roundUp d.intg)
    unfold DecimalT.words at hw
    rw [drop_take, Nat.add_sub_cancel_left] at hw
    exact hw
  refine ⟨_, printFrac_digits ?_ hwr, Nat.div_mul_cancel ?_⟩
  · rw [length_drop]
    omega
  · have hd := h.dvd_mag
    rw [DecimalT.mag_eq h.fits] at hd
    refine (Nat.dvd_add_right (Dvd.dvd.mul_left ?_ _)).mp hd
    rw [digBase_pow_roundUp]
    exact Dvd.intro_left _ rfl

theorem fitString_ok (hle : r.1 ≤ d.intg) (hin : intg = if r.1 + d.frac = 0 then 1 else r.1)
    {toLen fixedDecimals : ℕ} (hto : decimalStringSize d ≤ toLen) :
    fitString (if d.sign then 1 else 0) intg d.frac (if intg = 0 then 1 else intg) d.frac toLen 0
      fixedDecimals = ⟨.ok, intg, d.frac, (if d.sign then 1 else 0) + (if intg = 0 then 1 else intg) +
        (if d.frac ≠ 0 then 1 else 0) + d.frac⟩ := by
  have hl : ¬ (if d.sign then 1 else 0) + (if intg = 0 then 1 else intg) +
      (if d.frac ≠ 0 then 1 else 0) + d.frac > toLen - 1 := by
    unfold decimalStringSize at hto
    have hs : (if d.sign then 1 else 0) ≤ 1 := by split <;> omega
    have hw : (if intg = 0 then 1 else intg) ≤ if d.intg ≠ 0 then d.intg else 1 := by
      rw [hin]
      split_ifs <;> omega
    have hp : (if d.frac ≠ 0 then 1 else 0) = if d.frac > 0 then 1 else 0 := by
      split_ifs <;> omega
    omega
  unfold fitString
  simp only [ne_eq, not_true_eq_false, if_false]
  rw [if_neg hl]

/-- What is printed. -/
theorem decimal2string_spec (h : d.WF) {toLen : ℕ} (hto : decimalStringSize d ≤ toLen)
    (fixedDecimals : ℕ) (filler : Char) : ∃ ds fs f, decimal2string d toLen 0 fixedDecimals filler =
        (.ok, (numberText d.sign ds fs).length, numberText d.sign ds fs) ∧
      Digits ds (max (removeLeadingZeroes d).1 1) (value digBase (d.buf.take (roundUp d.intg))) ∧
      Digits fs d.frac f ∧ f * 10 ^ (digPerDec1 * roundUp d.frac - d.frac) =
        value digBase ((d.buf.drop (roundUp d.intg)).take (roundUp d.frac)) := by
  have hl := removeLeadingZeroes_spec h
  have hle := h.removeLeadingZeroes_le
  unfold decimal2string
  generalize removeLeadingZeroes d = r at *
  obtain ⟨intg, hintg⟩ : ∃ n, n = if r.1 + d.frac = 0 then 1 else r.1 := ⟨_, rfl⟩
  obtain ⟨buf0, hb⟩ : ∃ ws, ws = if r.1 + d.frac = 0 then [0] else r.2 := ⟨_, rfl⟩
  have hfit := @fitString_ok d r intg hle hintg toLen fixedDecimals hto
  have hds := intg_digits h hl hintg hb
  have hw : (if intg = 0 then 1 else intg) = max r.1 1 := by
    rw [hintg]
    split_ifs <;> omega
  have hfill : (if intg = 0 then (if intg = 0 then 1 else intg) - 1
      else (if intg = 0 then 1 else intg) - intg) = 0 := by
    split_ifs <;> omega
  simp only [ne_eq, not_true_eq_false, if_false, ← hintg, ← hb, hfit, hfill, replicate_zero, append_nil, Nat.sub_self]
  rw [hw]
  by_cases hfrac : d.frac = 0
  · refine ⟨_, [], 0, ?_, hds, ?_, ?_⟩
    · unfold numberText
      simp only [hfrac, not_true_eq_false, if_false, if_true, append_nil, length_append, hds.length, add_zero, ne_eq]
      cases d.sign <;> rfl
    · rw [hfrac]
      exact Digits.nil
    · rw [hfrac]
      rfl
  · obtain ⟨f, hfs, hf⟩ := frac_digits h hl hfrac hintg hb
    refine ⟨_, _, f, ?_, hds, hfs, hf⟩
    have hne : printFrac (buf0.drop (roundUp intg)) d.frac ≠ [] := by
      intro hn
      have hlen := hfs.length
      rw [hn, length_nil] at hlen
      omega
    unfold numberText
    simp only [hfrac, not_false_eq_true, if_true, if_neg hne, length_append, hds.length, ne_eq, length_cons, hfs.length]
    cases d.sign <;> simp <;> omega

theorem not_isSpace_of_isDigit {c : Char} (h : isDigit c = true) : isSpace c = false ∧ c ≠ '-' ∧ c ≠ '+' := by
  unfold isDigit at h
  rw [Bool.and_eq_true, decide_eq_true_eq, decide_eq_true_eq] at h
  refine ⟨?_, ?_, ?_⟩
  · unfold isSpace
    simp only [Bool.or_eq_false_iff, Bool.and_eq_false_iff, decide_eq_false_iff_not, beq_eq_false_iff_ne]
    omega
  · rintro rfl
    simp at h
  · rintro rfl
    simp at h

theorem splitDigits_eq {ds fs : List Char} (hd : ∀ c ∈ ds, isDigit c = true) (hf : ∀ c ∈ fs, isDigit c = true) :
    splitDigits (ds ++ if fs = [] then [] else '.' :: fs) = (ds, fs, []) := by
  unfold splitDigits
  have ht : ∀ cs : List Char, (∀ c ∈ cs, isDigit c = true) →
      cs.takeWhile isDigit = cs ∧ cs.dropWhile isDigit = [] := fun cs h =>
    ⟨List.takeWhile_eq_self_iff.mpr h, List.dropWhile_eq_nil_iff.mpr h⟩
  by_cases hn : fs = []
  · rw [if_pos hn, append_nil, (ht ds hd).1, (ht ds hd).2, hn]
  · have hp : isDigit '.' = false := by decide
    rw [if_neg hn, takeWhile_append_of_pos hd, dropWhile_append_of_pos hd,
      takeWhile_cons_of_neg (by rw [hp]; decide), dropWhile_cons_of_neg (by rw [hp]; decide),
      append_nil]
    simp only [(ht fs hf).1, (ht fs hf).2]

section parse
variable (exponent : DecErr → DecimalT → List Char → DecErr × DecimalT × List Char)

/-- A text that has room is parsed as the number of its digits. -/
theorem string2decimal_numberText {sign : Bool} {ds fs : List Char} {n m v f : ℕ} (hds : Digits ds n v)
    (hn : 0 < n) (hfs : Digits fs m f) (hr : roundUp n + roundUp m ≤ dest.len) :
    ∃ ws tail, string2decimal exponent (numberText sign ds fs) dest =
        (.ok, ⟨n, m, sign, ws ++ tail⟩, []) ∧ ws.length = roundUp n + roundUp m ∧ Words digBase ws ∧
      value digBase ws = v * digBase ^ roundUp m + f * 10 ^ (digPerDec1 * roundUp m - m) := by
  obtain ⟨c, cs, rfl⟩ : ∃ c cs, ds = c :: cs := by
    have hl := hds.length
    exact exists_cons_of_length_pos (by omega)
  obtain ⟨hspace, hm, hp⟩ := not_isSpace_of_isDigit (hds.digits c mem_cons_self)
  have hs := splitDigits_eq hds.digits hfs.digits
  have hf : fitDigits dest false n m = (.ok, n, m) := by
    unfold fitDigits fixIntgFracError
    simp only [Bool.false_eq_true, if_false]
    rw [if_neg (by omega)]
    simp
  have hrev : ∀ x ∈ (c :: cs).reverse, isDigit x = true := fun x hx =>
    hds.digits x (List.mem_reverse.mp hx)
  obtain ⟨h1, h2, h3⟩ := @parseIntg_spec (c :: cs).reverse hrev 0 0 [] (by decide) Nat.one_pos Words.nil
  obtain ⟨g1, g2, g3⟩ := @parseFrac_spec fs hfs.digits 0 0 (by decide) Nat.one_pos
  rw [length_reverse, hds.length, zero_add, length_nil, add_zero] at h1
  rw [reverse_reverse, hds.value, pow_zero, one_mul, zero_add, length_nil, pow_zero, mul_one, value_nil, add_zero] at h3
  rw [hfs.length, zero_add] at g1 g3
  rw [hfs.value, zero_mul, zero_add] at g3
  have ht1 : (c :: cs).reverse.take n = (c :: cs).reverse :=
    take_of_length_le (by rw [length_reverse, hds.length])
  have ht2 : fs.take m = fs := take_of_length_le (by rw [hfs.length])
  refine ⟨_, dest.buf.drop (parseIntg (c :: cs).reverse 0 0 [] ++ parseFrac fs 0 0).length, ?_, ?_,
    words_append.mpr ⟨h2, g2⟩, ?_⟩
  · unfold string2decimal internalStr2dec numberText
    generalize (if fs = [] then [] else '.' :: fs) = point at *
    cases sign with
    | true =>
      have hd : (['-'] ++ (c :: cs) ++ point).dropWhile isSpace = '-' :: ((c :: cs) ++ point) := rfl
      simp only [if_true]
      rw [hd]
      simp only [true_or, if_true, hs, hds.length, hfs.length, hf, ht1, ht2, reduceCtorEq, if_false, BEq.rfl]
      rw [if_neg (by omega)]
    | false =>
      have hd : ([] ++ (c :: cs) ++ point).dropWhile isSpace = c :: (cs ++ point) := by
        rw [nil_append, cons_append, dropWhile_cons_of_neg (by rw [hspace]; decide)]
      have hs' : splitDigits (c :: (cs ++ point)) = (c :: cs, fs, []) := hs
      simp only [Bool.false_eq_true, if_false]
      rw [hd]
      simp only [hm, hp, or_self, if_false, hs', hds.length, hfs.length, hf, ht1, ht2, reduceCtorEq]
      rw [if_neg (by omega), show (c == '-') = false from beq_eq_false_iff_ne.mpr hm]
  · rw [length_append, h1, g1]
  · rw [value_append, h3, g1, g3]

/-- **Printing and parsing.**  In a buffer of the same length a number is parsed as itself, if it has digits
before the point or there is a word more. -/
theorem string2decimal_decimal2string (h : d.WF) (hroom : 0 < d.intg ∨ roundUp d.frac < d.len) {toLen : ℕ}
    (hto : decimalStringSize d ≤ toLen) (fixedDecimals : ℕ) (filler : Char) (hdest : dest.len = d.len) :
    ∃ text r, decimal2string d toLen 0 fixedDecimals filler = (.ok, text.length, text) ∧
      string2decimal exponent text dest = (.ok, r, []) ∧ r.WF ∧ r.toRat = d.toRat ∧ r.frac = d.frac := by
  obtain ⟨ds, fs, f, ht, hds, hfs, hf⟩ := decimal2string_spec h hto fixedDecimals filler
  have hle := h.removeLeadingZeroes_le
  have hfits := h.fits
  have hr' : roundUp (max (removeLeadingZeroes d).1 1) + roundUp d.frac ≤ dest.len := by
    rw [roundUp_max, hdest]
    have hmono := roundUp_mono hle
    have hone : roundUp 1 = 1 := rfl
    rcases hroom with hpos | hlt
    · have hintg : 1 ≤ roundUp d.intg := roundUp_mono hpos
      omega
    · omega
  obtain ⟨ws, tail, hp, hl, hw, hvalue⟩ :=
    @string2decimal_numberText dest exponent d.sign _ _ _ _ _ _ hds (by omega) hfs hr'
  have hm : value digBase ws = d.mag := by
    rw [hvalue, hf, DecimalT.mag_eq h.fits]
  refine ⟨_, _, ht, hp, ?_, ?_, rfl⟩
  · refine DecimalT.WF.of_words hl ?_ hw ?_ ?_
    · have hone := roundUp_mono (le_max_right (removeLeadingZeroes d).1 1)
      have ho' : roundUp 1 = 1 := rfl
      rw [length_append, hl]
      omega
    · have hv := hds.lt
      have hf' := Nat.mul_lt_mul_of_pos_right hfs.lt
        (Nat.pow_pos (n := digPerDec1 * roundUp d.frac - d.frac) (show 0 < 10 by decide))
      rw [← digBase_pow_roundUp] at hf'
      have hmul := Nat.mul_le_mul_right (digBase ^ roundUp d.frac) hv
      rw [Nat.succ_mul] at hmul
      rw [hvalue]
      omega
    · rw [hvalue, digBase_pow_roundUp, ← mul_assoc]
      exact Nat.dvd_add (Dvd.intro_left _ rfl) (Dvd.intro_left _ rfl)
  · unfold DecimalT.toRat DecimalT.abs DecimalT.mag
    rw [DecimalT.words_append hl, hm]
    rfl

end parse

end roundTrip

theorem string2decimal_decimal2string_oneAndHalf : oneAndHalf.WF ∧
    ∃ text r, decimal2string oneAndHalf 10 0 0 ' ' = (.ok, text.length, text) ∧
      string2decimal (fun e d s => (e, d, s)) text ⟨0, 0, false, [7, 7]⟩ = (.ok, r, []) ∧ r.WF ∧
      r.toRat = oneAndHalf.toRat ∧ r.frac = 1 :=
  ⟨oneAndHalf_wf, string2decimal_decimal2string _ oneAndHalf_wf (by decide) (by decide) 0 ' ' rfl⟩

/-- Without digits before the point, `0.5` fills its only word; the text has one digit more. -/
theorem string2decimal_loses_fraction :
    decimal2string ⟨0, 1, false, [500000000]⟩ 10 0 0 ' ' = (.ok, 3, ['0', '.', '5']) ∧
      string2decimal (fun e d s => (e, d, s)) ['0', '.', '5'] ⟨0, 0, false, [7]⟩ =
        (.truncated, ⟨1, 0, false, [0]⟩, []) := by
  decide

end MySQLServer.Decimal
