import MySQLServer.Decimal.Leading
import MySQLServer.Decimal.DivLoop

/-! # What a division starts with

The operands have no zeros at their starts, and the first word of the quotient is at the place that the
digits of the operands give (`divSetup_spec`).  After any number of iterations the words of the quotient
are the first ones of the quotient of the operands (`SetupSpec.floor`), and what is left is the remainder
(`SetupSpec.rest`). -/

namespace MySQLServer.Decimal

open Lib LongDivision List

/-! ### The operands -/

section operands
variable {d : DecimalT}

theorem roundUp_prec (d : DecimalT) :
    roundUp (d.intg + roundUp d.frac * digPerDec1) = roundUp d.intg + roundUp d.frac := by
  rw [add_comm, roundUp_mul_add, add_comm]

theorem leadingDigits_spec (h : d.WF) : Leading (d.intg + roundUp d.frac * digPerDec1) d.buf (leadingDigits d) := by
  have hf := h.fits
  have hlt := h.mag_lt
  rw [digBase_pow, ← pow_add, mul_comm digPerDec1] at hlt
  have hs := @leading_skip d.buf (d.intg + roundUp d.frac * digPerDec1)
    (by rw [roundUp_prec]; exact hf) (by rw [roundUp_prec]; exact h.words)
    (by rw [roundUp_prec]; exact hlt) _ rfl
  simp only [Nat.pos_iff_ne_zero, ne_eq, ite_not, gt_iff_lt] at hs ⊢
  exact hs

/-- A number that is not 0, without the zeros at its start: its words, and how many digits the first one
has. -/
structure Trimmed (d : DecimalT) (k : ℕ) (ws : List ℕ) : Prop where
  words : Words digBase ws
  value : value digBase ws = d.mag
  take : (leadingDigits d).2.take (roundUp (leadingDigits d).1) = ws
  head : (leadingDigits d).2.headD 0 = ws.headD 0
  length : roundUp (leadingDigits d).1 = ws.length
  prec : (leadingDigits d).1 + digPerDec1 = digPerDec1 * ws.length + k
  digits_pos : 0 < k
  digits_le : k ≤ digPerDec1
  le : 10 ^ (k - 1) ≤ ws.headD 0
  lt : ws.headD 0 < 10 ^ k

theorem leadingDigits_value (h : d.WF) :
    value digBase ((leadingDigits d).2.take (roundUp (leadingDigits d).1)) = d.mag := by
  rw [← (leadingDigits_spec h).value_take, roundUp_prec]
  rfl

theorem leadingDigits_eq_zero (h : d.WF) : (leadingDigits d).1 = 0 ↔ d.mag = 0 := by
  have hv := leadingDigits_value h
  constructor
  · intro hz
    rw [← hv, hz]
    rfl
  · intro hm
    by_contra hne
    have hle := (leadingDigits_spec h).le (Nat.pos_of_ne_zero hne)
    have hp := Nat.pow_pos (n := (leadingDigits d).1 - 1) (show 0 < 10 by decide)
    omega

theorem exists_trimmed (h : d.WF) (hne : d.mag ≠ 0) : ∃ k ws, Trimmed d k ws := by
  have hf := h.fits
  have hs := leadingDigits_spec h
  have hl : roundUp (d.intg + roundUp d.frac * digPerDec1) ≤ d.buf.length := by
    rw [roundUp_prec]
    exact hf
  have hw : Words digBase (d.buf.take (roundUp (d.intg + roundUp d.frac * digPerDec1))) := by
    rw [roundUp_prec]
    exact h.words
  have hpos : 0 < (leadingDigits d).1 :=
    Nat.pos_of_ne_zero fun hz => hne ((leadingDigits_eq_zero h).mp hz)
  have hl' := hs.length hl
  obtain ⟨n, k, w, rest, hr, hn, hp, hk, hk', hle, hlt⟩ := hs.head hl hw hpos
  have ht : ((leadingDigits d).2.take (roundUp (leadingDigits d).1)).length = n + 1 := by
    rw [length_take, Nat.min_eq_left hl', hn]
  have hh : ((leadingDigits d).2.take (roundUp (leadingDigits d).1)).headD 0 = w := by
    rw [hn, hr, take_succ_cons, headD_cons]
  refine ⟨k, _, hs.words hw, leadingDigits_value h, rfl, ?_, by rw [ht, hn], ?_, hk, hk', ?_, ?_⟩
  · rw [hh, hr, headD_cons]
  · rw [ht, hp, Nat.mul_succ]
    omega
  · rw [hh]
    exact hle
  · rw [hh]
    exact hlt

theorem Trimmed.cons {k : ℕ} {ws : List ℕ} (h : Trimmed d k ws) : ∃ w rest, ws = w :: rest ∧ 0 < w := by
  have hle := h.le
  have hp := Nat.pow_pos (n := k - 1) (show 0 < 10 by decide)
  cases ws with
  | nil =>
    simp only [headD_nil] at hle
    omega
  | cons w rest =>
    rw [headD_cons] at hle
    exact ⟨w, rest, rfl, by omega⟩

end operands

/-! ### The place of the quotient -/

/-- The words before the point, if the zeros at the start are left out.  For a number with zeros after the
point it is negative. -/
def wordsBefore (d : DecimalT) : ℤ := (roundUp (leadingDigits d).1 : ℤ) - roundUp d.frac

variable {ws : List ℕ} {d : DecimalT}

theorem Trimmed.wordsBefore_eq {k : ℕ} (h : Trimmed d k ws) : wordsBefore d = ws.length - roundUp d.frac := by
  unfold wordsBefore
  rw [h.length]

/-- The words of a quotient before the point, in the same way. -/
def quotWords (from1 from2 : DecimalT) : ℤ :=
  wordsBefore from1 - wordsBefore from2 +
    if (leadingDigits from1).2.headD 0 ≥ (leadingDigits from2).2.headD 0 then 1 else 0

/-- The digits of the first words say which one is less. -/
theorem digits_of_le {u v k1 k2 : ℕ} (hu : u < 10 ^ k1) (hv : 10 ^ (k2 - 1) ≤ v) (h : v ≤ u) : k2 ≤ k1 := by
  have hlt : 10 ^ (k2 - 1) < 10 ^ k1 := by omega
  have hexp := (Nat.pow_lt_pow_iff_right (show 1 < 10 by decide)).mp hlt
  omega

/-- `dintg` counts digits; its words are the words of the quotient. -/
theorem dintg_words {e dintg : ℤ} {k1 k2 c : ℕ} (hk1 : 0 < k1 ∧ k1 ≤ digPerDec1)
    (hk2 : 0 < k2 ∧ k2 ≤ digPerDec1) (hd : dintg = digPerDec1 * e + k1 - k2 + c)
    (hc : c = 0 ∧ k1 ≤ k2 ∨ c = 1 ∧ k2 ≤ k1) :
    (if dintg < 0 then 0 else roundUp dintg.toNat) = (e + c).toNat ∧
      (if dintg < 0 then (-(dintg.tdiv digPerDec1)).toNat else 0) = (-(e + c)).toNat := by
  unfold digPerDec1 at *
  by_cases h : dintg < 0
  · have ht : -(dintg.tdiv (9 : ℕ)) = -dintg / 9 := by
      rw [← Int.neg_tdiv, Int.tdiv_eq_ediv_of_nonneg (by omega)]
      rfl
    rw [if_pos h, if_pos h, ht]
    omega
  · rw [if_neg h, if_neg h, roundUp_eq]
    omega

/-! ### The state before the loop -/

theorem divisorWords_spec {k : ℕ} (h : Trimmed d k ws) :
    Divisor (divisorWords (leadingDigits d).1 (leadingDigits d).2) ∧
      (divisorWords (leadingDigits d).1 (leadingDigits d).2).headD 0 = ws.headD 0 ∧
      (divisorWords (leadingDigits d).1 (leadingDigits d).2).length ≤ ws.length ∧
      d.mag = value digBase (divisorWords (leadingDigits d).1 (leadingDigits d).2) *
        digBase ^ (ws.length - (divisorWords (leadingDigits d).1 (leadingDigits d).2).length) := by
  have hp := rdropWhile_prefix (fun w => w == 0) (l := ws)
  have hvalue := value_rdropWhile_zero (b := digBase) ws
  have hwords : Words digBase (ws.rdropWhile (· == 0)) := fun w hw => h.words w (hp.subset hw)
  obtain ⟨w, rest, rfl, hpos⟩ := h.cons
  have hh : ((w :: rest).rdropWhile (· == 0)).headD 0 = w := by
    obtain ⟨t, ht⟩ := hp
    cases hc : (w :: rest).rdropWhile (· == 0) with
    | nil =>
      rw [rdropWhile_eq_nil_iff] at hc
      have hz := hc w mem_cons_self
      rw [beq_iff_eq] at hz
      omega
    | cons v vs =>
      rw [hc, cons_append] at ht
      injection ht with hv
  unfold divisorWords
  rw [h.take, ← h.value]
  refine ⟨⟨hwords, ?_⟩, ?_, hp.length_le, hvalue⟩
  · rw [hh]
    exact hpos
  · rw [hh, headD_cons]

theorem Divisor.pow_le {vs : List ℕ} (h : Divisor vs) :
    0 < vs.length ∧ vs.headD 0 * digBase ^ (vs.length - 1) ≤ value digBase vs := by
  obtain ⟨v0, rest, rfl, -, -, -⟩ := h.cons
  rw [value_cons, length_cons, Nat.add_sub_cancel, headD_cons]
  exact ⟨Nat.succ_pos _, Nat.le_add_right _ _⟩

theorem divInit_spec {us vs : List ℕ} (hu : Words digBase us) (hne : us ≠ []) (hv : Divisor vs) :
    DivRem vs (divInit us vs) ∧ divTotal (divInit us vs) = value digBase us ∧
      (divInit us vs).start1.length + 1 = us.length + (if us.headD 0 ≥ vs.headD 0 then 1 else 0) ∧
      divTotal (divInit us vs) * digBase ^ (vs.length - 1) <
        value digBase vs * digBase ^ (divInit us vs).start1.length := by
  obtain ⟨hl, hle⟩ := hv.pow_le
  have hf : ∀ ws, Words digBase ws →
      value digBase (ws.take (vs.length - 1)) < digBase ^ (vs.length - 1) := fun ws hw =>
    lt_of_lt_of_le (hw.take _).value_lt (Nat.pow_le_pow_right digBase_pos (length_take_le _ _))
  unfold divInit
  by_cases h : us.headD 0 < vs.headD 0
  · rw [if_pos h, if_neg (Nat.not_le.mpr h)]
    obtain ⟨u, us', rfl⟩ := exists_cons_of_ne_nil hne
    rw [headD_cons] at h ⊢
    have hw := words_cons.mp hu
    have hm := Nat.mul_le_mul_right (digBase ^ (vs.length - 1)) h
    refine ⟨⟨hw.2, ?_⟩, ?_, rfl, ?_⟩
    · have hr := hf us' hw.2
      rw [Nat.succ_mul] at hm
      simp only [tail_cons]
      omega
    · rw [value_cons]
      rfl
    · have hlt : u * digBase ^ us'.length + value digBase us' < (u + 1) * digBase ^ us'.length := by
        have hr := hw.2.value_lt
        rw [Nat.succ_mul]
        omega
      calc (u * digBase ^ us'.length + value digBase us') * digBase ^ (vs.length - 1)
          < (u + 1) * digBase ^ us'.length * digBase ^ (vs.length - 1) :=
            Nat.mul_lt_mul_of_pos_right hlt (pow_pos digBase_pos _)
        _ = (u + 1) * digBase ^ (vs.length - 1) * digBase ^ us'.length := by ring
        _ ≤ value digBase vs * digBase ^ us'.length := Nat.mul_le_mul_right _ (hm.trans hle)
  · rw [if_neg h, if_pos (Nat.not_lt.mp h)]
    have hm := Nat.mul_le_mul_right (digBase ^ (vs.length - 1)) hv.head_pos
    rw [Nat.succ_mul, zero_mul, zero_add] at hm
    have ht : divTotal ⟨us, 0⟩ = value digBase us := by
      unfold divTotal
      simp only [zero_mul, zero_add]
    refine ⟨⟨hu, ?_⟩, ht, rfl, ?_⟩
    · have hr := hf us hu
      simp only [zero_mul, zero_add]
      omega
    · rw [ht, mul_comm (value digBase vs)]
      exact Nat.mul_lt_mul_of_lt_of_le hu.value_lt (hm.trans hle) hv.value_pos

/-! ### The loop and the numbers -/

/-- What is known when the loop starts. -/
structure SetupSpec (from1 from2 : DecimalT) (u : DivSetup) : Prop where
  divisor : Divisor u.start2
  rem : DivRem u.start2 u.init
  lt : divTotal u.init * digBase ^ (u.start2.length - 1) < value digBase u.start2 * digBase ^ u.init.start1.length
  intg0 : u.intg0 = (quotWords from1 from2).toNat
  lead : u.lead = (-quotWords from1 from2).toNat
  place : quotWords from1 from2 = wordsBefore from1 - wordsBefore from2 + (u.init.start1.length + 1 - u.tmp1.length)
  room : u.start2.length + (quotWords from1 from2 + u.frac0) ≤ u.init.start1.length
  abs1 : from1.abs = divTotal u.init * (digBase : ℚ) ^ (wordsBefore from1 - u.tmp1.length)
  abs2 : from2.abs = value digBase u.start2 * (digBase : ℚ) ^ (wordsBefore from2 - u.start2.length)

theorem digBase_ne_zero : (digBase : ℚ) ≠ 0 := by
  exact_mod_cast digBase_pos.ne'

theorem digBase_zpow_pos (e : ℤ) : (0 : ℚ) < (digBase : ℚ) ^ e :=
  zpow_pos (by exact_mod_cast digBase_pos) e

theorem digBase_pow_mul_zpow (m : ℕ) (e : ℤ) : (digBase : ℚ) ^ m * (digBase : ℚ) ^ e = (digBase : ℚ) ^ (m + e) := by
  rw [zpow_add₀ digBase_ne_zero, zpow_natCast]

theorem DecimalT.abs_eq_zpow (d : DecimalT) : d.abs = d.mag * (digBase : ℚ) ^ (-(roundUp d.frac : ℤ)) := by
  unfold abs
  rw [zpow_neg, zpow_natCast, div_eq_mul_inv]

theorem dividendWords_spec {k : ℕ} (h : Trimmed d k ws) (frac2 scaleIncr : ℕ) :
    ∃ m, roundUp (2 * frac2 + scaleIncr + 1) + 1 ≤ m ∧
      dividendWords (leadingDigits d).1 (leadingDigits d).2 frac2 scaleIncr = ws ++ replicate m 0 := by
  unfold dividendWords
  simp only
  rw [h.take, h.length]
  exact ⟨_, by omega, rfl⟩

theorem divSetup_spec {from1 from2 : DecimalT} (h1 : from1.WF) (h2 : from2.WF) (hne1 : from1.mag ≠ 0)
    (hne2 : from2.mag ≠ 0) (scaleIncr : ℕ) : SetupSpec from1 from2 (divSetup from1 from2 scaleIncr) := by
  obtain ⟨k1, us, hus⟩ := exists_trimmed h1 hne1
  obtain ⟨k2, ws, hws⟩ := exists_trimmed h2 hne2
  obtain ⟨hdiv, hhead, hlen, hvalue⟩ := divisorWords_spec hws
  unfold divSetup
  simp only
  generalize hincr : scaleIncr - (roundUp from1.frac * digPerDec1 - from1.frac +
    (roundUp from2.frac * digPerDec1 - from2.frac)) = incr
  obtain ⟨m, hm, htmp⟩ := dividendWords_spec hus (roundUp from2.frac * digPerDec1) incr
  generalize divisorWords (leadingDigits from2).1 (leadingDigits from2).2 = vs at *
  obtain ⟨u, rest, hcons, -⟩ := hus.cons
  have hne : us ++ replicate m 0 ≠ [] := by
    rw [hcons]
    simp
  have hwords : Words digBase (us ++ replicate m 0) :=
    words_append.mpr ⟨hus.words, words_replicate_zero digBase_pos m⟩
  have hhead1 : (us ++ replicate m 0).headD 0 = us.headD 0 := by
    rw [hcons]
    rfl
  obtain ⟨hrem, htotal, hinit, hlt⟩ := divInit_spec hwords hne hdiv
  rw [hhead1, hhead, length_append, length_replicate] at hinit
  rw [value_append, value_replicate_zero, add_zero, length_replicate] at htotal
  -- The digits of the first words agree with their order.
  have hc : ((if us.headD 0 ≥ ws.headD 0 then 1 else 0) = 0 ∧ k1 ≤ k2) ∨
      ((if us.headD 0 ≥ ws.headD 0 then 1 else 0) = 1 ∧ k2 ≤ k1) := by
    by_cases h : us.headD 0 ≥ ws.headD 0
    · rw [if_pos h]
      exact .inr ⟨rfl, digits_of_le hus.lt hws.le h⟩
    · rw [if_neg h]
      exact .inl ⟨rfl, digits_of_le hws.lt hus.le (by omega)⟩
  have hcast : (if us.headD 0 ≥ ws.headD 0 then (1 : ℤ) else 0) =
      ((if us.headD 0 ≥ ws.headD 0 then 1 else 0 : ℕ) : ℤ) := by
    push_cast
    rfl
  have hquot : quotWords from1 from2 = ((us.length : ℤ) - roundUp from1.frac) -
      (ws.length - roundUp from2.frac) + ((if us.headD 0 ≥ ws.headD 0 then 1 else 0 : ℕ) : ℤ) := by
    unfold quotWords
    rw [hus.head, hws.head, hus.wordsBefore_eq, hws.wordsBefore_eq, hcast]
  generalize (if us.headD 0 ≥ ws.headD 0 then 1 else 0 : ℕ) = c at *
  have hwords1 := hus.wordsBefore_eq
  have hwords2 := hws.wordsBefore_eq
  have hfrac : roundUp (roundUp from1.frac * digPerDec1 + roundUp from2.frac * digPerDec1 + incr) =
      roundUp from1.frac + roundUp from2.frac + roundUp incr := by
    rw [← Nat.add_mul, roundUp_mul_add]
  have hincr' : 2 * roundUp from2.frac + roundUp incr ≤
      roundUp (2 * (roundUp from2.frac * digPerDec1) + incr + 1) := by
    rw [← mul_assoc, add_assoc, roundUp_mul_add]
    exact Nat.add_le_add_left (roundUp_mono (Nat.le_succ _)) _
  have hprec1 := hus.prec
  have hprec2 := hws.prec
  have hdintg : ((leadingDigits from1).1 : ℤ) - ((roundUp from1.frac * digPerDec1 : ℕ) : ℤ) -
      (((leadingDigits from2).1 : ℤ) - ((roundUp from2.frac * digPerDec1 : ℕ) : ℤ)) + c =
      digPerDec1 * (us.length - roundUp from1.frac - (ws.length - roundUp from2.frac)) + k1 - k2 + c := by
    push_cast
    unfold digPerDec1 at *
    omega
  obtain ⟨hintg, hlead⟩ := dintg_words ⟨hus.digits_pos, hus.digits_le⟩ ⟨hws.digits_pos, hws.digits_le⟩ hdintg hc
  rw [hus.head, hws.head, hcast, hfrac, htmp, hintg, hlead, ← hquot]
  refine ⟨hdiv, hrem, hlt, rfl, rfl, ?_, ?_, ?_, ?_⟩
  · rw [hquot, hwords1, hwords2, length_append, length_replicate]
    push_cast
    omega
  · rw [hquot]
    push_cast
    omega
  · rw [htotal, hus.value, hwords1, from1.abs_eq_zpow, Nat.cast_mul, Nat.cast_pow, mul_assoc,
      digBase_pow_mul_zpow, length_append, length_replicate]
    congr 2
    push_cast
    ring
  · rw [from2.abs_eq_zpow, hvalue, Nat.cast_mul, Nat.cast_pow, mul_assoc, digBase_pow_mul_zpow, hwords2,
      Nat.cast_sub hlen]
    congr 2
    ring

section run
variable {from1 from2 : DecimalT} {u : DivSetup}

theorem SetupSpec.abs2_pos (h : SetupSpec from1 from2 u) : 0 < from2.abs := by
  rw [h.abs2]
  exact mul_pos (by exact_mod_cast h.divisor.value_pos) (digBase_zpow_pos _)

/-- The quotient of the operands, as the quotient of the numbers that the loop divides. -/
theorem SetupSpec.quot_eq (h : SetupSpec from1 from2 u) :
    from1.abs / from2.abs = (divTotal u.init : ℚ) / value digBase u.start2 *
      (digBase : ℚ) ^ (quotWords from1 from2 - (u.init.start1.length + 1 - u.start2.length)) := by
  have hexp : quotWords from1 from2 - (u.init.start1.length + 1 - u.start2.length : ℤ) =
      (wordsBefore from1 - u.tmp1.length) - (wordsBefore from2 - u.start2.length) := by
    rw [h.place]
    ring
  rw [h.abs1, h.abs2, hexp, zpow_sub₀ digBase_ne_zero (wordsBefore from1 - _), mul_div_mul_comm]

/-- **The quotient.**  After the iterations for `f` words after the point, its words are those of the
quotient of the operands. -/
theorem SetupSpec.floor (h : SetupSpec from1 from2 u) {f : ℕ} (hf : f ≤ u.frac0) :
    ⌊from1.abs / from2.abs * digBase ^ f⌋₊ =
      value digBase (divLoop u.start2 (quotWords from1 from2 + f).toNat u.init).1 := by
  have hroom := h.room
  have hl := h.divisor.pow_le.1
  have hv : (0 : ℚ) < value digBase u.start2 := by exact_mod_cast h.divisor.value_pos
  rw [h.quot_eq, mul_assoc, mul_comm (_ ^ (_ : ℤ)), digBase_pow_mul_zpow]
  by_cases hn : quotWords from1 from2 + f < 0
  · -- The first word of the quotient is after the last one that is asked for.
    have hlt : (divTotal u.init : ℚ) / value digBase u.start2 <
        (digBase : ℚ) ^ ((u.init.start1.length : ℤ) - (u.start2.length - 1 : ℕ)) := by
      rw [div_lt_iff₀ hv, zpow_sub₀ digBase_ne_zero, zpow_natCast, zpow_natCast, div_mul_eq_mul_div,
        lt_div_iff₀ (digBase_pow_pos _), mul_comm (_ ^ _) (value _ _ : ℚ)]
      exact_mod_cast h.lt
    have hone : (digBase : ℚ) ^ (quotWords from1 from2 + f) ≤ 1 :=
      zpow_le_one_of_nonpos₀ (by exact_mod_cast digBase_pos) hn.le
    rw [Int.toNat_of_nonpos hn.le, divLoop, value_nil, Nat.floor_eq_zero]
    calc (divTotal u.init : ℚ) / value digBase u.start2 * _
        < (digBase : ℚ) ^ ((u.init.start1.length : ℤ) - (u.start2.length - 1 : ℕ)) * _ :=
          mul_lt_mul_of_pos_right hlt (digBase_zpow_pos _)
      _ = (digBase : ℚ) ^ (quotWords from1 from2 + f) := by
          rw [← zpow_add₀ digBase_ne_zero]
          congr 1
          omega
      _ ≤ 1 := hone
  · obtain ⟨k, hk⟩ := Int.eq_ofNat_of_zero_le (not_lt.mp hn)
    have hl' : u.start2.length + k ≤ u.init.start1.length := by omega
    obtain ⟨-, -, hrem, hs, ht, -⟩ := divLoop_spec h.divisor h.rem hl'
    have hr := hrem.total_lt h.divisor (by omega)
    rw [show (divLoop u.start2 k u.init).2.start1.length = u.init.start1.length - k by omega,
      show u.init.start1.length - k + 1 - u.start2.length =
        u.init.start1.length + 1 - k - u.start2.length by omega] at hr
    have hexp : (f : ℤ) + (quotWords from1 from2 - (u.init.start1.length + 1 - u.start2.length)) =
        -((u.init.start1.length + 1 - k - u.start2.length : ℕ) : ℤ) := by omega
    have hc : (divTotal u.init : ℚ) / value digBase u.start2 *
        (digBase : ℚ) ^ (-((u.init.start1.length + 1 - k - u.start2.length : ℕ) : ℤ)) =
        (divTotal u.init : ℚ) / ((value digBase u.start2 *
          digBase ^ (u.init.start1.length + 1 - k - u.start2.length) : ℕ) : ℚ) := by
      rw [zpow_neg, zpow_natCast, Nat.cast_mul, Nat.cast_pow, ← div_div, div_eq_mul_inv _ (_ ^ _)]
    rw [hk, Int.toNat_natCast, hexp, hc, Nat.floor_div_eq_div, ht, mul_assoc, Nat.add_comm,
      Nat.add_mul_div_right _ _ (lt_of_le_of_lt (Nat.zero_le _) hr), Nat.div_eq_of_lt hr, zero_add]

/-- **The remainder.**  After the iterations for the words before the point, the dividend is what is left of
the first operand. -/
theorem SetupSpec.rest (h : SetupSpec from1 from2 u) : from1.abs = ⌊from1.abs / from2.abs⌋₊ * from2.abs +
      divTotal (divLoop u.start2 u.intg0 u.init).2 * (digBase : ℚ) ^ (wordsBefore from1 - u.tmp1.length) := by
  have hr := h.room
  have hp := h.place
  have hf := h.floor (Nat.zero_le u.frac0)
  rw [pow_zero, mul_one, Nat.cast_zero, add_zero, ← h.intg0] at hf
  rw [hf]
  by_cases hn : quotWords from1 from2 < 0
  · have hz : u.intg0 = 0 := by
      rw [h.intg0]
      exact Int.toNat_of_nonpos hn.le
    rw [hz, divLoop, value_nil, Nat.cast_zero, zero_mul, zero_add]
    exact h.abs1
  · have hintg := h.intg0
    have hl : u.start2.length + u.intg0 ≤ u.init.start1.length := by omega
    obtain ⟨-, -, -, -, ht, -⟩ := divLoop_spec h.divisor h.rem hl
    have hexp : wordsBefore from2 - u.start2.length =
        ((u.init.start1.length + 1 - u.intg0 - u.start2.length : ℕ) : ℤ) +
          (wordsBefore from1 - u.tmp1.length) := by omega
    rw [h.abs1, h.abs2, ht, hexp, ← digBase_pow_mul_zpow]
    push_cast
    ring

end run

end MySQLServer.Decimal
