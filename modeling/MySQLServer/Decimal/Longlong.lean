import MySQLServer.Decimal.Value

/-! # Decimal numbers and integers of 64 bits

`ull2dec`, `longlong2decimal` and `ulonglong2decimal`, and back `decimal2longlong` and
`decimal2ulonglong` of `strings/decimal.c`.  The products are computed with 64 bits, and the tests for an
overflow come after them: a product that does not fit is found because the number before it was too large
already, or because the result went the wrong way (`ullLoop_eq`, `llLoop_eq`).  A `longlong` is an `Int` and
wraps as a two's complement does. -/

namespace MySQLServer.Decimal

open Lib

/-! ### The functions -/

def ulonglongMax : ℕ := 18446744073709551615

def longlongMax : ℤ := 9223372036854775807

def longlongMin : ℤ := -9223372036854775808

/-- What is left of a number in a `ulonglong`. -/
def wrapUnsigned (x : ℕ) : ℕ := x % 18446744073709551616

/-- What is left of a number in a `longlong`. -/
def wrapSigned (x : ℤ) : ℤ := (x + 9223372036854775808) % 18446744073709551616 - 9223372036854775808

/-- The words of a number: the first loop of `ull2dec`. -/
def ullIntg (x : ℕ) : ℕ := if x ≥ digBase then ullIntg (x / digBase) + 1 else 1
termination_by x
decreasing_by
  rename_i h
  exact Nat.div_lt_self (lt_of_lt_of_le digBase_pos h) (by decide)

/-- The second loop of `ull2dec`, which writes the words from the last one on. -/
def ullWords : ℕ → ℕ → List ℕ
  | 0, _ => []
  | intg1 + 1, x =>
    let y := x / digBase
    ullWords intg1 y ++ [x - y * digBase]

def ull2dec (x : ℕ) (dest : DecimalT) : DecErr × DecimalT :=
  let intg1 := ullIntg x
  let error := if intg1 > dest.len then DecErr.overflow else DecErr.ok
  let intg1 := if intg1 > dest.len then dest.len else intg1
  (error, { dest with frac := 0, intg := intg1 * digPerDec1, buf := ullWords intg1 x ++ dest.buf.drop intg1 })

def ulonglong2decimal (x : ℕ) (dest : DecimalT) : DecErr × DecimalT := ull2dec x { dest with sign := false }

/-- `longlong2decimal`: the negated number is wrapped, and then converted to a `ulonglong`. -/
def longlong2decimal (x : ℤ) (dest : DecimalT) : DecErr × DecimalT :=
  if x < 0 then ull2dec (wrapSigned (-x) % 18446744073709551616).toNat { dest with sign := true }
  else ull2dec x.toNat { dest with sign := false }

/-- The words before the point of `decimal2ulonglong`.  There is no result after an overflow. -/
def ullLoop : List ℕ → ℕ → Option ℕ
  | w :: ws, y =>
    let x := wrapUnsigned (wrapUnsigned (y * digBase) + w)
    if y > ulonglongMax / digBase ∨ x < y then none else ullLoop ws x
  | [], x => some x

/-- The words before the point of `decimal2longlong`: the number is computed with the sign `-`. -/
def llLoop : List ℕ → ℤ → Option ℤ
  | w :: ws, y =>
    let x := wrapSigned (wrapSigned (y * digBase) - w)
    if y < longlongMin.tdiv digBase ∨ x > y then none else llLoop ws x
  | [], x => some x

/-- Whether digits after the point are lost. -/
def fracError (d : DecimalT) : DecErr :=
  if ((d.buf.drop (roundUp d.intg)).take (roundUp d.frac)).any (· ≠ 0) then .truncated else .ok

def decimal2ulonglong (d : DecimalT) : DecErr × ℕ :=
  if d.sign then (.overflow, 0)
  else
    match ullLoop (d.buf.take (roundUp d.intg)) 0 with
    | none => (.overflow, ulonglongMax)
    | some x => (fracError d, x)

def decimal2longlong (d : DecimalT) : DecErr × ℤ :=
  match llLoop (d.buf.take (roundUp d.intg)) 0 with
  | none => (.overflow, if d.sign then longlongMin else longlongMax)
  | some x =>
    -- The boundary case 9223372036854775808.
    if d.sign = false ∧ x = longlongMin then (.overflow, longlongMax)
    else (fracError d, if d.sign then x else -x)

/-! ### The tests for an overflow -/

theorem ullLoop_eq {ws : List ℕ} (hw : Words digBase ws) {y : ℕ} (hy : y ≤ ulonglongMax) :
    ullLoop ws y = if y * digBase ^ ws.length + value digBase ws ≤ ulonglongMax then
      some (y * digBase ^ ws.length + value digBase ws) else none := by
  induction ws generalizing y with
  | nil =>
    rw [ullLoop, value_nil, List.length_nil, pow_zero, mul_one, add_zero, if_pos hy]
  | cons w ws ih =>
    rw [words_cons] at hw
    have hs : y * digBase ^ (w :: ws).length + value digBase (w :: ws) =
        (y * digBase + w) * digBase ^ ws.length + value digBase ws := by
      rw [value_cons, List.length_cons, pow_succ]
      ring
    have hp := pow_pos digBase_pos ws.length
    rw [ullLoop, hs]
    by_cases hf : y * digBase + w ≤ ulonglongMax
    · have hx : wrapUnsigned (wrapUnsigned (y * digBase) + w) = y * digBase + w := by
        unfold wrapUnsigned ulonglongMax at *
        omega
      have ht : ¬ (y > ulonglongMax / digBase ∨ y * digBase + w < y) := by
        unfold ulonglongMax digBase at *
        omega
      rw [hx, if_neg ht, ih hw.2 hf]
    · have ht : y > ulonglongMax / digBase ∨ wrapUnsigned (wrapUnsigned (y * digBase) + w) < y := by
        unfold wrapUnsigned ulonglongMax digBase at *
        omega
      have hle := Nat.le_mul_of_pos_right (y * digBase + w) hp
      rw [if_pos ht, if_neg (by omega)]

theorem wrapSigned_of_range {x : ℤ} (h1 : -9223372036854775808 ≤ x) (h2 : x < 9223372036854775808) :
    wrapSigned x = x := by
  unfold wrapSigned
  omega

/-- A word more that does not fit is seen: the number before was too large, or the result wraps to a
positive one. -/
theorem wrapSigned_of_lt {y w : ℤ} (hy : 0 ≤ y) (hw0 : 0 ≤ w) (hw : w < 1000000000)
    (h : 9223372036854775808 < y * 1000000000 + w) :
    -y < -9223372036 ∨ wrapSigned (wrapSigned (-y * 1000000000) - w) > -y := by
  by_cases hlt : -y < -9223372036
  · exact .inl hlt
  · right
    have hy' : y = 9223372036 := by omega
    have hin : wrapSigned (-y * 1000000000) = -9223372036000000000 := by
      rw [hy']
      decide
    rw [hin, hy']
    unfold wrapSigned
    omega

theorem llLoop_eq {ws : List ℕ} (hw : Words digBase ws) {y : ℕ} (hy : (y : ℤ) ≤ -longlongMin) :
    llLoop ws (-(y : ℤ)) = if ((y * digBase ^ ws.length + value digBase ws : ℕ) : ℤ) ≤ -longlongMin then
      some (-((y * digBase ^ ws.length + value digBase ws : ℕ) : ℤ)) else none := by
  induction ws generalizing y with
  | nil =>
    rw [llLoop, value_nil, List.length_nil, pow_zero, mul_one, add_zero, if_pos hy]
  | cons w ws ih =>
    rw [words_cons] at hw
    have hs : y * digBase ^ (w :: ws).length + value digBase (w :: ws) =
        (y * digBase + w) * digBase ^ ws.length + value digBase ws := by
      rw [value_cons, List.length_cons, pow_succ]
      ring
    have hb : (digBase : ℤ) = 1000000000 := rfl
    have hbound : longlongMin.tdiv digBase = -9223372036 := by decide
    have hm : -longlongMin = 9223372036854775808 := rfl
    have hlt : (w : ℤ) < 1000000000 := by exact_mod_cast hw.1
    have hle : (y * digBase + w : ℕ) ≤ (y * digBase + w) * digBase ^ ws.length :=
      Nat.le_mul_of_pos_right _ (pow_pos digBase_pos _)
    rw [llLoop, hs, hbound]
    by_cases hf : ((y * digBase + w : ℕ) : ℤ) ≤ -longlongMin
    · have hf' := hf
      push_cast at hf'
      rw [hb, hm] at hf'
      have hx : wrapSigned (wrapSigned (-(y : ℤ) * digBase) - w) = -((y * digBase + w : ℕ) : ℤ) := by
        have hin : wrapSigned (-(y : ℤ) * 1000000000) = -(y : ℤ) * 1000000000 :=
          wrapSigned_of_range (by omega) (by omega)
        push_cast
        rw [hb, hin, wrapSigned_of_range (by omega) (by omega)]
        ring
      have ht : ¬ (-(y : ℤ) < -9223372036 ∨ -((y * digBase + w : ℕ) : ℤ) > -(y : ℤ)) := by
        push_cast
        rw [hb]
        omega
      rw [hx, if_neg ht, ih hw.2 hf]
    · have ht : -(y : ℤ) < -9223372036 ∨ wrapSigned (wrapSigned (-(y : ℤ) * digBase) - w) > -(y : ℤ) := by
        rw [hb]
        push_cast at hf
        rw [hb, hm] at hf
        exact wrapSigned_of_lt (Nat.cast_nonneg _) (Nat.cast_nonneg _) hlt (not_le.mp hf)
      rw [if_pos ht, if_neg]
      intro h
      refine hf (le_trans ?_ h)
      exact_mod_cast hle.trans (Nat.le_add_right _ _)

/-! ### Exact or clamped -/

/-- A number without its digits after the point. -/
def truncRat (x : ℚ) : ℤ := if 0 ≤ x then ⌊x⌋ else ⌈x⌉

/-- A conversion is exact, or without the digits after the point, or the nearest bound. -/
structure ExactOrClamp (d : DecimalT) (out : Prop) (bound : ℤ) (r : DecErr × ℤ) : Prop where
  ok : r = (.ok, truncRat d.toRat) ↔ ¬ out ∧ d.toRat = truncRat d.toRat
  truncated : r = (.truncated, truncRat d.toRat) ↔ ¬ out ∧ d.toRat ≠ truncRat d.toRat
  overflow : r = (.overflow, bound) ↔ out

variable {out : Prop}

section exact
variable {d : DecimalT}

/-- The words before the point are the floor of the number without its sign. -/
theorem DecimalT.WF.intg_eq_floor (h : d.WF) : ⌊d.abs⌋ = (value digBase (d.buf.take (roundUp d.intg)) : ℤ) ∧
      (d.abs = (value digBase (d.buf.take (roundUp d.intg)) : ℚ) ↔ fracError d = .ok) := by
  have hm := mag_eq h.fits
  have hwords : Words digBase ((d.buf.drop (roundUp d.intg)).take (roundUp d.frac)) := by
    have hw := h.words.drop (roundUp d.intg)
    unfold DecimalT.words at hw
    rw [List.drop_take, Nat.add_sub_cancel_left] at hw
    exact hw
  have hl : ((d.buf.drop (roundUp d.intg)).take (roundUp d.frac)).length ≤ roundUp d.frac :=
    List.length_take_le _ _
  have hlt := lt_of_lt_of_le hwords.value_lt (Nat.pow_le_pow_right digBase_pos hl)
  have hz : value digBase ((d.buf.drop (roundUp d.intg)).take (roundUp d.frac)) = 0 ↔ fracError d = .ok := by
    unfold fracError
    rw [value_eq_zero_iff digBase_pos]
    by_cases hany : ((d.buf.drop (roundUp d.intg)).take (roundUp d.frac)).any (· ≠ 0)
    · rw [if_pos hany]
      simp only [List.any_eq_true, decide_eq_true_eq] at hany
      obtain ⟨w, hw, hne⟩ := hany
      exact ⟨fun hall => absurd (hall w hw) hne, fun h => by cases h⟩
    · rw [if_neg hany]
      simp only [List.any_eq_true, decide_eq_true_eq, not_exists, not_and, not_not] at hany
      exact ⟨fun _ => rfl, fun _ => hany⟩
  have hp := digBase_pow_pos (roundUp d.frac)
  unfold abs
  rw [← hz, hm]
  generalize value digBase ((d.buf.drop (roundUp d.intg)).take (roundUp d.frac)) = f at *
  constructor
  · rw [Int.floor_eq_iff, le_div_iff₀ hp, div_lt_iff₀ hp]
    constructor
    · exact_mod_cast Nat.le_add_right _ _
    · push_cast
      have hc : (f : ℚ) < digBase ^ roundUp d.frac := by exact_mod_cast hlt
      linarith
  · rw [div_eq_iff hp.ne']
    push_cast
    constructor
    · intro heq
      have hf : (f : ℚ) = 0 := by linarith
      exact_mod_cast hf
    · rintro rfl
      rw [Nat.cast_zero, add_zero]

theorem DecimalT.WF.truncRat_toRat (h : d.WF) :
    truncRat d.toRat = (if d.sign then -(value digBase (d.buf.take (roundUp d.intg)) : ℤ)
      else value digBase (d.buf.take (roundUp d.intg))) ∧ (d.toRat = truncRat d.toRat ↔ fracError d = .ok) := by
  obtain ⟨hf, hex⟩ := h.intg_eq_floor
  have hn := d.abs_nonneg
  have ht : truncRat d.toRat = if d.sign then -(value digBase (d.buf.take (roundUp d.intg)) : ℤ)
      else value digBase (d.buf.take (roundUp d.intg)) := by
    rw [← hf]
    unfold truncRat toRat
    cases d.sign with
    | false =>
      simp only [Bool.false_eq_true, if_false]
      rw [if_pos hn]
    | true =>
      simp only [if_true]
      by_cases hz : 0 ≤ -d.abs
      · have hz' : d.abs = 0 := by linarith
        rw [if_pos hz, hz']
        simp
      · rw [if_neg hz, Int.ceil_neg]
  refine ⟨ht, ?_⟩
  rw [ht, ← hex]
  unfold toRat
  cases d.sign with
  | false | true => simp

theorem fracError_cases (d : DecimalT) : fracError d = .ok ∨ fracError d = .truncated := by
  unfold fracError
  split
  · exact .inr rfl
  · exact .inl rfl

theorem ExactOrClamp.of_out {bound : ℤ} (h : out) : ExactOrClamp d out bound (.overflow, bound) where
  ok := ⟨fun h' => (by cases h'), fun h' => absurd h h'.1⟩
  truncated := ⟨fun h' => (by cases h'), fun h' => absurd h h'.1⟩
  overflow := ⟨fun _ => h, fun _ => rfl⟩

theorem ExactOrClamp.of_not_out {bound t : ℤ} (hd : d.WF) (h : ¬ out)
    (ht : t = truncRat d.toRat) : ExactOrClamp d out bound (fracError d, t) := by
  have hiff := hd.truncRat_toRat.2
  rw [ht]
  obtain herr | herr := fracError_cases d
  · have heq := hiff.mpr herr
    rw [herr]
    exact ⟨⟨fun _ => ⟨h, heq⟩, fun _ => rfl⟩, ⟨fun h' => (by cases h'), fun h' => absurd heq h'.2⟩,
      ⟨fun h' => (by cases h'), fun h' => absurd h' h⟩⟩
  · have hne : d.toRat ≠ truncRat d.toRat := fun heq => by
      rw [hiff.mp heq] at herr
      cases herr
    rw [herr]
    exact ⟨⟨fun h' => (by cases h'), fun h' => absurd h'.2 hne⟩, ⟨fun _ => ⟨h, hne⟩, fun _ => rfl⟩,
      ⟨fun h' => (by cases h'), fun h' => absurd h' h⟩⟩

theorem decimal2longlong_spec (h : d.WF) : ExactOrClamp d
    (truncRat d.toRat < longlongMin ∨ longlongMax < truncRat d.toRat)
    (if truncRat d.toRat < longlongMin then longlongMin else longlongMax) (decimal2longlong d) := by
  have hl := llLoop_eq (h.words_take (Nat.le_add_right (roundUp d.intg) (roundUp d.frac))) (y := 0) (by decide)
  rw [Nat.cast_zero, neg_zero, zero_mul, zero_add] at hl
  have ht := h.truncRat_toRat.1
  unfold decimal2longlong
  rw [hl]
  generalize value digBase (d.buf.take (roundUp d.intg)) = n at *
  by_cases hf : (n : ℤ) ≤ -longlongMin
  · rw [if_pos hf]
    cases hs : d.sign with
    | false =>
      simp only [hs, Bool.false_eq_true, if_false, true_and] at ht ⊢
      by_cases hm : -(n : ℤ) = longlongMin
      · have hlow : ¬ truncRat d.toRat < longlongMin := by
          omega
        rw [if_pos hm, if_neg hlow]
        refine ExactOrClamp.of_out (.inr ?_)
        unfold longlongMin longlongMax at *
        omega
      · rw [if_neg hm]
        refine ExactOrClamp.of_not_out h ?_ (by rw [ht, neg_neg])
        unfold longlongMin longlongMax at *
        omega
    | true =>
      simp only [hs, if_true, Bool.true_eq_false, false_and, if_false] at ht ⊢
      refine ExactOrClamp.of_not_out h ?_ ht.symm
      unfold longlongMin longlongMax at *
      omega
  · rw [if_neg hf]
    simp only
    cases hs : d.sign with
    | false =>
      simp only [hs, Bool.false_eq_true, if_false] at ht ⊢
      have hlow : ¬ truncRat d.toRat < longlongMin := by
        unfold longlongMin at *
        omega
      rw [if_neg hlow]
      refine ExactOrClamp.of_out (.inr ?_)
      unfold longlongMin longlongMax at *
      omega
    | true =>
      simp only [hs, if_true] at ht ⊢
      have hlow : truncRat d.toRat < longlongMin := by
        rw [ht]
        omega
      rw [if_pos hlow]
      exact ExactOrClamp.of_out (.inl hlow)

theorem decimal2ulonglong_spec (h : d.WF) : ExactOrClamp d
    (d.sign = true ∨ (ulonglongMax : ℤ) < truncRat d.toRat) (if d.sign then 0 else ulonglongMax)
    ((decimal2ulonglong d).1, ((decimal2ulonglong d).2 : ℤ)) := by
  have hl := ullLoop_eq (h.words_take (Nat.le_add_right (roundUp d.intg) (roundUp d.frac))) (y := 0)
    (Nat.zero_le _)
  rw [zero_mul, zero_add] at hl
  have ht := h.truncRat_toRat.1
  unfold decimal2ulonglong
  rw [hl]
  generalize value digBase (d.buf.take (roundUp d.intg)) = n at *
  cases hs : d.sign with
  | true => exact ExactOrClamp.of_out (.inl rfl)
  | false =>
    simp only [hs, Bool.false_eq_true, if_false] at ht ⊢
    by_cases hfit : n ≤ ulonglongMax
    · simp only [if_pos hfit]
      refine ExactOrClamp.of_not_out h ?_ ht.symm
      rw [ht]
      rintro (hf | hlt)
      · exact hf
      · exact absurd (Int.ofNat_lt.mp hlt) (not_lt.mpr hfit)
    · simp only [if_neg hfit]
      refine ExactOrClamp.of_out (.inr ?_)
      rw [ht]
      exact_mod_cast not_le.mp hfit

end exact

/-! ### There and back -/

theorem lt_pow_ullIntg (x : ℕ) : 0 < ullIntg x ∧ x < digBase ^ ullIntg x := by
  induction x using Nat.strong_induction_on with
  | _ x ih =>
    rw [ullIntg]
    by_cases h : x ≥ digBase
    · have hr := ih (x / digBase) (Nat.div_lt_self (lt_of_lt_of_le digBase_pos h) (by decide))
      rw [if_pos h, pow_succ]
      exact ⟨Nat.succ_pos _, (Nat.div_lt_iff_lt_mul digBase_pos).mp hr.2⟩
    · rw [if_neg h, pow_one]
      exact ⟨Nat.one_pos, not_le.mp h⟩

theorem ullIntg_le {x n : ℕ} (hx : x < digBase ^ (n + 1)) : ullIntg x ≤ n + 1 := by
  induction n generalizing x with
  | zero =>
    rw [zero_add, pow_one] at hx
    rw [ullIntg, if_neg (not_le.mpr hx)]
  | succ n ih =>
    rw [ullIntg]
    split
    · have hd : x / digBase < digBase ^ (n + 1) := by
        rw [Nat.div_lt_iff_lt_mul digBase_pos, ← pow_succ]
        exact hx
      exact Nat.succ_le_succ (ih hd)
    · exact Nat.succ_le_succ (Nat.zero_le _)

theorem ullWords_eq (n x : ℕ) : ullWords n x = fixedWords digBase n x := by
  induction n generalizing x with
  | zero => rfl
  | succ n ih =>
    have hm : x - x / digBase * digBase = x % digBase := by
      rw [mul_comm]
      exact (Nat.mod_eq_sub_mul_div).symm
    rw [ullWords, fixedWords, ih, hm]

section roundTrip
variable {dest : DecimalT}

/-- A number that fits into the buffer is converted to itself. -/
theorem ull2dec_spec {x : ℕ} (hok : (ull2dec x dest).1 = .ok) :
    (ull2dec x dest).2.WF ∧ (ull2dec x dest).2.sign = dest.sign ∧ (ull2dec x dest).2.abs = x := by
  have hf : ¬ ullIntg x > dest.len := by
    intro h
    unfold ull2dec at hok
    simp only [if_pos h] at hok
    cases hok
  unfold ull2dec
  simp only [if_neg hf, ullWords_eq]
  obtain ⟨hp, hlt⟩ := lt_pow_ullIntg x
  have hl : (fixedWords digBase (ullIntg x) x).length = ullIntg x + roundUp 0 := length_fixedWords _ _
  obtain ⟨hm, hwf⟩ := DecimalT.of_whole hl (words_fixedWords digBase_pos _ _) dest.sign
    (dest.buf.drop (ullIntg x))
  refine ⟨hwf ?_ (one_dvd _), trivial, ?_⟩
  · rw [List.length_append, length_fixedWords]
    omega
  · unfold DecimalT.abs
    rw [hm, value_fixedWords_of_lt hlt, show roundUp 0 = 0 from rfl, pow_zero, div_one]

theorem ull2dec_ok {x : ℕ} (hx : x ≤ ulonglongMax) (hl : 3 ≤ dest.len) : (ull2dec x dest).1 = .ok := by
  have hle : ullIntg x ≤ 2 + 1 := ullIntg_le (lt_of_le_of_lt hx (by decide))
  unfold ull2dec
  simp only
  rw [if_neg (by omega)]

theorem truncRat_intCast (x : ℤ) : truncRat x = x := by
  unfold truncRat
  split
  · exact Int.floor_intCast x
  · exact Int.ceil_intCast x

/-- What a number is converted back to. -/
theorem ExactOrClamp.eq_ok {d : DecimalT} {bound x : ℤ} {r : DecErr × ℤ}
    (h : ExactOrClamp d out bound r) (hx : d.toRat = x) (hout : ¬ out) : r = (.ok, x) := by
  have hok := h.ok
  rw [hx, truncRat_intCast] at hok
  exact hok.mpr ⟨hout, rfl⟩

theorem longlong_roundTrip {x : ℤ} (h1 : longlongMin ≤ x) (h2 : x ≤ longlongMax)
    (hok : (longlong2decimal x dest).1 = .ok) : decimal2longlong (longlong2decimal x dest).2 = (.ok, x) := by
  have hv : (longlong2decimal x dest).2.WF ∧ (longlong2decimal x dest).2.toRat = x := by
    unfold longlong2decimal at hok ⊢
    by_cases hn : x < 0
    · rw [if_pos hn] at hok ⊢
      have hw : (wrapSigned (-x) % 18446744073709551616).toNat = x.natAbs := by
        unfold wrapSigned longlongMin at *
        omega
      rw [hw] at hok ⊢
      obtain ⟨hwf, hs, habs⟩ := @ull2dec_spec { dest with sign := true } _ hok
      refine ⟨hwf, ?_⟩
      unfold DecimalT.toRat
      rw [hs, habs, if_pos rfl, Nat.cast_natAbs, abs_of_neg hn]
      push_cast
      ring
    · rw [if_neg hn] at hok ⊢
      obtain ⟨hwf, hs, habs⟩ := @ull2dec_spec { dest with sign := false } _ hok
      refine ⟨hwf, ?_⟩
      unfold DecimalT.toRat
      rw [hs, habs]
      exact_mod_cast congrArg (Int.cast (R := ℚ)) (Int.toNat_of_nonneg (not_lt.mp hn))
  refine (decimal2longlong_spec hv.1).eq_ok hv.2 ?_
  rw [hv.2, truncRat_intCast]
  omega

theorem ulonglong_roundTrip {x : ℕ} (h : x ≤ ulonglongMax) (hok : (ulonglong2decimal x dest).1 = .ok) :
    decimal2ulonglong (ulonglong2decimal x dest).2 = (.ok, x) := by
  obtain ⟨hwf, hs, habs⟩ := @ull2dec_spec { dest with sign := false } _ hok
  have hv : (ull2dec x { dest with sign := false }).2.toRat = ((x : ℤ) : ℚ) := by
    unfold DecimalT.toRat
    rw [hs, habs]
    simp
  have hb := (decimal2ulonglong_spec hwf).eq_ok hv (by
    rw [hv, truncRat_intCast, hs]
    rintro (h' | h')
    · cases h'
    · exact absurd (Int.ofNat_lt.mp h') (not_lt.mpr h))
  rw [Prod.mk.injEq] at hb
  exact Prod.ext hb.1 (Int.ofNat_inj.mp hb.2)

/-- What is proved of the conversions of 64 bits.  A buffer of three words has room for every number. -/
structure LonglongConversions : Prop where
  longlong : ∀ d : DecimalT, d.WF → ExactOrClamp d (truncRat d.toRat < longlongMin ∨ longlongMax < truncRat d.toRat)
    (if truncRat d.toRat < longlongMin then longlongMin else longlongMax) (decimal2longlong d)
  ulonglong : ∀ d : DecimalT, d.WF → ExactOrClamp d
    (d.sign = true ∨ (ulonglongMax : ℤ) < truncRat d.toRat) (if d.sign then 0 else ulonglongMax)
    ((decimal2ulonglong d).1, ((decimal2ulonglong d).2 : ℤ))
  longlong_back : ∀ (x : ℤ) (dest : DecimalT), longlongMin ≤ x → x ≤ longlongMax →
    (3 ≤ dest.len → (longlong2decimal x dest).1 = .ok) ∧
      ((longlong2decimal x dest).1 = .ok → decimal2longlong (longlong2decimal x dest).2 = (.ok, x))
  ulonglong_back : ∀ (x : ℕ) (dest : DecimalT), x ≤ ulonglongMax →
    (3 ≤ dest.len → (ulonglong2decimal x dest).1 = .ok) ∧
      ((ulonglong2decimal x dest).1 = .ok → decimal2ulonglong (ulonglong2decimal x dest).2 = (.ok, x))

/-- **The conversions** to integers of 64 bits are exact or clamped, and those to decimal numbers are undone
by them. -/
theorem longlong_conversions : LonglongConversions := by
  refine ⟨fun d h => decimal2longlong_spec h, fun d h => decimal2ulonglong_spec h,
    fun x dest h1 h2 => ⟨fun hl => ?_, longlong_roundTrip h1 h2⟩,
    fun x dest h => ⟨fun hl => ull2dec_ok h hl, ulonglong_roundTrip h⟩⟩
  unfold longlong2decimal
  split
  · refine ull2dec_ok ?_ hl
    unfold ulonglongMax
    omega
  · refine ull2dec_ok ?_ hl
    unfold longlongMax at h2
    unfold ulonglongMax
    omega

end roundTrip

end MySQLServer.Decimal
